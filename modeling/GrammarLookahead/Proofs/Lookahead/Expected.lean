import GrammarLookahead.Proofs.Construction
import GrammarLookahead.Proofs.LeftRecursion.Leads
import GrammarLookahead.Proofs.Lookahead.Skipping

namespace GrammarLookahead

open Relation

namespace Grammar

/-- The second element comes next after the first one in the group around it: it is repeated, or
stands behind with nothing mandatory in between. -/
inductive Ahead (g : Grammar) : ElementId → ElementId → Prop
  | own {id} : (g.written id).isRepeatable = true → Ahead g id id
  | member {id member group?} : g.groupAround id = .ok (member, group?) →
      (g.written member).isRepeatable = true → Ahead g id member
  | following {id member group found before between after} :
      g.groupAround id = .ok (member, some group) →
      g.Plays group (.sequence (before ++ member :: (between ++ found :: after))) →
      (∀ other ∈ between, (g.written other).isOptional = true) → Ahead g id found

/-- The element comes next after the position that the stack describes: in the group around the
position, or, with nothing mandatory in between, beyond the end of the group, or behind a call that
the position is in. -/
inductive Expects (g : Grammar) : List ElementId → ElementId → Prop
  | ahead {id calls found} : g.Ahead id found → Expects g (id :: calls) found
  | climb {id calls group found} : g.EndsGroup id group → Expects g [group] found →
      Expects g (id :: calls) found
  | pop {id calls member found} : g.groupAround id = .ok (member, none) →
      Expects g calls found → Expects g (id :: calls) found
  | leave {id calls found} : g.EndsRule id → Expects g calls found → Expects g (id :: calls) found

/-- Matching the first element starts with the second one: an action, which consumes nothing, starts
with what comes next after it, and all else with what the grammar leads to. -/
inductive Offers (g : Grammar) : ElementId → ElementId → Prop
  | within {id found} : ¬ g.Plays id .action → g.Leads id found → Offers g id found
  | beyond {id found} : g.Plays id .action → g.Expects [id] found → Offers g id found

theorem endsGroup_of_last {g : Grammar} {id member group : ElementId} {before : List ElementId}
    (hga : g.groupAround id = .ok (member, some group))
    (hp : g.Plays group (.sequence (before ++ [member])))
    (hid : (g.written id).isRepeatable = false) (hmember : (g.written member).isRepeatable = false) :
    g.EndsGroup id group := by
  have hne : ∀ {id}, (g.written id).isRepeatable = false → g.written id ≠ .oneOrMore := by
    intro id hid heq
    simp [heq, Cardinality.isRepeatable] at hid
  exact ⟨member, before, [], hga, hp, by simp, hne hid, hne hmember⟩

end Grammar

/-- The elements that an inquiry starts from, whatever context it is made in. -/
def Inquiry.Expects (g : Grammar) : Inquiry → ElementId → Prop
  | .openings id, found => found = id
  | .sequence ids, found => ∃ before after, ids = before ++ found :: after ∧
      ∀ other ∈ before, (g.written other).isOptional = true
  | .branches ids, found => found ∈ ids
  | .repetitions ids, found => found ∈ ids ∧ (g.written found).isRepeatable = true
  | .ahead id, found => g.Ahead id found
  | .continuations stack, found => g.Expects stack found

/-- All leaves that the grammar offers from the element are in the list, and in the context they may
be skipped if the way to them goes through an element that may. -/
structure Covers (g : Grammar) (start : ElementId) (found : List ElementId) (o : Context) :
    Prop where
  mem : ∀ {leaf}, g.Plays leaf .leaf → ReflTransGen g.Offers start leaf → leaf ∈ found
  optional : ∀ {via leaf}, ReflTransGen g.Offers start via → ¬ g.Plays via .leaf →
    (g.written via).isOptional = true → ReflTransGen g.Offers via leaf → g.Plays leaf .leaf →
    (o.seen g leaf).isOptional = true

variable {g : Grammar} {i : Inquiry} {o p q : Context} {id start found : ElementId}
  {l l' : List ElementId}

theorem Grammar.not_offers_of_leaf (hp : g.Plays id .leaf) : ¬ g.Offers id found := by
  intro h
  cases h with
  | within _ hl => exact Grammar.not_leads_of_leaf hp hl
  | beyond ha => cases ha.unique hp

theorem Grammar.not_offers_of_closed (hp : g.Plays id .closed) : ¬ g.Offers id found := by
  intro h
  cases h with
  | within _ hl => exact Grammar.not_leads_of_closed hp hl
  | beyond ha => cases ha.unique hp

theorem Grammar.Unwraps.expects (hu : g.Unwraps id i) (h : g.Offers id found) :
    i.Expects g found := by
  cases h with
  | within hnot hl =>
    cases hu with
    | sequence hp => exact hl.of_sequence hp
    | choice hp => exact hl.of_choice hp
    | action hp => exact absurd hp hnot
    | call hp => exact Option.mem_toList.mpr (hl.of_call hp)
  | beyond ha hexp =>
    cases hu with
    | sequence hp | choice hp | call hp => cases hp.unique ha
    | action => exact hexp

namespace Covers

theorem of_leaf (hp : g.Plays id .leaf) : Covers g id [id] o where
  mem _ hr := by
    rcases ReflTransGen.cases_head hr with rfl | ⟨_, hs, -⟩
    · exact List.mem_singleton_self _
    · exact absurd hs (Grammar.not_offers_of_leaf hp)
  optional hr hnot _ _ _ := by
    rcases ReflTransGen.cases_head hr with rfl | ⟨_, hs, -⟩
    · exact absurd hp hnot
    · exact absurd hs (Grammar.not_offers_of_leaf hp)

theorem of_closed (hp : g.Plays id .closed) : Covers g id [] o := by
  have hnone : ∀ {leaf}, g.Plays leaf .leaf → ¬ ReflTransGen g.Offers id leaf := by
    intro leaf hleaf hr
    rcases ReflTransGen.cases_head hr with rfl | ⟨_, hs, -⟩
    · cases hleaf.unique hp
    · exact absurd hs (Grammar.not_offers_of_closed hp)
  exact ⟨fun hleaf hr => absurd hr (hnone hleaf),
    fun hr _ _ hr' hleaf => absurd (hr.trans hr') (hnone hleaf)⟩

theorem unwrap (hu : g.Unwraps id i) (hp : p.Faithful g)
    (h : ∀ start, i.Expects g start → Covers g start l p) :
    Covers g id l (p.handOn g (g.written id) l) := by
  have hstep : ∀ {leaf}, g.Plays leaf .leaf → ReflTransGen g.Offers id leaf →
      ∃ start, g.Offers id start ∧ ReflTransGen g.Offers start leaf := by
    intro leaf hleaf hr
    rcases ReflTransGen.cases_head hr with rfl | h
    · exact absurd hleaf hu.not_leaf
    · exact h
  have hmem : ∀ {leaf}, g.Plays leaf .leaf → ReflTransGen g.Offers id leaf → leaf ∈ l := by
    intro leaf hleaf hr
    obtain ⟨start, hs, hr'⟩ := hstep hleaf hr
    exact (h start (hu.expects hs)).mem hleaf hr'
  have hp' := hp.handOn (g.written id) l
  refine ⟨hmem, ?_⟩
  intro via leaf hvia hnot hopt hr hleaf
  rcases ReflTransGen.cases_head hvia with rfl | ⟨start, hs, hvia'⟩
  · exact (hp'.isOptional_seen leaf).mpr
      (.inr (Context.marks_handOn.mpr (.inr ⟨hopt, hmem hleaf hr⟩)))
  · have hseen := (h start (hu.expects hs)).optional hvia' hnot hopt hr hleaf
    exact hp.isOptional_mono hp' (Context.le_handOn _ _ _) hseen

theorem append_right (h : Covers g start l p) (hp : p.Faithful g) (hf : Finds g i p l' q) :
    Covers g start (l ++ l') q where
  mem hleaf hr := List.mem_append_left l' (h.mem hleaf hr)
  optional hr hnot hopt hr' hleaf :=
    hp.isOptional_mono (hf.faithful hp) hf.le (h.optional hr hnot hopt hr' hleaf)

theorem append_left (h : Covers g start l' p) : Covers g start (l ++ l') p where
  mem hleaf hr := List.mem_append_right l (h.mem hleaf hr)
  optional := h.optional

end Covers

theorem Grammar.Expects.cases_cons {calls : List ElementId} (h : g.Expects (id :: calls) start) :
    g.Ahead id start ∨ (∃ group, g.EndsGroup id group ∧ g.Expects [group] start) ∨
      ((∃ member, g.groupAround id = .ok (member, none)) ∨ g.EndsRule id) ∧
        g.Expects calls start := by
  cases h with
  | ahead hahead => exact .inl hahead
  | climb hends hexp => exact .inr (.inl ⟨_, hends, hexp⟩)
  | pop hga hexp => exact .inr (.inr ⟨.inl ⟨_, hga⟩, hexp⟩)
  | leave hends hexp => exact .inr (.inr ⟨.inr hends, hexp⟩)

theorem Grammar.Ahead.cases_around (h : g.Ahead id start) {member : ElementId}
    {group? : Option ElementId} (hga : g.groupAround id = .ok (member, group?)) :
    (start ∈ repeated id member ∧ (g.written start).isRepeatable = true) ∨
      ∃ group before between after, group? = some group ∧
        g.Plays group (.sequence (before ++ member :: (between ++ start :: after))) ∧
        ∀ other ∈ between, (g.written other).isOptional = true := by
  cases h with
  | own hrep => exact .inl ⟨id_mem_repeated, hrep⟩
  | member hga' hrep =>
    cases hga.symm.trans hga'
    exact .inl ⟨member_mem_repeated, hrep⟩
  | following hga' hp hopt =>
    cases hga.symm.trans hga'
    exact .inr ⟨_, _, _, _, rfl, hp, hopt⟩

/-- A statement about a search and an element that it starts from which need only be shown where the
search comes to the element: it stays true when more is found, later or before. -/
structure Gathers (g : Grammar) (C : ElementId → Context → List ElementId → Context → Prop) :
    Prop where
  leaf : ∀ {id o}, g.Plays id .leaf → C id o [id] o
  closed : ∀ {id o}, g.Plays id .closed → C id o [] o
  unwrap : ∀ {id i o l p}, g.Unwraps id i → p.Faithful g →
    (∀ start, i.Expects g start → C start o l p) → C id o l (p.handOn g (g.written id) l)
  before : ∀ {start i o l p l' q}, C start o l p → p.Faithful g → Finds g i p l' q →
    C start o (l ++ l') q
  behind : ∀ {start i o l p l' q}, Finds g i o l p → C start p l' q → C start o (l ++ l') q

/-- A search gathers from all elements that it starts from. -/
theorem Finds.gathers {C : ElementId → Context → List ElementId → Context → Prop}
    (hC : Gathers g C) (hg : g.Forest) (h : Finds g i o l p) (ho : o.Faithful g)
    (hstart : i.Expects g start) : C start o l p := by
  induction h generalizing start with
  | leaf hp =>
    cases hstart
    exact hC.leaf hp
  | closed hp =>
    cases hstart
    exact hC.closed hp
  | unwrap hu h ih =>
    cases hstart
    exact hC.unwrap hu (h.faithful ho) fun start hs => ih ho hs
  | sequenceNil =>
    obtain ⟨before, after, hsplit, -⟩ := hstart
    simp at hsplit
  | @sequenceStop id rest _ _ _ h hstop ih =>
    obtain ⟨before, after, hsplit, hopt⟩ := hstart
    rcases List.cons_eq_append_iff.mp hsplit with ⟨rfl, heq⟩ | ⟨before, rfl, rfl⟩
    · cases heq
      exact ih ho rfl
    · have hseen := (h.faithful ho).isOptional_of_written (hopt id List.mem_cons_self)
      simp [hstop] at hseen
  | sequenceStep h _ hrest ih ih' =>
    obtain ⟨before, after, hsplit, hopt⟩ := hstart
    rcases List.cons_eq_append_iff.mp hsplit with ⟨rfl, heq⟩ | ⟨before, rfl, rfl⟩
    · cases heq
      exact hC.before (ih ho rfl) (h.faithful ho) hrest
    · have htail := fun other (hm : other ∈ before) => hopt other (List.mem_cons_of_mem _ hm)
      exact hC.behind h (ih' (h.faithful ho) ⟨before, after, rfl, htail⟩)
  | branchesNil => exact absurd hstart List.not_mem_nil
  | branchesCons h hrest ih ih' =>
    rcases List.mem_cons.mp hstart with rfl | hstart
    · exact hC.before (ih ho rfl) (h.faithful ho) hrest
    · exact hC.behind h (ih' (h.faithful ho) hstart)
  | repetitionsNil => exact absurd hstart.1 List.not_mem_nil
  | repetitionsOnce _ hrep _ ih =>
    obtain ⟨hmem, hwritten⟩ := hstart
    rcases List.mem_cons.mp hmem with rfl | hmem
    · rw [ho.isRepeatable_seen, hwritten] at hrep
      cases hrep
    · exact ih ho ⟨hmem, hwritten⟩
  | repetitionsAgain _ h hrest ih ih' =>
    obtain ⟨hmem, hwritten⟩ := hstart
    rcases List.mem_cons.mp hmem with rfl | hmem
    · exact hC.before (ih ho rfl) (h.faithful ho) hrest
    · exact hC.behind h (ih' (h.faithful ho) ⟨hmem, hwritten⟩)
  | outermost hga _ ih =>
    rcases hstart.cases_around hga with hrep | ⟨_, _, _, _, hnone, -⟩
    · exact ih ho hrep
    · cases hnone
  | follow hga haft hagain hfollowing ih ih' =>
    rcases hstart.cases_around hga with hrep | ⟨_, before, between, after, hgroup, hp, hopt⟩
    · exact hC.before (ih ho hrep) (hagain.faithful ho) hfollowing
    · cases hgroup
      cases haft.symm.trans (hp.membersAfter hg)
      exact hC.behind hagain (ih' (hagain.faithful ho) ⟨between, after, rfl, hopt⟩)
  | bottom => cases hstart
  | pop hga hahead hcalls ih ih' =>
    rcases Grammar.Expects.cases_cons hstart with hstart | ⟨_, hends, -⟩ | ⟨-, hstart⟩
    · exact hC.before (ih ho hstart) (hahead.faithful ho) hcalls
    · obtain ⟨_, hga'⟩ := hends.around
      cases hga.symm.trans hga'
    · exact hC.behind hahead (ih' (hahead.faithful ho) hstart)
  | settle hga hahead hs ih =>
    rcases Grammar.Expects.cases_cons hstart with hstart | ⟨_, hends, -⟩ | ⟨⟨_, hga'⟩ | hends, -⟩
    · exact ih ho hstart
    · exact absurd (hends.skips hg hahead ho) hs
    · cases hga.symm.trans hga'
    · exact absurd ((hends.climbs hga).1.skips hg hahead ho) hs
  | climb hga hahead hs habove hs' ih ih' =>
    have hq := hahead.faithful ho
    rcases Grammar.Expects.cases_cons hstart with
      hstart | ⟨_, hends, hstart⟩ | ⟨⟨_, hga'⟩ | hends, -⟩
    · exact hC.before (ih ho hstart) hq habove
    · obtain rfl := hends.unique hga
      exact hC.behind hahead (ih' hq hstart)
    · cases hga.symm.trans hga'
    · exact absurd (habove.skips_append hq hs ((hends.climbs hga).2.skips hg habove hq)) hs'
  | leave hga hahead hs habove _ hcalls ih ih' ih'' =>
    have hq := hahead.faithful ho
    have hr := habove.faithful hq
    rcases Grammar.Expects.cases_cons hstart with hstart | ⟨_, hends, hstart⟩ | ⟨-, hstart⟩
    · exact hC.before (hC.before (ih ho hstart) hq habove) hr hcalls
    · obtain rfl := hends.unique hga
      exact hC.before (hC.behind hahead (ih' hq hstart)) hr hcalls
    · rw [List.append_assoc]
      exact hC.behind hahead (hC.behind habove (ih'' hr hstart))

theorem gathers_covers : Gathers g fun start _ l p => Covers g start l p where
  leaf := Covers.of_leaf
  closed := Covers.of_closed
  unwrap := Covers.unwrap
  before := Covers.append_right
  behind _ := Covers.append_left

/-- A search covers what it starts from. -/
theorem Finds.covers (hg : g.Forest) (h : Finds g i o l p) (ho : o.Faithful g)
    (hstart : i.Expects g start) : Covers g start l p :=
  h.gathers gathers_covers hg ho hstart

/-- On a grammar that has been built, and in every context that queries have left, a search that ends
has found all leaves that the grammar offers: from the element whose openings it was for, or from all
elements that the grammar expects after the position whose continuations it was for. What is found
through an element that may be skipped may be skipped in the context that the search leaves. -/
theorem lookahead_covers {name : String} {commands : List Command} {g : Grammar}
    (h : Grammar.build name commands = .ok g) {o : Context} (ho : o.Filled g) :
    (∀ depth id found p, (g.openingsWithin depth id).run o = .ok (found, p) →
      Covers g id found p) ∧
    ∀ depth stack found p, (g.continuationsWithin depth stack).run o = .ok (found, p) →
      ∀ start, g.Expects stack start → Covers g start found p := by
  have hg := Grammar.forest_of_build h
  constructor
  · intro depth id found p hrun
    exact ((Finds.of_run depth).1 hrun).covers hg ho.faithful rfl
  · intro depth stack found p hrun start hstart
    exact ((Finds.of_run depth).2 hrun).covers hg ho.faithful hstart

/-- The rules `B: 'k'`, `A: ({T} B?) 'a'` and `C: A 'c'`. -/
def onward : Grammar where
  name := "G"
  elements := #[⟨.keyword "k", .once, none⟩, ⟨.action "T" none, .once, some ⟨3⟩⟩,
    ⟨.ruleCall "B" (some ⟨0⟩) [], .optional, some ⟨3⟩⟩, ⟨.group [⟨1⟩, ⟨2⟩], .once, some ⟨5⟩⟩,
    ⟨.keyword "a", .once, some ⟨5⟩⟩, ⟨.group [⟨3⟩, ⟨4⟩], .once, none⟩,
    ⟨.ruleCall "A" (some ⟨1⟩) [], .once, some ⟨8⟩⟩, ⟨.keyword "c", .once, some ⟨8⟩⟩,
    ⟨.group [⟨6⟩, ⟨7⟩], .once, none⟩]
  rules := #[.parser { name := "B", body := some ⟨0⟩ }, .parser { name := "A", body := some ⟨5⟩ },
    .parser { name := "C", body := some ⟨8⟩ }]

namespace Onward

theorem build : Grammar.build "G" [.add (.keyword "k"),
    .declare (.parser { name := "B", body := some ⟨0⟩ }), .add (.action "T" none),
    .add (.ruleCall "B" none []), .setCardinality ⟨2⟩ .optional, .add (.group [⟨1⟩, ⟨2⟩]),
    .add (.keyword "a"), .add (.group [⟨3⟩, ⟨4⟩]),
    .declare (.parser { name := "A", body := some ⟨5⟩ }), .add (.ruleCall "A" none []),
    .add (.keyword "c"), .add (.group [⟨6⟩, ⟨7⟩]),
    .declare (.parser { name := "C", body := some ⟨8⟩ })] = .ok onward := by
  decide +kernel

/-- The context that the search for the openings of `B?` leaves. -/
def marked : Context :=
  (∅ : Context).insert ⟨0⟩ .optional

theorem filled : marked.Filled onward := by
  have hrun : (onward.openingsWithin 2 ⟨2⟩).run ∅ = .ok ([⟨0⟩], marked) := by decide +kernel
  exact .openings .empty hrun

theorem plays_inner : onward.Plays ⟨3⟩ (.sequence [⟨1⟩, ⟨2⟩]) :=
  ⟨_, rfl, rfl⟩

theorem plays_outer : onward.Plays ⟨5⟩ (.sequence [⟨3⟩, ⟨4⟩]) :=
  ⟨_, rfl, rfl⟩

theorem expects_a : onward.Expects [⟨1⟩] ⟨4⟩ := by
  have hends : onward.EndsGroup ⟨1⟩ ⟨3⟩ :=
    ⟨⟨1⟩, [], [⟨2⟩], rfl, plays_inner, by decide, by decide, by decide⟩
  have hahead : onward.Ahead ⟨3⟩ ⟨4⟩ :=
    @Grammar.Ahead.following _ _ _ _ _ [] [] [] rfl plays_outer (by simp)
  exact .climb hends (.ahead hahead)

theorem offers_a : ReflTransGen onward.Offers ⟨6⟩ ⟨4⟩ := by
  have hnot : ∀ {id role}, onward.Plays id role → role ≠ .action → ¬ onward.Plays id .action :=
    fun hp hne hp' => hne (hp.unique hp')
  have hcall : onward.Plays ⟨6⟩ (.call ⟨1⟩ (some ⟨5⟩)) := ⟨_, rfl, rfl⟩
  have h1 : onward.Offers ⟨6⟩ ⟨5⟩ := .within (hnot hcall (by simp)) (.body rfl rfl)
  have h2 : onward.Offers ⟨5⟩ ⟨3⟩ := .within (hnot plays_outer (by simp))
    (@Grammar.leads_of_sequence _ _ _ [] [⟨4⟩] plays_outer (by simp))
  have h3 : onward.Offers ⟨3⟩ ⟨1⟩ := .within (hnot plays_inner (by simp))
    (@Grammar.leads_of_sequence _ _ _ [] [⟨2⟩] plays_inner (by simp))
  have h4 : onward.Offers ⟨1⟩ ⟨4⟩ := .beyond ⟨_, rfl, rfl⟩ expects_a
  exact (((ReflTransGen.single h1).tail h2).tail h3).tail h4

theorem expects_c : onward.Expects [⟨4⟩, ⟨6⟩] ⟨7⟩ := by
  have hends : onward.EndsRule ⟨4⟩ :=
    .climb (@Grammar.endsGroup_of_last onward ⟨4⟩ ⟨4⟩ ⟨5⟩ [⟨3⟩] rfl plays_outer rfl rfl)
      (.outermost rfl (by decide) (by decide))
  have hplays : onward.Plays ⟨8⟩ (.sequence [⟨6⟩, ⟨7⟩]) := ⟨_, rfl, rfl⟩
  have hahead : onward.Ahead ⟨6⟩ ⟨7⟩ :=
    @Grammar.Ahead.following _ _ _ _ _ [] [] [] rfl hplays (by simp)
  exact .leave hends (.ahead hahead)

end Onward

theorem lookahead_covers_onward : ∃ found next p q,
    (onward.openingsWithin 9 ⟨6⟩).run Onward.marked = .ok (found, p) ∧ ⟨4⟩ ∈ found ∧
      (onward.continuationsWithin 9 [⟨4⟩, ⟨6⟩]).run Onward.marked = .ok (next, q) ∧ ⟨7⟩ ∈ next := by
  have hrun : (onward.openingsWithin 9 ⟨6⟩).run Onward.marked =
      .ok ([⟨0⟩, ⟨4⟩], Onward.marked) := by decide +kernel
  have hrun' : (onward.continuationsWithin 9 [⟨4⟩, ⟨6⟩]).run Onward.marked =
      .ok ([⟨7⟩], Onward.marked) := by decide +kernel
  obtain ⟨hopen, hnext⟩ := lookahead_covers Onward.build Onward.filled
  exact ⟨_, _, _, _, hrun, (hopen _ _ _ _ hrun).mem ⟨_, rfl, rfl⟩ Onward.offers_a, hrun',
    (hnext _ _ _ _ hrun' _ Onward.expects_c).mem ⟨_, rfl, rfl⟩ .refl⟩

end GrammarLookahead
