import GrammarLookahead.Proofs.Construction
import GrammarLookahead.Proofs.LeftRecursion.Marks
import GrammarLookahead.Proofs.Lookahead.Adequacy

namespace GrammarLookahead

open Relation

/-- A mandatory element that a list of candidates has twice. -/
def Grammar.Doubled (g : Grammar) (found : List ElementId) (id : ElementId) : Prop :=
  (g.written id).isOptional = false ∧ 2 ≤ found.count id

/-- No mandatory element is in the list twice. -/
def Grammar.Undoubled (g : Grammar) (found : List ElementId) : Prop :=
  ∀ id, ¬ g.Doubled found id

/-- A step that the grammar leads, or one within a sequence past elements that may be skipped or are
waived. A context has one mark for an element, however often it is met, so a fragment that may be
skipped lends its cardinality also to those meetings of its elements that are not in it. -/
inductive Grammar.LeadsPast (g : Grammar) (waived : ElementId → Prop) :
    ElementId → ElementId → Prop
  | leads {id found} : g.Leads id found → LeadsPast g waived id found
  | member {id before found after} : g.Plays id (.sequence (before ++ found :: after)) →
      (∀ other ∈ before, (g.written other).isOptional = true ∨ waived other) →
      LeadsPast g waived id found

/-- The elements that an inquiry starts from if the waived elements may be skipped too. -/
def Inquiry.StartsFrom (g : Grammar) (waived : ElementId → Prop) : Inquiry → ElementId → Prop
  | .openings id, found => found = id
  | .sequence ids, found => ∃ before after, ids = before ++ found :: after ∧
      ∀ other ∈ before, (g.written other).isOptional = true ∨ waived other
  | .branches ids, found => found ∈ ids
  | _, _ => False

theorem Grammar.Undoubled.of_nodup {g : Grammar} {found : List ElementId} (h : found.Nodup) :
    g.Undoubled found := by
  intro id hd
  have hle := List.nodup_iff_count_le_one.mp h id
  have hcount := hd.2
  omega

variable {g : Grammar} {waived : ElementId → Prop} {i : Inquiry} {id found : ElementId}
  {o p : Context} {l : List ElementId}

/-- A search leaves marks only on what it has found. -/
theorem Finds.marks (h : Finds g i o l p) {k : ElementId} (hk : p.Marks k) :
    o.Marks k ∨ k ∈ l := by
  induction h with
  | leaf | closed | sequenceNil | branchesNil | repetitionsNil | bottom => exact .inl hk
  | unwrap _ _ ih => exact Context.marks_of_handOn ih hk
  | sequenceStop _ _ ih | repetitionsOnce _ _ _ ih | outermost _ _ ih | settle _ _ _ ih =>
    exact ih hk
  | sequenceStep _ _ _ ih ih' | branchesCons _ _ ih ih' | repetitionsAgain _ _ _ ih ih'
  | follow _ _ _ _ ih ih' | pop _ _ _ ih ih' | climb _ _ _ _ _ ih ih' =>
    exact Context.marks_or_mem_append ih (ih' hk)
  | leave _ _ _ _ _ _ ih ih' ih'' =>
    exact Context.marks_or_mem_append (fun hk => Context.marks_or_mem_append ih (ih' hk)) (ih'' hk)

/-- What may be skipped after it has been found is written so, or it is a leaf that had a mark
before. -/
theorem Finds.isOptional_seen (h : Finds g (.openings id) o l p) (hp : p.Faithful g)
    (hleaf : ∀ k, p.Marks k → g.Plays k .leaf) (ho : (p.seen g id).isOptional = true) :
    (g.written id).isOptional = true ∨ o.Marks id ∧ l = [id] := by
  rcases (hp.isOptional_seen id).mp ho with hwritten | hmark
  · exact .inl hwritten
  · have hid := hleaf id hmark
    cases h with
    | leaf => exact .inr ⟨hmark, rfl⟩
    | closed hclosed => cases hclosed.unique hid
    | unwrap hu => exact absurd hid hu.not_leaf

theorem Inquiry.startsFrom_cons {rest : List ElementId}
    (hid : (g.written id).isOptional = true ∨ waived id)
    (h : StartsFrom g waived (.sequence rest) found) :
    StartsFrom g waived (.sequence (id :: rest)) found := by
  obtain ⟨before, after, rfl, hopt⟩ := h
  exact ⟨id :: before, after, rfl, List.forall_mem_cons.mpr ⟨hid, hopt⟩⟩

theorem Grammar.Unwraps.leadsPast (hu : g.Unwraps id i) (h : i.StartsFrom g waived found) :
    g.LeadsPast waived id found := by
  cases hu with
  | sequence hp =>
    obtain ⟨before, after, rfl, hopt⟩ := h
    exact .member hp hopt
  | choice hp => exact .leads (Grammar.leads_of_choice hp h)
  | action => exact h.elim
  | call hp => exact .leads (Grammar.leads_of_call hp (Option.mem_toList.mp h))

theorem Grammar.LeadsPast.leads_of_not_waived (h : g.LeadsPast waived id found)
    (hnone : ∀ other, ¬ waived other) : g.Leads id found := by
  cases h with
  | leads h => exact h
  | member hp hopt =>
    exact Grammar.leads_of_sequence hp fun other ho => (hopt other ho).resolve_right (hnone other)

/-- What a search has to know of its context: marks are on leaves that have been found before. -/
structure Context.Earned (g : Grammar) (before : List ElementId) (o : Context) : Prop where
  faithful : o.Faithful g
  leaf : ∀ k, o.Marks k → g.Plays k .leaf
  found : ∀ k, o.Marks k → k ∈ before

theorem Context.earned_empty : Context.Earned g [] ∅ where
  faithful := faithful_empty
  leaf k hk := absurd hk (not_marks_empty k)
  found k hk := absurd hk (not_marks_empty k)

theorem Context.Earned.after {before : List ElementId} (ho : o.Earned g before)
    (h : Finds g i o l p) : p.Earned g (before ++ l) where
  faithful := h.faithful ho.faithful
  leaf k hk := (h.marks hk).elim (ho.leaf k) (h.leaves k)
  found k hk := List.mem_append.mpr ((h.marks hk).imp_left (ho.found k))

/-- Inquiries that do not look behind an action. -/
def Inquiry.Forward : Inquiry → Prop
  | .openings _ | .sequence _ | .branches _ => True
  | _ => False

/-- What is found is led to from where the inquiry starts, past mandatory elements only if they have
been found before: those that are in what was found `before` and in what is found now. -/
theorem Finds.startsFrom (hfree : g.ActionFree) {all before : List ElementId}
    (h : Finds g i o l p) (hi : i.Forward) (ho : o.Earned g before)
    (hall : (before ++ l).Sublist all) {found : ElementId} (hf : found ∈ l) :
    ∃ start, i.StartsFrom g (g.Doubled all) start ∧
      ReflTransGen (g.LeadsPast (g.Doubled all)) start found := by
  induction h generalizing before with
  | leaf => exact ⟨_, rfl, List.mem_singleton.mp hf ▸ .refl⟩
  | closed | sequenceNil | branchesNil => cases hf
  | @unwrap id i _ _ _ hu _ ih =>
    have hi' : i.Forward := by
      cases hu with
      | action hp => exact absurd hp hfree.not_plays
      | sequence | choice | call => trivial
    obtain ⟨start, hstart, hr⟩ := ih hi' ho hall hf
    exact ⟨id, rfl, .head (hu.leadsPast hstart) hr⟩
  | sequenceStop _ _ ih =>
    obtain ⟨_, rfl, hr⟩ := ih trivial ho hall hf
    exact ⟨_, ⟨[], _, rfl, by simp⟩, hr⟩
  | @sequenceStep id rest o l p l' q h hopt _ ih ih' =>
    have hall' : ((before ++ l) ++ l').Sublist all := by rwa [List.append_assoc]
    have hfirst : (before ++ l).Sublist all := (List.sublist_append_left _ _).trans hall'
    have hp := ho.after h
    rcases List.mem_append.mp hf with hf | hf
    · obtain ⟨_, rfl, hr⟩ := ih trivial ho hfirst hf
      exact ⟨_, ⟨[], _, rfl, by simp⟩, hr⟩
    · obtain ⟨start, hstart, hr⟩ := ih' trivial hp hall' hf
      have hid : (g.written id).isOptional = true ∨ g.Doubled all id := by
        cases hw : (g.written id).isOptional with
        | true => exact .inl rfl
        | false =>
          -- The element was found before, and it has just been found again.
          rcases h.isOptional_seen hp.faithful hp.leaf hopt with hw' | ⟨hmark, rfl⟩
          · simp [hw] at hw'
          · have hbefore := List.count_pos_iff.mpr (ho.found id hmark)
            have hcount := hfirst.count_le id
            rw [List.count_append, List.count_singleton_self] at hcount
            exact .inr ⟨hw, by omega⟩
      exact ⟨start, Inquiry.startsFrom_cons hid hstart, hr⟩
  | @branchesCons id rest o l p l' q h _ ih ih' =>
    have hall' : ((before ++ l) ++ l').Sublist all := by rwa [List.append_assoc]
    rcases List.mem_append.mp hf with hf | hf
    · obtain ⟨_, rfl, hr⟩ := ih trivial ho ((List.sublist_append_left _ _).trans hall') hf
      exact ⟨_, List.mem_cons_self, hr⟩
    · obtain ⟨start, hstart, hr⟩ := ih' trivial (ho.after h) hall' hf
      exact ⟨start, List.mem_cons_of_mem _ hstart, hr⟩
  | _ => exact hi.elim

/-- On a grammar without actions, a candidate for the start of an element is led to from it, past
elements that may be skipped and mandatory elements that are candidates twice; if there is no such
mandatory element, the grammar as it is written leads to all candidates. -/
theorem openings_leadsPast {g : Grammar} (hfree : g.ActionFree) {depth : Nat} {id : ElementId}
    {l : List ElementId} {p : Context} (h : (g.openingsWithin depth id).run ∅ = .ok (l, p)) :
    (∀ found ∈ l, ReflTransGen (g.LeadsPast (g.Doubled l)) id found) ∧
      (g.Undoubled l → ∀ found ∈ l, ReflTransGen g.Leads id found) := by
  have hfinds := (Finds.of_run depth).1 h
  have hpast : ∀ found ∈ l, ReflTransGen (g.LeadsPast (g.Doubled l)) id found := by
    intro found hf
    obtain ⟨_, rfl, hr⟩ :=
      hfinds.startsFrom hfree trivial Context.earned_empty (List.Sublist.refl l) hf
    exact hr
  refine ⟨hpast, fun hund found hf => ?_⟩
  have hle : g.LeadsPast (g.Doubled l) ≤ g.Leads :=
    fun _ _ hstep => hstep.leads_of_not_waived hund
  exact ReflTransGen.mono hle _ _ (hpast found hf)

/-- The rules `B: 'k' 'x'` and `A: B? B`. The first call of `B` makes the keyword `k` optional, and
so it is in the second call, where it is met again. -/
def shared : Grammar where
  name := "G"
  elements := #[⟨.keyword "k", .once, some ⟨2⟩⟩, ⟨.keyword "x", .once, some ⟨2⟩⟩,
    ⟨.group [⟨0⟩, ⟨1⟩], .once, none⟩, ⟨.ruleCall "B" (some ⟨0⟩) [], .optional, some ⟨5⟩⟩,
    ⟨.ruleCall "B" (some ⟨0⟩) [], .once, some ⟨5⟩⟩, ⟨.group [⟨3⟩, ⟨4⟩], .once, none⟩]
  rules := #[.parser { name := "B", body := some ⟨2⟩ }, .parser { name := "A", body := some ⟨5⟩ }]

namespace Shared

theorem build : Grammar.build "G" [.add (.keyword "k"), .add (.keyword "x"),
    .add (.group [⟨0⟩, ⟨1⟩]), .declare (.parser { name := "B", body := some ⟨2⟩ }),
    .add (.ruleCall "B" none []), .setCardinality ⟨3⟩ .optional, .add (.ruleCall "B" none []),
    .add (.group [⟨3⟩, ⟨4⟩]), .declare (.parser { name := "A", body := some ⟨5⟩ })] =
      .ok shared := by
  decide +kernel

theorem actionFree : shared.ActionFree := by
  decide

theorem not_leads {id : ElementId} : ¬ shared.Leads id ⟨1⟩ := by
  have hg := Grammar.forest_of_build build
  have hplays : shared.Plays ⟨2⟩ (.sequence [⟨0⟩, ⟨1⟩]) := ⟨_, rfl, rfl⟩
  have hholds : shared.Holds ⟨2⟩ ⟨1⟩ := hplays.holds_sequence (by simp)
  intro h
  rcases h.role with ⟨_, hp, hf⟩ | ⟨before, after, hp, hopt⟩ | ⟨_, _, hp, hf⟩ | ⟨hp, -⟩
  · obtain rfl := hg.holds_unique (hp.holds_choice hf) hholds
    cases hp.unique hplays
  · obtain rfl := hg.holds_unique (hp.holds_sequence (by simp)) hholds
    have hmembers : before ++ ⟨1⟩ :: after = [⟨0⟩, ⟨1⟩] := by simpa using hp.unique hplays
    rcases before with _ | ⟨first, rest⟩
    · simp at hmembers
    · obtain rfl : first = ⟨0⟩ := by simpa using congrArg List.head? hmembers
      exact absurd (hopt _ List.mem_cons_self) (by decide)
  · exact hg.not_holds_body (hp.isBody_iff.mpr hf) hholds
  · exact actionFree.not_plays hp

theorem run_openings : (shared.openingsWithin 5 ⟨5⟩).run ∅ =
    .ok ([⟨0⟩, ⟨0⟩, ⟨1⟩], (∅ : Context).insert ⟨0⟩ .optional) := by
  decide +kernel

end Shared

/-- The queries offer a candidate that the grammar does not lead to. -/
theorem shared_offers_beyond_mandatory : ∃ commands, Grammar.build "G" commands = .ok shared ∧
    shared.ActionFree ∧ (shared.openings (some ⟨5⟩)).fresh = .ok [⟨0⟩, ⟨0⟩, ⟨1⟩] ∧
    ¬ ReflTransGen shared.Leads ⟨5⟩ ⟨1⟩ := by
  refine ⟨_, Shared.build, Shared.actionFree, by decide +kernel, fun hr => ?_⟩
  rcases ReflTransGen.cases_tail hr with heq | ⟨_, -, hl⟩
  · cases heq
  · exact Shared.not_leads hl

theorem openings_leadsPast_shared :
    ReflTransGen (shared.LeadsPast (shared.Doubled [⟨0⟩, ⟨0⟩, ⟨1⟩])) ⟨5⟩ ⟨1⟩ ∧
      ReflTransGen shared.Leads ⟨4⟩ ⟨0⟩ := by
  have hcall : (shared.openingsWithin 4 ⟨4⟩).run ∅ = .ok ([⟨0⟩], ∅) := by decide +kernel
  exact ⟨(openings_leadsPast Shared.actionFree Shared.run_openings).1 _ (by simp),
    (openings_leadsPast Shared.actionFree hcall).2 (.of_nodup (List.nodup_singleton _)) _ (by simp)⟩

end GrammarLookahead
