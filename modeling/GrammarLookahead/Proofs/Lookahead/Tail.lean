import GrammarLookahead.Proofs.Lookahead.Alongside
import GrammarLookahead.Proofs.Lookahead.Opens

namespace GrammarLookahead

/-- The contexts agree on what may be skipped, save for some elements. -/
def Context.AgreesOutside (g : Grammar) (D : ElementId → Prop) (o o' : Context) : Prop :=
  ∀ id, ¬ D id → (o.seen g id).isOptional = (o'.seen g id).isOptional

namespace Grammar

/-- The members behind may be skipped in all groups that the element is in. -/
def TailOptional (g : Grammar) (id : ElementId) : Prop :=
  ∀ group before member after, g.Plays group (.sequence (before ++ member :: after)) →
    g.Encloses member id → ∀ other ∈ after, (g.written other).isOptional = true

/-- Lookahead on its way out of the rule offers the second element again if it may be repeated. -/
inductive Retries (g : Grammar) : ElementId → ElementId → Prop
  | here {id member group? other} : g.groupAround id = .ok (member, group?) →
      other ∈ repeated id member → Retries g id other
  | above {id member group other} : g.groupAround id = .ok (member, some group) →
      Retries g group other → Retries g id other

end Grammar

variable {g : Grammar} {D : ElementId → Prop} {i : Inquiry} {o p o' p' r : Context}
  {id found : ElementId} {l calls : List ElementId}

theorem Grammar.Retries.cases_around {other member : ElementId} {group? : Option ElementId}
    (h : g.Retries id other) (hga : g.groupAround id = .ok (member, group?)) :
    other = id ∨ other = member ∨ ∃ group, group? = some group ∧ g.Retries group other := by
  cases h with
  | here hga' hother =>
    cases hga.symm.trans hga'
    exact forall_repeated (P := fun other => other = id ∨ other = member ∨ _) (.inl rfl)
      (.inr (.inl rfl)) _ hother
  | above hga' h =>
    cases hga.symm.trans hga'
    exact .inr (.inr ⟨_, rfl, h⟩)

namespace Context

theorem Faithful.isOptional_handOn (ho : o.Faithful g) {around : Cardinality} :
    ((o.handOn g around l).seen g id).isOptional = true ↔
      (o.seen g id).isOptional = true ∨ around.isOptional = true ∧ id ∈ l := by
  rw [(ho.handOn around l).isOptional_seen, marks_handOn, ho.isOptional_seen, or_assoc]

theorem AgreesOutside.handOn (h : AgreesOutside g D o o') (ho : o.Faithful g)
    (ho' : o'.Faithful g) (around : Cardinality) (l : List ElementId) :
    AgreesOutside g D (o.handOn g around l) (o'.handOn g around l) := by
  intro id hid
  rw [Bool.eq_iff_iff, ho.isOptional_handOn, ho'.isOptional_handOn, h id hid]

theorem AgreesOutside.skips_iff (h : AgreesOutside g D o o') (hl : ∀ id ∈ l, ¬ D id) :
    o.Skips g l ↔ o'.Skips g l :=
  forall₂_congr fun id hid => by rw [h id (hl id hid)]

end Context

theorem Finds.not_of_openings (h : Finds g (.openings id) o l p)
    (hD : ∀ id, D id → g.Plays id .leaf) (hl : ∀ id ∈ l, ¬ D id) : ¬ D id := by
  intro hid
  obtain ⟨rfl, -⟩ := h.unique (.leaf (hD id hid))
  exact hl id (List.mem_singleton_self id) hid

/-- A search that finds none of the leaves on which two contexts differ is the same in both. -/
theorem Finds.frame (hD : ∀ id, D id → g.Plays id .leaf) (h : Finds g i o l p)
    (ho : o.Faithful g) (ho' : o'.Faithful g) (hag : o.AgreesOutside g D o')
    (hl : ∀ id ∈ l, ¬ D id) : ∃ p', Finds g i o' l p' ∧ p.AgreesOutside g D p' := by
  have hsplit : ∀ {l m : List ElementId}, (∀ id ∈ l ++ m, ¬ D id) →
      (∀ id ∈ l, ¬ D id) ∧ ∀ id ∈ m, ¬ D id := fun h =>
    ⟨fun id hid => h id (List.mem_append_left _ hid), fun id hid => h id (List.mem_append_right _ hid)⟩
  have hrep : ∀ {o o' : Context} {id}, o.Faithful g → o'.Faithful g →
      (o'.seen g id).isRepeatable = (o.seen g id).isRepeatable := fun ho ho' => by
    rw [ho.isRepeatable_seen, ho'.isRepeatable_seen]
  induction h generalizing o' with
  | leaf hp => exact ⟨o', .leaf hp, hag⟩
  | closed hp => exact ⟨o', .closed hp, hag⟩
  | unwrap hu h ih =>
    obtain ⟨p', h', hag⟩ := ih ho ho' hag hl
    exact ⟨_, .unwrap hu h', hag.handOn (h.faithful ho) (h'.faithful ho') _ _⟩
  | sequenceNil => exact ⟨o', .sequenceNil, hag⟩
  | sequenceStop h hstop ih =>
    obtain ⟨p', h', hag⟩ := ih ho ho' hag hl
    have hseen := hag _ (h.not_of_openings hD hl)
    exact ⟨p', .sequenceStop h' (hseen ▸ hstop), hag⟩
  | sequenceStep h hopt _ ih ih' =>
    obtain ⟨hl, hm⟩ := hsplit hl
    obtain ⟨p', h', hag⟩ := ih ho ho' hag hl
    have hseen := hag _ (h.not_of_openings hD hl)
    obtain ⟨q', hrest', hag⟩ := ih' (h.faithful ho) (h'.faithful ho') hag hm
    exact ⟨q', .sequenceStep h' (hseen ▸ hopt) hrest', hag⟩
  | branchesNil => exact ⟨o', .branchesNil, hag⟩
  | branchesCons h _ ih ih' =>
    obtain ⟨hl, hm⟩ := hsplit hl
    obtain ⟨p', h', hag⟩ := ih ho ho' hag hl
    obtain ⟨q', hrest', hag⟩ := ih' (h.faithful ho) (h'.faithful ho') hag hm
    exact ⟨q', .branchesCons h' hrest', hag⟩
  | repetitionsNil => exact ⟨o', .repetitionsNil, hag⟩
  | repetitionsOnce hid honce _ ih =>
    obtain ⟨p', h', hag⟩ := ih ho ho' hag hl
    exact ⟨p', .repetitionsOnce hid ((hrep ho ho').trans honce) h', hag⟩
  | repetitionsAgain hagain h _ ih ih' =>
    obtain ⟨hl, hm⟩ := hsplit hl
    obtain ⟨p', h', hag⟩ := ih ho ho' hag hl
    obtain ⟨q', hrest', hag⟩ := ih' (h.faithful ho) (h'.faithful ho') hag hm
    exact ⟨q', .repetitionsAgain ((hrep ho ho').trans hagain) h' hrest', hag⟩
  | outermost hga _ ih =>
    obtain ⟨p', h', hag⟩ := ih ho ho' hag hl
    exact ⟨p', .outermost hga h', hag⟩
  | follow hga haft h _ ih ih' =>
    obtain ⟨hl, hm⟩ := hsplit hl
    obtain ⟨p', h', hag⟩ := ih ho ho' hag hl
    obtain ⟨q', hrest', hag⟩ := ih' (h.faithful ho) (h'.faithful ho') hag hm
    exact ⟨q', .follow hga haft h' hrest', hag⟩
  | bottom => exact ⟨o', .bottom, hag⟩
  | pop hga h _ ih ih' =>
    obtain ⟨hl, hm⟩ := hsplit hl
    obtain ⟨p', h', hag⟩ := ih ho ho' hag hl
    obtain ⟨q', hcalls', hag⟩ := ih' (h.faithful ho) (h'.faithful ho') hag hm
    exact ⟨q', .pop hga h' hcalls', hag⟩
  | settle hga _ hs ih =>
    obtain ⟨p', h', hag⟩ := ih ho ho' hag hl
    exact ⟨p', .settle hga h' (mt (hag.skips_iff hl).mpr hs), hag⟩
  | climb hga h hs _ hs' ih ih' =>
    obtain ⟨hl', hm⟩ := hsplit hl
    obtain ⟨p', h', hag⟩ := ih ho ho' hag hl'
    have hs := (hag.skips_iff hl').mp hs
    obtain ⟨q', habove', hag⟩ := ih' (h.faithful ho) (h'.faithful ho') hag hm
    exact ⟨q', .climb hga h' hs habove' (mt (hag.skips_iff hl).mpr hs'), hag⟩
  | leave hga h hs habove hs' _ ih ih' ih'' =>
    obtain ⟨hlm, hn⟩ := hsplit hl
    obtain ⟨hl', hm⟩ := hsplit hlm
    obtain ⟨p', h', hag⟩ := ih ho ho' hag hl'
    have hs := (hag.skips_iff hl').mp hs
    have hq := h.faithful ho
    have hq' := h'.faithful ho'
    obtain ⟨q', habove', hag⟩ := ih' hq hq' hag hm
    have hs' := (hag.skips_iff hlm).mp hs'
    obtain ⟨r', hcalls', hag⟩ := ih'' (habove.faithful hq) (habove'.faithful hq') hag hn
    exact ⟨r', .leave hga h' hs habove' hs' hcalls', hag⟩

namespace Grammar.Forest

theorem tailOptional_body (hg : g.Forest) {rule : RuleId} (hb : g.IsBody rule id) :
    g.TailOptional id := by
  intro group before member after hp henc
  obtain rfl := hg.eq_of_encloses_body hb henc
  exact absurd (hp.holds_sequence (by simp)) (hg.not_holds_body hb)

theorem tailOptional_member (hg : g.Forest) {group : ElementId} {before after : List ElementId}
    (hp : g.Plays group (.sequence (before ++ id :: after)))
    (hafter : ∀ other ∈ after, (g.written other).isOptional = true)
    (hgroup : g.TailOptional group) : g.TailOptional id := by
  intro group' before' member after' hp' henc
  rcases Relation.ReflTransGen.cases_tail henc with rfl | ⟨outer, henc', hholds⟩
  · obtain rfl := hg.rest_unique hp hp'
    exact hafter
  · obtain rfl := hg.holds_unique hholds (hp.holds_sequence (by simp))
    exact hgroup _ _ _ _ hp' henc'

end Grammar.Forest

theorem Grammar.Forest.endsRule (hg : g.Forest) (hid : g.InRule id) (htail : g.TailOptional id)
    (honce : ∀ other, g.Retries id other → g.written other ≠ .oneOrMore) : g.EndsRule id := by
  induction hn : g.elements.size - id.index using Nat.strongRecOn generalizing id with
  | _ n ih =>
    obtain ⟨member, group?, hnear⟩ := hg.nearestGroup_of_inRule hid
    have hga := hnear.answer
    have hown := honce _ (.here hga id_mem_repeated)
    have hmember := honce _ (.here hga member_mem_repeated)
    cases group? with
    | none => exact .outermost hga hown hmember
    | some group =>
      obtain ⟨hgroup, hlt, -⟩ := (hg.inRule_around hid hga).2 group rfl
      obtain ⟨e, he⟩ := hg.isSome_of_inRule hgroup
      have hsize : group.index < g.elements.size := (Array.getElem?_eq_some_iff.mp he).1
      obtain ⟨_, before, after, he, hk⟩ := hnear.split group rfl
      have hp := Grammar.plays_sequence he hk
      have haround : g.Encloses group id :=
        .trans (.single (hp.holds_sequence (by simp))) hnear.encloses
      refine .climb ⟨member, before, after, hga, hp, htail _ _ _ _ hp hnear.encloses, hown, hmember⟩
        (ih _ (by omega) hgroup ?_ (fun other ho => honce other (.above hga ho)) rfl)
      exact fun group' before' member' after' hp' henc =>
        htail group' before' member' after' hp' (henc.trans haround)

/-- A search that goes on to the calls has found, until then, what it finds without any calls. -/
theorem Finds.cases_calls (hg : g.Forest) (h : Finds g (.continuations (id :: calls)) o l r)
    (ho : o.Faithful g) (hends : (∃ member, g.groupAround id = .ok (member, none)) ∨ g.EndsRule id) :
    ∃ own p more, Finds g (.continuations [id]) o own p ∧ Finds g (.continuations calls) p more r ∧
      l = own ++ more := by
  have hclimbs : ∀ {member group}, g.groupAround id = .ok (member, some group) →
      g.EndsGroup id group ∧ g.EndsRule group := fun hga =>
    hends.elim (fun ⟨_, hga'⟩ => by cases hga.symm.trans hga') (·.climbs hga)
  cases h with
  | pop hga hahead hcalls => exact ⟨_, _, _, .pop hga hahead .bottom, hcalls, by simp⟩
  | settle hga hahead hs => exact absurd ((hclimbs hga).1.skips hg hahead ho) hs
  | climb hga hahead hs habove hs' =>
    have hp := hahead.faithful ho
    exact absurd (habove.skips_append hp hs ((hclimbs hga).2.skips hg habove hp)) hs'
  | leave hga hahead hs habove hs' hcalls =>
    exact ⟨_, _, _, .leave hga hahead hs habove hs' .bottom, hcalls, by simp⟩

/-- A search that finds no mandatory element that another search has found before it finds the same
after that search as without it. -/
theorem Finds.after (h : Finds g i o l r) {j : Inquiry} {own : List ElementId}
    (hbefore : Finds g j o own p) (ho : o.Faithful g)
    (hfresh : ∀ found ∈ own, (o.seen g found).isOptional = false → found ∉ l) :
    ∃ q, Finds g i p l q := by
  have hp := hbefore.faithful ho
  have hag : o.AgreesOutside g (fun id => id ∈ own ∧ (o.seen g id).isOptional = false) p := by
    intro id hid
    rw [Bool.eq_iff_iff]
    refine ⟨ho.isOptional_mono hp hbefore.le, fun hopt => ?_⟩
    by_contra hnot
    rcases (hp.isOptional_seen id).mp hopt with hw | hmark
    · exact hnot (ho.isOptional_of_written hw)
    · rcases hbefore.marks hmark with hmark | hown
      · exact hnot ((ho.isOptional_seen id).mpr (.inr hmark))
      · exact hid ⟨hown, by simpa using hnot⟩
  obtain ⟨q, h', -⟩ := h.frame (fun id hid => hbefore.leaves id hid.1) ho hp hag
    fun id hl hid => hfresh id hid.1 hid.2 hl
  exact ⟨q, h'⟩

/-- On a grammar that has been built, let all members behind an element of a rule be skippable, in
its group and in the groups around that, and let nothing that is offered again on the way out of the
groups be written with `+`. Then the search for what comes next after the element goes on to the
calls that it is in. It finds what comes next after the calls alone: always if the grammar has no
actions, and else if that has none of the mandatory elements in it that were found before. -/
theorem continuations_of_tailOptional {name : String} {commands : List Command} {g : Grammar}
    (h : Grammar.build name commands = .ok g) {o : Context} (ho : o.Filled g) {id : ElementId}
    (hid : g.InRule id) (htail : g.TailOptional id)
    (honce : (∃ member, g.groupAround id = .ok (member, none)) ∨
      ∀ other, g.Retries id other → g.written other ≠ .oneOrMore)
    {calls l l' : List ElementId} {p p' : Context} {depth depth' : Nat}
    (hcalls : (g.continuationsWithin depth calls).run o = .ok (l, p))
    (hrun : (g.continuationsWithin depth' (id :: calls)).run o = .ok (l', p')) :
    ∃ own q more, (∃ depth, (g.continuationsWithin depth [id]).run o = .ok (own, q)) ∧
      (∃ depth, (g.continuationsWithin depth calls).run q = .ok (more, p')) ∧ l' = own ++ more ∧
      (g.ActionFree → l ⊆ more) ∧
      ((∀ found ∈ own, (o.seen g found).isOptional = false → found ∉ l) → more = l) := by
  have hg := Grammar.forest_of_build h
  have ho' := ho.sound
  have hends := honce.imp_right fun honce => hg.endsRule hid htail honce
  obtain ⟨own, q, more, hown, hmore, rfl⟩ :=
    ((Finds.of_run depth').2 hrun).cases_calls hg ho'.faithful hends
  have halone := (Finds.of_run depth).2 hcalls
  obtain ⟨bound, hbound⟩ := hown.run
  obtain ⟨bound', hbound'⟩ := hmore.run
  refine ⟨own, q, more, ⟨bound, hbound bound le_rfl⟩, ⟨bound', hbound' bound' le_rfl⟩, rfl, ?_, ?_⟩
  · intro hfree
    exact (halone.continuations_mono hg hfree hmore hown.le ho' (hown.sound ho')).1
  · intro hfresh
    obtain ⟨_, hsame⟩ := halone.after hown ho'.faithful hfresh
    exact (hmore.unique hsame).1

/-- The rules `R: 'x' 'a'+`, `Q: 'y' ('b' 'c'?)*` and `S: R Q 'z'`. -/
def plural : Grammar where
  name := "G"
  elements := #[⟨.keyword "x", .once, some ⟨2⟩⟩, ⟨.keyword "a", .oneOrMore, some ⟨2⟩⟩,
    ⟨.group [⟨0⟩, ⟨1⟩], .once, none⟩, ⟨.keyword "y", .once, some ⟨7⟩⟩,
    ⟨.keyword "b", .once, some ⟨6⟩⟩, ⟨.keyword "c", .optional, some ⟨6⟩⟩,
    ⟨.group [⟨4⟩, ⟨5⟩], .zeroOrMore, some ⟨7⟩⟩, ⟨.group [⟨3⟩, ⟨6⟩], .once, none⟩,
    ⟨.ruleCall "R" (some ⟨0⟩) [], .once, some ⟨11⟩⟩,
    ⟨.ruleCall "Q" (some ⟨1⟩) [], .once, some ⟨11⟩⟩, ⟨.keyword "z", .once, some ⟨11⟩⟩,
    ⟨.group [⟨8⟩, ⟨9⟩, ⟨10⟩], .once, none⟩]
  rules := #[.parser { name := "R", body := some ⟨2⟩ }, .parser { name := "Q", body := some ⟨7⟩ },
    .parser { name := "S", body := some ⟨11⟩ }]

namespace Plural

theorem build : Grammar.build "G" [.add (.keyword "x"), .add (.keyword "a"),
    .setCardinality ⟨1⟩ .oneOrMore, .add (.group [⟨0⟩, ⟨1⟩]),
    .declare (.parser { name := "R", body := some ⟨2⟩ }), .add (.keyword "y"), .add (.keyword "b"),
    .add (.keyword "c"), .setCardinality ⟨5⟩ .optional, .add (.group [⟨4⟩, ⟨5⟩]),
    .setCardinality ⟨6⟩ .zeroOrMore, .add (.group [⟨3⟩, ⟨6⟩]),
    .declare (.parser { name := "Q", body := some ⟨7⟩ }), .add (.ruleCall "R" none []),
    .add (.ruleCall "Q" none []), .add (.keyword "z"), .add (.group [⟨8⟩, ⟨9⟩, ⟨10⟩]),
    .declare (.parser { name := "S", body := some ⟨11⟩ })] = .ok plural := by
  decide +kernel

theorem forest : plural.Forest :=
  Grammar.forest_of_build build

theorem isBody_r : plural.IsBody ⟨0⟩ ⟨2⟩ := ⟨_, rfl, rfl⟩

theorem isBody_q : plural.IsBody ⟨1⟩ ⟨7⟩ := ⟨_, rfl, rfl⟩

theorem plays_r : plural.Plays ⟨2⟩ (.sequence ([⟨0⟩] ++ ⟨1⟩ :: [])) := ⟨_, rfl, rfl⟩

theorem plays_q : plural.Plays ⟨7⟩ (.sequence ([⟨3⟩] ++ ⟨6⟩ :: [])) := ⟨_, rfl, rfl⟩

theorem plays_inner : plural.Plays ⟨6⟩ (.sequence ([] ++ ⟨4⟩ :: [⟨5⟩])) := ⟨_, rfl, rfl⟩

theorem tailOptional_a : plural.TailOptional ⟨1⟩ :=
  forest.tailOptional_member plays_r (by simp) (forest.tailOptional_body isBody_r)

theorem tailOptional_b : plural.TailOptional ⟨4⟩ := by
  have hgroup : plural.TailOptional ⟨6⟩ :=
    forest.tailOptional_member plays_q (by simp) (forest.tailOptional_body isBody_q)
  exact forest.tailOptional_member plays_inner (by decide) hgroup

theorem inRule_a : plural.InRule ⟨1⟩ :=
  Grammar.Forest.inRule_inner (Grammar.Forest.inRule_body isBody_r) (plays_r.holds_sequence (by simp))

theorem inRule_b : plural.InRule ⟨4⟩ :=
  Grammar.Forest.inRule_inner (Grammar.Forest.inRule_inner (Grammar.Forest.inRule_body isBody_q)
    (plays_q.holds_sequence (by simp))) (plays_inner.holds_sequence (by simp))

theorem actionFree : plural.ActionFree := by
  decide

theorem written_of_retries {other : ElementId} (h : plural.Retries ⟨4⟩ other) :
    plural.written other ≠ .oneOrMore := by
  rcases h.cases_around rfl with rfl | rfl | ⟨_, hgroup, h⟩
  · decide
  · decide
  cases hgroup
  rcases h.cases_around rfl with rfl | rfl | ⟨_, hgroup, h⟩
  · decide
  · decide
  cases hgroup
  rcases h.cases_around rfl with rfl | rfl | ⟨_, hgroup, -⟩
  · decide
  · decide
  cases hgroup

end Plural

theorem continuations_of_tailOptional_plural : ∃ own q more,
    (∃ depth, (plural.continuationsWithin depth [⟨4⟩]).run ∅ = .ok (own, q)) ∧
      (∃ depth, (plural.continuationsWithin depth [⟨9⟩]).run q =
        .ok (more, (∅ : Context).insert ⟨4⟩ .optional)) ∧
      [⟨5⟩, ⟨4⟩, ⟨10⟩] = own ++ more ∧ [⟨10⟩] ⊆ more := by
  have hcalls : (plural.continuationsWithin 5 [⟨9⟩]).run ∅ = .ok ([⟨10⟩], ∅) := by decide +kernel
  have hrun : (plural.continuationsWithin 5 [⟨4⟩, ⟨9⟩]).run ∅ =
      .ok ([⟨5⟩, ⟨4⟩, ⟨10⟩], (∅ : Context).insert ⟨4⟩ .optional) := by decide +kernel
  obtain ⟨own, q, more, hown, hmore, heq, hall, -⟩ :=
    continuations_of_tailOptional Plural.build .empty Plural.inRule_b Plural.tailOptional_b
      (.inr fun _ => Plural.written_of_retries) hcalls hrun
  exact ⟨own, q, more, hown, hmore, heq, hall Plural.actionFree⟩

/-- After the last element of a rule, one that is written with `+`, what comes next after the call of
the rule is not offered. -/
theorem plural_omits_calls : ∃ commands, Grammar.build "G" commands = .ok plural ∧
    plural.InRule ⟨1⟩ ∧ plural.TailOptional ⟨1⟩ ∧
    (plural.continuations [⟨8⟩]).fresh = .ok [⟨3⟩] ∧
    (plural.continuations [⟨1⟩, ⟨8⟩]).fresh = .ok [⟨1⟩] :=
  ⟨_, Plural.build, Plural.inRule_a, Plural.tailOptional_a, by decide +kernel, by decide +kernel⟩

/-- The rules `B: 'z'`, `E: 'e' B?`, `R: E (({T} B) | B?) 'x'` and `S: R 'y'`. -/
def withheld : Grammar where
  name := "G"
  elements := #[⟨.keyword "z", .once, none⟩, ⟨.keyword "e", .once, some ⟨3⟩⟩,
    ⟨.ruleCall "B" (some ⟨0⟩) [], .optional, some ⟨3⟩⟩, ⟨.group [⟨1⟩, ⟨2⟩], .once, none⟩,
    ⟨.ruleCall "E" (some ⟨1⟩) [], .once, some ⟨11⟩⟩, ⟨.action "T" none, .once, some ⟨7⟩⟩,
    ⟨.ruleCall "B" (some ⟨0⟩) [], .once, some ⟨7⟩⟩, ⟨.group [⟨5⟩, ⟨6⟩], .once, some ⟨9⟩⟩,
    ⟨.ruleCall "B" (some ⟨0⟩) [], .optional, some ⟨9⟩⟩,
    ⟨.alternatives [⟨7⟩, ⟨8⟩], .once, some ⟨11⟩⟩, ⟨.keyword "x", .once, some ⟨11⟩⟩,
    ⟨.group [⟨4⟩, ⟨9⟩, ⟨10⟩], .once, none⟩, ⟨.ruleCall "R" (some ⟨2⟩) [], .once, some ⟨14⟩⟩,
    ⟨.keyword "y", .once, some ⟨14⟩⟩, ⟨.group [⟨12⟩, ⟨13⟩], .once, none⟩]
  rules := #[.parser { name := "B", body := some ⟨0⟩ }, .parser { name := "E", body := some ⟨3⟩ },
    .parser { name := "R", body := some ⟨11⟩ }, .parser { name := "S", body := some ⟨14⟩ }]

theorem withheld_misses : ∃ commands, Grammar.build "G" commands = .ok withheld ∧
    (withheld.continuations [⟨4⟩, ⟨12⟩]).fresh = .ok [⟨0⟩, ⟨0⟩, ⟨13⟩] ∧
    (withheld.continuations [⟨1⟩, ⟨4⟩, ⟨12⟩]).fresh = .ok [⟨0⟩, ⟨0⟩, ⟨10⟩, ⟨0⟩] := by
  refine ⟨[.add (.keyword "z"), .declare (.parser { name := "B", body := some ⟨0⟩ }),
    .add (.keyword "e"), .add (.ruleCall "B" none []), .setCardinality ⟨2⟩ .optional,
    .add (.group [⟨1⟩, ⟨2⟩]), .declare (.parser { name := "E", body := some ⟨3⟩ }),
    .add (.ruleCall "E" none []), .add (.action "T" none), .add (.ruleCall "B" none []),
    .add (.group [⟨5⟩, ⟨6⟩]), .add (.ruleCall "B" none []), .setCardinality ⟨8⟩ .optional,
    .add (.alternatives [⟨7⟩, ⟨8⟩]), .add (.keyword "x"), .add (.group [⟨4⟩, ⟨9⟩, ⟨10⟩]),
    .declare (.parser { name := "R", body := some ⟨11⟩ }), .add (.ruleCall "R" none []),
    .add (.keyword "y"), .add (.group [⟨12⟩, ⟨13⟩]),
    .declare (.parser { name := "S", body := some ⟨14⟩ })], ?_, ?_, ?_⟩ <;> decide +kernel

end GrammarLookahead
