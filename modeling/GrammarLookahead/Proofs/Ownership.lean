import GrammarLookahead.Proofs.Ascent

namespace GrammarLookahead

open Relation

namespace Grammar

variable {g : Grammar} {rule rule' : RuleId} {id around : ElementId}

theorem isBody_iff_exists {body : ElementId} : g.IsBody rule body ↔
    ∃ called, g.parserRule? rule = some called ∧ called.body = some body := by
  constructor
  · intro h
    obtain ⟨r, hr, hb⟩ := h
    obtain ⟨called, hcalled, hbody⟩ := Option.bind_eq_some_iff.mp hb
    exact ⟨called, by rw [parserRule?, hr, Option.bind_some, hcalled], hbody⟩
  · intro h
    obtain ⟨called, hcalled, hbody⟩ := h
    obtain ⟨r, hr, hparser⟩ := Option.bind_eq_some_iff.mp hcalled
    exact ⟨r, hr, by rw [Rule.body?, hparser, Option.bind_some, hbody]⟩

namespace Owns

theorem inRule (h : g.Owns rule id) : g.InRule id := by
  obtain ⟨body, hb, he⟩ := h
  exact ⟨rule, body, hb, he⟩

theorem of_body (hb : g.IsBody rule id) : g.Owns rule id :=
  ⟨id, hb, .refl⟩

theorem inner (h : g.Owns rule around) (ho : g.Holds around id) : g.Owns rule id := by
  obtain ⟨body, hb, he⟩ := h
  exact ⟨body, hb, he.tail ho⟩

theorem outer (hg : g.Forest) (h : g.Owns rule id) (ho : g.Holds around id) :
    g.Owns rule around := by
  obtain ⟨body, hb, he⟩ := h
  have hne : body ≠ id := fun heq => hg.not_holds_body hb (heq ▸ ho)
  exact ⟨body, hb, hg.encloses_outer he hne ho⟩

theorem owner_eq (hg : g.Forest) (h : g.Owns rule id) : g.owner id = .ok (some rule) := by
  have hid : g.Issued id := hg.isSome_of_inRule h.inRule
  obtain ⟨owner?, howner⟩ := (hg.owner_ends_iff hid).mpr (h.inRule.not_looped hg)
  rw [howner, (hg.owner_eq_some_iff howner).mpr h]

theorem unique (hg : g.Forest) (h : g.Owns rule id) (h' : g.Owns rule' id) : rule = rule' := by
  have heq := (h.owner_eq hg).symm.trans (h'.owner_eq hg)
  exact Option.some.inj (Except.ok.inj heq)

end Owns

theorem Forest.owner_iff (hg : g.Forest) : g.owner id = .ok (some rule) ↔ g.Owns rule id :=
  ⟨fun h => (hg.owner_eq_some_iff h).mp rfl, fun h => h.owner_eq hg⟩

theorem Forest.looped_of_cycle (hg : g.Forest) (h : TransGen g.Holds id id) : g.Looped id := by
  obtain ⟨outer, hin, ho⟩ := TransGen.tail'_iff.mp h
  have hdown : outer.index ≤ id.index := hg.index_le_of_encloses hin
  have hup : id.index ≤ outer.index := hg.index_le ho
  obtain rfl : outer = id := ElementId.ext (by omega)
  exact ⟨outer, ho, .refl⟩

/-- The search for the owner of an element ends with a rule exactly if the body of that rule leads down
to the element. -/
structure OwnersAgree (g : Grammar) : Prop where
  owner_iff : ∀ {rule id}, g.owner id = .ok (some rule) ↔ ∃ called body,
    g.parserRule? rule = some called ∧ called.body = some body ∧ g.Encloses body id
  unique : ∀ {rule rule' id}, g.Owns rule id → g.Owns rule' id → rule = rule'
  /-- An element that contains itself has no owner, and whoever asks for it does not come to an end. -/
  not_owned : ∀ {id}, TransGen g.Holds id id →
    (∀ rule, ¬ g.Owns rule id) ∧ ∀ depth, g.outermostWithin depth id = .error .endless

end Grammar

/-- In a grammar that has been built, the owner found on the way up from an element is the one rule
whose body leads down to it. -/
theorem ownersAgree_of_build {name : String} {commands : List Command} {g : Grammar}
    (h : Grammar.build name commands = .ok g) : g.OwnersAgree := by
  have hg := Grammar.forest_of_build h
  constructor
  · intro rule id
    rw [hg.owner_iff]
    constructor
    · intro howns
      obtain ⟨body, hb, he⟩ := howns
      obtain ⟨called, hcalled, hbody⟩ := Grammar.isBody_iff_exists.mp hb
      exact ⟨called, body, hcalled, hbody, he⟩
    · intro hdown
      obtain ⟨called, body, hcalled, hbody, he⟩ := hdown
      exact ⟨body, Grammar.isBody_iff_exists.mpr ⟨called, hcalled, hbody⟩, he⟩
  · exact fun howns howns' => howns.unique hg howns'
  · intro id hcycle
    have hloop := hg.looped_of_cycle hcycle
    exact ⟨fun rule howns => howns.inRule.not_looped hg hloop, hg.outermostWithin_of_looped hloop⟩

/-- The rules `A: x='a'` and `B: [T:A]`. A keyword in a group of its own belongs to no rule, nor does a
choice that is given itself as a branch, and the keyword in it. -/
def allotted : Grammar where
  name := "G"
  elements := #[⟨.keyword "a", .once, some ⟨1⟩⟩, ⟨.assignment "x" .assign ⟨0⟩, .once, some ⟨3⟩⟩,
    ⟨.keyword "o", .once, some ⟨4⟩⟩, ⟨.group [⟨1⟩], .once, none⟩, ⟨.group [⟨2⟩], .once, none⟩,
    ⟨.keyword "s", .once, some ⟨6⟩⟩, ⟨.alternatives [⟨5⟩, ⟨6⟩], .once, some ⟨6⟩⟩,
    ⟨.ruleCall "A" (some ⟨0⟩) [], .once, some ⟨8⟩⟩, ⟨.crossReference "T" (some ⟨7⟩), .once, none⟩]
  rules := #[.parser { name := "A", body := some ⟨3⟩ }, .parser { name := "B", body := some ⟨8⟩ }]

theorem build_allotted : Grammar.build "G" [.add (.keyword "a"), .add (.assignment "x" .assign ⟨0⟩),
    .add (.keyword "o"), .add (.group [⟨1⟩]), .declare (.parser { name := "A", body := some ⟨3⟩ }),
    .add (.group [⟨2⟩]), .add (.keyword "s"), .add (.alternatives [⟨5⟩, ⟨6⟩]),
    .add (.ruleCall "A" none []), .add (.crossReference "T" (some ⟨7⟩)),
    .declare (.parser { name := "B", body := some ⟨8⟩ })] = .ok allotted := by
  decide +kernel

theorem ownersAgree_allotted : allotted.OwnersAgree ∧ allotted.owner ⟨0⟩ = .ok (some ⟨0⟩) ∧
    (∃ called body, allotted.parserRule? ⟨1⟩ = some called ∧ called.body = some body ∧
      allotted.Encloses body ⟨7⟩) ∧
    allotted.owner ⟨2⟩ = .ok none ∧ (∀ rule, ¬ allotted.Owns rule ⟨6⟩) ∧
    ∀ depth, allotted.outermostWithin depth ⟨6⟩ = .error .endless := by
  have hagree := ownersAgree_of_build build_allotted
  have hinner : allotted.Holds ⟨1⟩ ⟨0⟩ := ⟨_, rfl, by decide⟩
  have houter : allotted.Holds ⟨3⟩ ⟨1⟩ := ⟨_, rfl, by decide⟩
  have hself : allotted.Holds ⟨6⟩ ⟨6⟩ := ⟨_, rfl, by decide⟩
  have howner : allotted.owner ⟨7⟩ = .ok (some ⟨1⟩) := by decide +kernel
  obtain ⟨hnone, hendless⟩ := hagree.not_owned (.single hself)
  exact ⟨hagree, hagree.owner_iff.mpr ⟨_, ⟨3⟩, rfl, rfl, (ReflTransGen.single houter).tail hinner⟩,
    hagree.owner_iff.mp howner, by decide +kernel, hnone, hendless⟩

end GrammarLookahead
