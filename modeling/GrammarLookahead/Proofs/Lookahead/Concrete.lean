import GrammarLookahead.Proofs.LeftRecursion.Resume
import GrammarLookahead.Proofs.Lookahead.Adequacy

namespace GrammarLookahead

namespace Grammar

/-- The element is a token, or a call that leads to no parser rule. -/
inductive Concrete (g : Grammar) (id : ElementId) : Prop
  | keyword {e value} : g.element? id = some e → e.kind = .keyword value → Concrete g id
  | crossReference {e typeName terminal} : g.element? id = some e →
      e.kind = .crossReference typeName terminal → Concrete g id
  | characterRange {e left right} : g.element? id = some e →
      e.kind = .characterRange left right → Concrete g id
  | wildcard {e} : g.element? id = some e → e.kind = .wildcard → Concrete g id
  | parameterReference {e parameter} : g.element? id = some e →
      e.kind = .parameterReference parameter → Concrete g id
  | call {e name target arguments} : g.element? id = some e →
      e.kind = .ruleCall name target arguments → g.callee id = .ok none → Concrete g id

variable {g : Grammar} {id : ElementId}

/-- Lookahead takes exactly these elements to be matched by themselves. -/
theorem plays_leaf_iff : g.Plays id .leaf ↔ g.Concrete id := by
  constructor
  · intro h
    obtain ⟨e, he, hr⟩ := h
    cases hk : e.kind with
    | ruleCall name target arguments =>
      refine .call he hk ?_
      rw [callee_eq he hk]
      cases target with
      | none => rfl
      | some target =>
        cases ht : g.parserRule? target with
        | none => simp [ht]
        | some rule => simp [hk, roleOf, ht] at hr
    | keyword => exact .keyword he hk
    | crossReference => exact .crossReference he hk
    | characterRange => exact .characterRange he hk
    | wildcard => exact .wildcard he hk
    | parameterReference => exact .parameterReference he hk
    | _ => simp [hk, roleOf] at hr
  · intro h
    cases h with
    | call he hk hc =>
      rename_i e name target arguments
      refine ⟨e, he, ?_⟩
      rw [callee_eq he hk, Except.ok.injEq, Option.bind_eq_none_iff] at hc
      cases target with
      | none => simp [hk, roleOf]
      | some target =>
        have hnone : g.parserRule? target = none := by simpa using hc target rfl
        simp [hk, roleOf, hnone]
    | keyword he hk | crossReference he hk | characterRange he hk | wildcard he hk
    | parameterReference he hk => exact ⟨_, he, by simp [hk, roleOf]⟩

end Grammar

/-- The two contexts have the same entries on all elements that are not in the list. -/
def Context.SameOutside (l : List ElementId) (o p : Context) : Prop :=
  ∀ id ∉ l, p.get? id = o.get? id

variable {g : Grammar} {i : Inquiry} {o p q : Context} {l l' : List ElementId}

namespace Context.SameOutside

theorem refl (l : List ElementId) (o : Context) : SameOutside l o o :=
  fun _ _ => rfl

theorem append (h : SameOutside l o p) (h' : SameOutside l' p q) : SameOutside (l ++ l') o q := by
  intro id hid
  rw [List.mem_append, not_or] at hid
  exact (h' id hid.2).trans (h id hid.1)

theorem insert (h : SameOutside l o p) {id : ElementId} (hid : id ∈ l) (c : Cardinality) :
    SameOutside l o (p.insert id c) := by
  intro other hother
  have hne : id ≠ other := fun heq => hother (heq ▸ hid)
  rw [get?_insert, if_neg hne]
  exact h other hother

theorem handOn (h : SameOutside l o p) (around : Cardinality) :
    SameOutside l o (p.handOn g around l) := by
  have hfold : ∀ {found : List ElementId} {p : Context}, found ⊆ l → SameOutside l o p →
      SameOutside l o (found.foldl (fun p id => p.insert id (p.seen g id).skippable) p) := by
    intro found
    induction found with
    | nil => exact fun _ h => h
    | cons id found ih =>
      intro p hsub h
      exact ih (List.subset_of_cons_subset hsub) (h.insert (hsub List.mem_cons_self) _)
  unfold Context.handOn
  split_ifs
  · exact hfold (List.Subset.refl l) h
  · exact h

end Context.SameOutside

/-- An inquiry changes the context on nothing but what it finds. -/
theorem Finds.sameOutside (h : Finds g i o l p) : Context.SameOutside l o p := by
  induction h with
  | leaf | closed | sequenceNil | branchesNil | repetitionsNil | bottom => exact .refl _ _
  | unwrap _ _ ih => exact ih.handOn _
  | sequenceStop _ _ ih | repetitionsOnce _ _ _ ih | outermost _ _ ih | settle _ _ _ ih => exact ih
  | sequenceStep _ _ _ ih ih' | branchesCons _ _ ih ih' | repetitionsAgain _ _ _ ih ih'
  | follow _ _ _ _ ih ih' | pop _ _ _ ih ih' | climb _ _ _ _ _ ih ih' => exact ih.append ih'
  | leave _ _ _ _ _ _ ih ih' ih'' => exact (ih.append ih').append ih''

/-- A query that has led from one context to the other with the answer has found concrete elements
only, and has changed no entry of any other element. -/
structure Confined (g : Grammar) (o : Context) (found : List ElementId) (p : Context) : Prop where
  concrete : ∀ id ∈ found, g.Concrete id
  same : ∀ id ∉ found, p.get? id = o.get? id

theorem Finds.confined (h : Finds g i o l p) : Confined g o l p where
  concrete id hid := Grammar.plays_leaf_iff.mp (h.leaves id hid)
  same := h.sameOutside

/-- On a grammar that has been built, all candidates are concrete, and a query changes the context that
it starts in, whatever that is, on its candidates only. The verdicts of a detector list concrete
elements too. -/
theorem searches_confined {name : String} {commands : List Command} {g : Grammar}
    (h : Grammar.build name commands = .ok g) :
    (∀ depth id o found p, (g.openingsWithin depth id).run o = .ok (found, p) →
      Confined g o found p) ∧
    (∀ depth stack o found p, (g.continuationsWithin depth stack).run o = .ok (found, p) →
      Confined g o found p) ∧
    ∀ memo, g.Attained memo → ∀ (rule : RuleId) openings, memo[rule]? = some (.acyclic openings) →
      ∀ id ∈ openings, g.Concrete id := by
  have hg := Grammar.forest_of_build h
  refine ⟨?_, ?_, ?_⟩
  · intro depth id o found p hrun
    exact ((Finds.of_run depth).1 hrun).confined
  · intro depth stack o found p hrun
    exact ((Finds.of_run depth).2 hrun).confined
  · intro memo hm rule openings hv id hid
    exact Grammar.plays_leaf_iff.mp (hm.listing hg rule openings hv id hid)

/-- The rules `A: ({T} B)? 'a' C` and `B: 'b'* ID`. No rule is named `C`, and `ID` is a terminal
rule. -/
def mingled : Grammar where
  name := "G"
  elements := #[⟨.action "T" none, .once, some ⟨2⟩⟩, ⟨.ruleCall "B" (some ⟨1⟩) [], .once, some ⟨2⟩⟩,
    ⟨.group [⟨0⟩, ⟨1⟩], .optional, some ⟨5⟩⟩, ⟨.keyword "a", .once, some ⟨5⟩⟩,
    ⟨.ruleCall "C" none [], .once, some ⟨5⟩⟩, ⟨.group [⟨2⟩, ⟨3⟩, ⟨4⟩], .once, none⟩,
    ⟨.keyword "b", .zeroOrMore, some ⟨8⟩⟩, ⟨.ruleCall "ID" (some ⟨2⟩) [], .once, some ⟨8⟩⟩,
    ⟨.group [⟨6⟩, ⟨7⟩], .once, none⟩]
  rules := #[.parser { name := "A", body := some ⟨5⟩ }, .parser { name := "B", body := some ⟨8⟩ },
    .terminal { name := "ID" }]

theorem build_mingled : Grammar.build "G" [.add (.action "T" none), .add (.ruleCall "B" none []),
    .add (.group [⟨0⟩, ⟨1⟩]), .setCardinality ⟨2⟩ .optional, .add (.keyword "a"),
    .add (.ruleCall "C" none []), .add (.group [⟨2⟩, ⟨3⟩, ⟨4⟩]),
    .declare (.parser { name := "A", body := some ⟨5⟩ }), .add (.keyword "b"),
    .setCardinality ⟨6⟩ .zeroOrMore, .add (.ruleCall "ID" none []), .add (.group [⟨6⟩, ⟨7⟩]),
    .declare (.parser { name := "B", body := some ⟨8⟩ }), .declare (.terminal { name := "ID" })] =
    .ok mingled := by
  decide +kernel

/-- In a context where `'a'` may be skipped, what comes first in `A` are `'b'`, the call of `ID`,
`'a'` and the call of `C`. The query marks the first two and leaves the mark on `'a'` as it is. -/
theorem searches_confined_mingled : ∃ o p q memo,
    (mingled.openingsWithin 9 ⟨5⟩).run o = .ok ([⟨6⟩, ⟨7⟩, ⟨3⟩, ⟨4⟩], p) ∧
      Confined mingled o [⟨6⟩, ⟨7⟩, ⟨3⟩, ⟨4⟩] p ∧ o ≠ p ∧
      (mingled.continuationsWithin 9 [⟨6⟩, ⟨1⟩]).run o = .ok ([⟨6⟩, ⟨7⟩], q) ∧
      Confined mingled o [⟨6⟩, ⟨7⟩] q ∧
      mingled.Attained memo ∧ ∃ openings, memo[(⟨0⟩ : RuleId)]? = some (.acyclic openings) ∧
        openings = [⟨6⟩, ⟨7⟩, ⟨3⟩] ∧ ∀ id ∈ openings, mingled.Concrete id := by
  obtain ⟨hopenings, hcontinuations, hmemo⟩ := searches_confined build_mingled
  let o := (∅ : Context).insert ⟨3⟩ .optional
  let p := (o.insert ⟨6⟩ .zeroOrMore).insert ⟨7⟩ .optional
  let memo : Verdicts :=
    ((∅ : Verdicts).insert ⟨1⟩ (.acyclic [⟨6⟩, ⟨7⟩])).insert ⟨0⟩ (.acyclic [⟨6⟩, ⟨7⟩, ⟨3⟩])
  have hrun : (mingled.openingsWithin 9 ⟨5⟩).run o = .ok ([⟨6⟩, ⟨7⟩, ⟨3⟩, ⟨4⟩], p) := by
    decide +kernel
  have hrun' : (mingled.continuationsWithin 9 [⟨6⟩, ⟨1⟩]).run o = .ok ([⟨6⟩, ⟨7⟩], o) := by
    decide +kernel
  have hdetect : mingled.detect.run ∅ = .ok ([], memo) := by decide +kernel
  have hattained := Grammar.Attained.again .fresh hdetect
  have hlist : memo[(⟨0⟩ : RuleId)]? = some (.acyclic [⟨6⟩, ⟨7⟩, ⟨3⟩]) := by decide +kernel
  exact ⟨o, p, o, memo, hrun, hopenings _ _ _ _ _ hrun, by decide +kernel, hrun',
    hcontinuations _ _ _ _ _ hrun', hattained, _, hlist, rfl, hmemo _ hattained _ _ hlist⟩

end GrammarLookahead
