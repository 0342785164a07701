import GrammarLookahead.Proofs.Construction
import GrammarLookahead.Proofs.LeftRecursion.Survey

namespace GrammarLookahead

namespace Grammar

/-- The memo of a detector that has run some number of times. -/
inductive Attained (g : Grammar) : Verdicts → Prop
  | fresh : Attained g ∅
  | again {memo found memo'} : Attained g memo → g.detect.run memo = .ok (found, memo') →
      Attained g memo'

variable {g : Grammar} {memo : Verdicts}

/-- A detection that starts from a memo of leaves goes by a survey of the rules. -/
theorem Forest.detect_run_of_listing (hg : g.Forest) (hm : memo.Listing g) :
    ∃ memo', Surveys g g.parserRules memo memo' ∧
      g.detect.run memo = .ok (memo'.reported g.parserRules, memo') := by
  obtain ⟨memo', hsurvey⟩ := Surveys.exists_memo hg (List.Subset.refl _) memo
  have hrun :=
    hsurvey.run hg Guard.shared_adheres Keeper.replacing_adheres rfl (List.Subset.refl _) hm
  rw [detectAmongBy_shared] at hrun
  exact ⟨memo', hsurvey, hrun⟩

theorem Attained.listing (hg : g.Forest) (h : g.Attained memo) : memo.Listing g := by
  induction h with
  | fresh => exact Verdicts.listing_empty
  | again _ hrun ih =>
    obtain ⟨memo', hsurvey, hrun'⟩ := hg.detect_run_of_listing ih
    cases hrun.symm.trans hrun'
    exact hsurvey.listing (List.Subset.refl _) ih

end Grammar

/-- On a grammar that has been built, detection has a result whatever detections went before it. -/
theorem detect_ends_of_attained {name : String} {commands : List Command} {g : Grammar}
    (h : Grammar.build name commands = .ok g) {memo : Verdicts} (hm : g.Attained memo) :
    ∃ found memo', g.detect.run memo = .ok (found, memo') := by
  have hg := Grammar.forest_of_build h
  have hlisting := hm.listing hg
  obtain ⟨memo', -, hrun⟩ := hg.detect_run_of_listing hlisting
  exact ⟨_, memo', hrun⟩

/-- Rules `A: B`, `B: {T}* A`, one without a body, one with a repeated choice of an action, and an
element that contains itself. -/
def tangled : List Command :=
  [.add (.ruleCall "B" none []), .declare (.parser { name := "A", body := some ⟨0⟩ }),
    .add (.action "T" none), .setCardinality ⟨1⟩ .zeroOrMore, .add (.ruleCall "A" none []),
    .add (.group [⟨1⟩, ⟨2⟩]), .declare (.parser { name := "B", body := some ⟨3⟩ }),
    .declare (.parser { name := "C" }), .add (.action "T" none), .add (.alternatives [⟨4⟩]),
    .setCardinality ⟨5⟩ .oneOrMore, .add (.group [⟨5⟩]),
    .declare (.parser { name := "D", body := some ⟨6⟩ }), .add (.group [⟨7⟩])]

theorem detect_ends_of_attained_tangled : ∃ g, Grammar.build "G" tangled = .ok g ∧
    ∃ found memo found' memo', g.detect.run ∅ = .ok (found, memo) ∧
      g.detect.run memo = .ok (found', memo') := by
  obtain ⟨g, hg⟩ := exists_of_isOk (x := Grammar.build "G" tangled) (by decide +kernel)
  obtain ⟨found, memo, hrun⟩ := detect_ends_of_attained hg .fresh
  obtain ⟨found', memo', hrun'⟩ := detect_ends_of_attained hg (.again .fresh hrun)
  exact ⟨g, hg, found, memo, found', memo', hrun, hrun'⟩

end GrammarLookahead
