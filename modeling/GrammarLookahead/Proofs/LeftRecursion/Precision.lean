import GrammarLookahead.Proofs.Construction
import GrammarLookahead.Proofs.LeftRecursion.Survey

namespace GrammarLookahead

/-- On a grammar that has been built, detection comes to the same cyclic rules and the same verdicts
if it gives up only where an element is met on the path to itself, and it never gives up elsewhere: it
does the same where an objection is raised there. The memo takes up all that rules have in common, and
within a rule every element has one container, so two ways to an element do not meet. -/
theorem detect_eq_pathScoped {name : String} {commands : List Command} {g : Grammar}
    (h : Grammar.build name commands = .ok g) : ∃ found memo,
      g.detect.run ∅ = .ok (found, memo) ∧
      (g.detectBy .pathScoped).run ∅ = .ok (found, memo) ∧
      ∀ objection, (g.detectBy (.audited objection)).run ∅ = .ok (found, memo) := by
  obtain ⟨memo, -, hrun⟩ := Grammar.detectBy_run (Grammar.forest_of_build h)
  refine ⟨memo.reported g.parserRules, memo, ?_, ?_, fun objection => ?_⟩
  · exact g.detectBy_shared ▸ hrun Guard.shared_adheres rfl
  · exact hrun Guard.pathScoped_adheres rfl
  · exact hrun (Guard.audited_adheres objection) rfl

/-- The rules `B: 'b'`, `A: {T} (B | B) A?`, in which two ways lead to `B`, and `C: B? C`, in which one
leads back. -/
def convergent : Grammar where
  name := "G"
  elements := #[⟨.keyword "b", .once, none⟩, ⟨.ruleCall "B" (some ⟨0⟩) [], .once, some ⟨3⟩⟩,
    ⟨.ruleCall "B" (some ⟨0⟩) [], .once, some ⟨3⟩⟩, ⟨.alternatives [⟨1⟩, ⟨2⟩], .once, some ⟨6⟩⟩,
    ⟨.action "T" none, .once, some ⟨6⟩⟩, ⟨.ruleCall "A" (some ⟨1⟩) [], .optional, some ⟨6⟩⟩,
    ⟨.group [⟨4⟩, ⟨3⟩, ⟨5⟩], .once, none⟩, ⟨.ruleCall "B" (some ⟨0⟩) [], .optional, some ⟨9⟩⟩,
    ⟨.ruleCall "C" (some ⟨2⟩) [], .once, some ⟨9⟩⟩, ⟨.group [⟨7⟩, ⟨8⟩], .once, none⟩]
  rules := #[.parser { name := "B", body := some ⟨0⟩ }, .parser { name := "A", body := some ⟨6⟩ },
    .parser { name := "C", body := some ⟨9⟩ }]

theorem build_convergent : Grammar.build "G" [.add (.keyword "b"),
    .declare (.parser { name := "B", body := some ⟨0⟩ }), .add (.ruleCall "B" none []),
    .add (.ruleCall "B" none []), .add (.alternatives [⟨1⟩, ⟨2⟩]), .add (.action "T" none),
    .add (.ruleCall "A" none []), .setCardinality ⟨5⟩ .optional, .add (.group [⟨4⟩, ⟨3⟩, ⟨5⟩]),
    .declare (.parser { name := "A", body := some ⟨6⟩ }), .add (.ruleCall "B" none []),
    .setCardinality ⟨7⟩ .optional, .add (.ruleCall "C" none []), .add (.group [⟨7⟩, ⟨8⟩]),
    .declare (.parser { name := "C", body := some ⟨9⟩ })] = .ok convergent := by
  decide +kernel

/-- The verdicts on the rules: only `C` is cyclic. -/
def convergentVerdicts : Verdicts :=
  (((∅ : Verdicts).insert ⟨0⟩ (.acyclic [⟨0⟩])).insert ⟨1⟩ (.acyclic [⟨0⟩, ⟨0⟩])).insert ⟨2⟩ .cyclic

theorem detect_eq_pathScoped_convergent :
    convergent.detect.run ∅ = .ok ([⟨⟨2⟩, "C"⟩], convergentVerdicts) ∧
      (convergent.detectBy .pathScoped).run ∅ = .ok ([⟨⟨2⟩, "C"⟩], convergentVerdicts) ∧
      ∀ objection, (convergent.detectBy (.audited objection)).run ∅ =
        .ok ([⟨⟨2⟩, "C"⟩], convergentVerdicts) := by
  have hone : convergent.detect.run ∅ = .ok ([⟨⟨2⟩, "C"⟩], convergentVerdicts) := by decide +kernel
  obtain ⟨found, memo, hrun, hscoped, haudited⟩ := detect_eq_pathScoped build_convergent
  cases hrun.symm.trans hone
  exact ⟨hone, hscoped, haudited⟩

end GrammarLookahead
