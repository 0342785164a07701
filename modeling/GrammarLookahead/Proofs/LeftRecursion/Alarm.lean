import GrammarLookahead.Proofs.LeftRecursion.Exact
import GrammarLookahead.Proofs.Lookahead.Expected
import GrammarLookahead.Proofs.Lookahead.Inbounds

namespace GrammarLookahead

variable {g : Grammar} {o : Context}

/-- A search that ends shows that what it starts from is grounded, unless that leads to an action. -/
theorem gathers_grounded : Gathers g fun start _ _ _ => g.Plain start → g.Grounded start where
  leaf hp _ := .of_leaf hp
  closed hp _ := .of_closed hp
  unwrap {id} _ _ _ _ hu _ h hplain := by
    refine .intro _ fun found hl => ?_
    have hexpects := hu.expects (.within (hplain id .refl) hl)
    exact h found hexpects (hplain.of_reach (.single hl))
  before h _ _ := h
  behind _ h := h

namespace Grammar

/-- From an element that leads to a cycle and to no action the search for openings has no end, in
whatever context it is made, since marks only make it go further. -/
theorem ReachesCycle.endless (hg : g.Forest) {id : ElementId} (h : g.ReachesCycle id)
    (hid : g.Issued id) (hplain : g.Plain id) (ho : o.Faithful g) (depth : Nat) :
    (g.openingsWithin depth id).run o = .error .endless := by
  refine hg.openingsWithin_eq_endless hid (fun l p hfinds => ?_) depth
  have hgrounded : g.Grounded id := hfinds.gathers gathers_grounded hg ho rfl hplain
  exact hgrounded.not_reachesCycle h

end Grammar

/-- On a grammar that has been built and has no actions, every reported rule has a body, and in all
contexts that queries leave the search for the openings of the body runs out of every depth. -/
theorem cyclicRules_endless {name : String} {commands : List Command} {g : Grammar}
    (h : Grammar.build name commands = .ok g) (hfree : g.ActionFree) :
    ∃ found, g.cyclicRules = .ok found ∧ ∀ issue ∈ found, ∃ rule body,
      g.parserRule? issue.rule = some rule ∧ issue.name = rule.name ∧ rule.body = some body ∧
      ∀ o, o.Filled g → ∀ depth, (g.openingsWithin depth body).run o = .error .endless := by
  have hg := Grammar.forest_of_build h
  obtain ⟨memo, -, hrun⟩ := Grammar.detect_run hg
  have hcyclic := Grammar.cyclicRules_of_run hrun
  refine ⟨_, hcyclic, fun issue hi => ?_⟩
  obtain ⟨rule, body, hrule, hname, hbody, hreach⟩ := hg.reachesCycle_of_cyclicRules hcyclic hi
  have hid : (issue.rule, rule) ∈ g.parserRules := Grammar.mem_parserRules.mpr hrule
  have hin : g.InRule body := Grammar.Forest.inRule_body ((Grammar.isBody_iff hid).mpr hbody)
  have hplain := hfree.plain body
  exact ⟨rule, body, hrule, hname, hbody, fun o ho depth =>
    (hreach hplain).endless hg (hg.isSome_of_inRule hin) hplain ho.faithful depth⟩

/-- The rules `A: B 'a'`, `B: 'b'? A | 'c'` and `C: ('d')?`. -/
def spiral : Grammar where
  name := "G"
  elements := #[⟨.ruleCall "B" (some ⟨1⟩) [], .once, some ⟨2⟩⟩, ⟨.keyword "a", .once, some ⟨2⟩⟩,
    ⟨.group [⟨0⟩, ⟨1⟩], .once, none⟩, ⟨.keyword "b", .optional, some ⟨5⟩⟩,
    ⟨.ruleCall "A" (some ⟨0⟩) [], .once, some ⟨5⟩⟩, ⟨.group [⟨3⟩, ⟨4⟩], .once, some ⟨7⟩⟩,
    ⟨.keyword "c", .once, some ⟨7⟩⟩, ⟨.alternatives [⟨5⟩, ⟨6⟩], .once, none⟩,
    ⟨.keyword "d", .once, some ⟨9⟩⟩, ⟨.group [⟨8⟩], .optional, none⟩]
  rules := #[.parser { name := "A", body := some ⟨2⟩ }, .parser { name := "B", body := some ⟨7⟩ },
    .parser { name := "C", body := some ⟨9⟩ }]

theorem build_spiral : Grammar.build "G" [.add (.ruleCall "B" none []), .add (.keyword "a"),
    .add (.group [⟨0⟩, ⟨1⟩]), .declare (.parser { name := "A", body := some ⟨2⟩ }),
    .add (.keyword "b"), .setCardinality ⟨3⟩ .optional, .add (.ruleCall "A" none []),
    .add (.group [⟨3⟩, ⟨4⟩]), .add (.keyword "c"), .add (.alternatives [⟨5⟩, ⟨6⟩]),
    .declare (.parser { name := "B", body := some ⟨7⟩ }), .add (.keyword "d"),
    .add (.group [⟨8⟩]), .setCardinality ⟨9⟩ .optional,
    .declare (.parser { name := "C", body := some ⟨9⟩ })] = .ok spiral := by
  decide +kernel

theorem actionFree_spiral : spiral.ActionFree := by
  decide

/-- `A` and `B` are reported. The search for what `B` starts with has no end, neither in the empty
context nor in the one that the search for the openings of `C` leaves. -/
theorem cyclicRules_endless_spiral : spiral.cyclicRules = .ok [⟨⟨0⟩, "A"⟩, ⟨⟨1⟩, "B"⟩] ∧
    ∃ o, (spiral.openingsWithin 2 ⟨9⟩).run ∅ = .ok ([⟨8⟩], o) ∧ o ≠ ∅ ∧
      ∀ depth, (spiral.openingsWithin depth ⟨7⟩).run ∅ = .error .endless ∧
        (spiral.openingsWithin depth ⟨7⟩).run o = .error .endless := by
  have hcyclic : spiral.cyclicRules = .ok [⟨⟨0⟩, "A"⟩, ⟨⟨1⟩, "B"⟩] := by decide +kernel
  have hrun : (spiral.openingsWithin 2 ⟨9⟩).run ∅ =
      .ok ([⟨8⟩], (∅ : Context).insert ⟨8⟩ .optional) := by decide +kernel
  obtain ⟨found, hfound, hendless⟩ := cyclicRules_endless build_spiral actionFree_spiral
  cases hcyclic.symm.trans hfound
  obtain ⟨rule, body, hrule, -, hbody, hrunless⟩ := hendless ⟨⟨1⟩, "B"⟩ (by simp)
  cases hrule
  cases hbody
  exact ⟨hcyclic, _, hrun, by decide +kernel, fun depth =>
    ⟨hrunless ∅ .empty depth, hrunless _ (.openings .empty hrun) depth⟩⟩

end GrammarLookahead
