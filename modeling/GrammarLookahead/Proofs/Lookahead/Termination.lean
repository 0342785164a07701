import GrammarLookahead.Proofs.LeftRecursion.Marks
import GrammarLookahead.Proofs.Lookahead.Depth
import GrammarLookahead.Proofs.Lookahead.Opens
import Mathlib.Data.Finset.Powerset
import Mathlib.Data.Finset.Prod

namespace GrammarLookahead

open Relation

variable {g : Grammar}

namespace Grammar

/-- The searches that lookahead from a rule is made of. -/
structure Site (g : Grammar) (s : ElementId × Context) : Prop where
  inRule : g.InRule s.1
  faithful : s.2.Faithful g
  inside : s.2.Inside g

variable {s t : ElementId × Context}

theorem Site.of_opens (hg : g.Forest) (hs : g.Site s) (h : g.Opens s t) : g.Site t where
  inRule := h.inRule hg hs.inRule
  faithful := by
    obtain ⟨i, -, hc⟩ := h
    exact hc.preserves Finds.faithful hs.faithful
  inside := by
    obtain ⟨i, -, hc⟩ := h
    exact hc.preserves Finds.inside hs.inside

theorem Site.of_reach (hg : g.Forest) (hs : g.Site s) (h : ReflTransGen g.Opens s t) :
    g.Site t := by
  induction h with
  | refl => exact hs
  | tail _ h ih => exact ih.of_opens hg h

theorem finite_site (hg : g.Forest) : {s | g.Site s}.Finite := by
  let codes := Finset.range g.elements.size ×ˢ (Finset.range g.elements.size).powerset
  refine Set.Finite.of_injOn (f := fun s => (s.1.index, s.2.marked g)) (t := codes) ?_ ?_
    codes.finite_toSet
  · intro s hs
    have hindex := Issued.index_lt (hg.isSome_of_inRule hs.inRule)
    exact Finset.mem_coe.mpr (Finset.mem_product.mpr ⟨Finset.mem_range.mpr hindex,
      Finset.mem_powerset.mpr (Finset.filter_subset _ _)⟩)
  · intro h hs h' ht heq
    obtain ⟨id, o⟩ := h
    obtain ⟨id', o'⟩ := h'
    obtain ⟨hindex, hmarked⟩ := Prod.mk.inj heq
    have hid : id = id' := ElementId.ext hindex
    have ho : o = o' := hs.faithful.eq_of_marks ht.faithful fun other => by
      rw [← hs.inside.mem_marked, ← ht.inside.mem_marked]
      exact iff_of_eq (congrArg (other.index ∈ ·) hmarked)
    rw [hid, ho]

/-- A search ends exactly if it does not come back to where it was, as there are finitely many
contexts. -/
theorem Site.ends_iff (hg : g.Forest) (hs : g.Site s) :
    g.Ends s ↔ ∀ t, ReflTransGen g.Opens s t → ¬ TransGen g.Opens t t :=
  ⟨fun h _ hr => not_cycle_of_acc h hr,
    acc_of_not_cycle ((finite_site hg).subset fun _ hr => hs.of_reach hg hr)⟩

theorem site_body {rule : RuleId} {body : ElementId} (hb : g.IsBody rule body) :
    g.Site (body, ∅) where
  inRule := Forest.inRule_body hb
  faithful := Context.faithful_empty
  inside := Context.inside_empty

/-- The search takes a step that the grammar does not lead to, and after it comes back to an element
in a context that it was in before. -/
def Strays (g : Grammar) (start : ElementId × Context) : Prop :=
  ∃ s t u, ReflTransGen g.Opens start s ∧ g.Opens s t ∧ ¬ g.Leads s.1 t.1 ∧
    ReflTransGen g.Opens t u ∧ TransGen g.Opens u u

theorem Strays.of_opens {s t : ElementId × Context} (h : g.Strays t) (hs : g.Opens s t) :
    g.Strays s := by
  obtain ⟨t', u, v, hr, ho, hnot, hcycle⟩ := h
  exact ⟨t', u, v, .head hs hr, ho, hnot, hcycle⟩

/-- A search from a grounded element that comes back to where it was strays: the steps of the
grammar alone would never end. -/
theorem Grounded.strays {id : ElementId} (h : g.Grounded id) {o : Context}
    {u : ElementId × Context} (hr : ReflTransGen g.Opens (id, o) u)
    (hcycle : TransGen g.Opens u u) : g.Strays (id, o) := by
  induction h generalizing o with
  | intro id _ ih =>
    obtain ⟨⟨found, p⟩, hs, hr'⟩ := TransGen.head'_iff.mp (TransGen.trans_right hr hcycle)
    by_cases hl : g.Leads id found
    · exact (ih found hl hr').of_opens hs
    · exact ⟨_, _, u, .refl, hs, hl, hr', hcycle⟩

theorem Site.strays_iff (hg : g.Forest) (hs : g.Site s) (hgrounded : g.Grounded s.1) :
    g.Strays s ↔ ¬ g.Ends s := by
  rw [hs.ends_iff hg]
  constructor
  · intro hstrays hnot
    obtain ⟨t, u, v, hst, htu, -, huv, hv⟩ := hstrays
    have hreach : ReflTransGen g.Opens s v := hst.trans (.head htu huv)
    exact hnot v hreach hv
  · intro h
    push Not at h
    obtain ⟨u, hr, hcycle⟩ := h
    exact hgrounded.strays hr hcycle

end Grammar

/-- On a grammar that has been built, the search for the openings of a rule that is not reported
ends exactly if it does not stray. -/
theorem openings_end_iff_of_unreported {name : String} {commands : List Command} {g : Grammar}
    (h : Grammar.build name commands = .ok g) {id : RuleId} {rule : ParserRule}
    (hid : (id, rule) ∈ g.parserRules) {body : ElementId} (hb : rule.body = some body) :
    ∃ found, g.cyclicRules = .ok found ∧ (⟨id, rule.name⟩ ∉ found →
      ((∃ depth answer, (g.openingsWithin depth body).run ∅ = .ok answer) ↔
        ¬ g.Strays (body, ∅))) := by
  have hg := Grammar.forest_of_build h
  obtain ⟨found, hrun, hgrounded⟩ := hg.exists_cyclicRules
  refine ⟨found, hrun, fun hnot => ?_⟩
  have hbody : g.IsBody id body := (Grammar.isBody_iff hid).mpr hb
  have hsite := Grammar.site_body hbody
  rw [Grammar.openingsWithin_ends_iff, hsite.strays_iff hg (hgrounded hid hb hnot), not_not]
  exact (Grammar.ends_iff_answered hg hsite.inRule).symm

/-- The rules `B: 'k'` and `A: ({T} B?) A`, the second of which is left recursive. Detection explores
`B` first and does not make what it has found there optional when it comes to the call `B?`. -/
def overlooked : Grammar where
  name := "G"
  elements := #[⟨.keyword "k", .once, none⟩, ⟨.action "T" none, .once, some ⟨3⟩⟩,
    ⟨.ruleCall "B" (some ⟨0⟩) [], .optional, some ⟨3⟩⟩, ⟨.group [⟨1⟩, ⟨2⟩], .once, some ⟨5⟩⟩,
    ⟨.ruleCall "A" (some ⟨1⟩) [], .once, some ⟨5⟩⟩, ⟨.group [⟨3⟩, ⟨4⟩], .once, none⟩]
  rules := #[.parser { name := "B", body := some ⟨0⟩ }, .parser { name := "A", body := some ⟨5⟩ }]

namespace Overlooked

theorem build : Grammar.build "G" [.add (.keyword "k"),
    .declare (.parser { name := "B", body := some ⟨0⟩ }), .add (.action "T" none),
    .add (.ruleCall "B" none []), .setCardinality ⟨2⟩ .optional, .add (.group [⟨1⟩, ⟨2⟩]),
    .add (.ruleCall "A" none []), .add (.group [⟨3⟩, ⟨4⟩]),
    .declare (.parser { name := "A", body := some ⟨5⟩ })] = .ok overlooked := by
  decide +kernel

theorem mem_parserRules : (⟨⟨1⟩, { name := "A", body := some ⟨5⟩ }⟩ : RuleId × ParserRule) ∈
    overlooked.parserRules := by
  decide

/-- The keyword may be skipped, as it was found behind the call `B?`. -/
def lent : Context :=
  (∅ : Context).insert ⟨0⟩ .optional

/-- From the action, the search climbs out of the inner group and comes to the call of `A`. -/
theorem opens_call {o : Context}
    (h : ((Inquiry.ahead ⟨1⟩).query overlooked 3).run o = .ok ([⟨0⟩], lent)) :
    overlooked.Opens (⟨1⟩, o) (⟨4⟩, lent) := by
  have hahead : Finds overlooked (.ahead ⟨1⟩) o [⟨0⟩] lent :=
    Finds.of_ahead (Finds.of_run 3).1 h
  have hagain : Finds overlooked (.repetitions [⟨3⟩]) lent [] lent :=
    .repetitionsOnce ⟨_, rfl⟩ (by decide +kernel) .repetitionsNil
  have hafter : overlooked.membersAfter ⟨5⟩ ⟨3⟩ = .ok [⟨4⟩] := rfl
  have hcall : Comes overlooked (.ahead ⟨3⟩) lent ⟨4⟩ lent :=
    .follow rfl hafter hagain .sequenceHead
  exact ⟨_, .action ⟨_, rfl, rfl⟩, .climb rfl hahead (by decide +kernel) (.top hcall)⟩

theorem reach_action (o : Context) : ReflTransGen overlooked.Opens (⟨5⟩, o) (⟨1⟩, o) := by
  have houter : overlooked.Opens (⟨5⟩, o) (⟨3⟩, o) :=
    ⟨_, .sequence ⟨_, rfl, rfl⟩, .sequenceHead⟩
  have hinner : overlooked.Opens (⟨3⟩, o) (⟨1⟩, o) :=
    ⟨_, .sequence ⟨_, rfl, rfl⟩, .sequenceHead⟩
  exact .tail (.single houter) hinner

theorem not_end :
    ¬ ∃ depth answer, (overlooked.openingsWithin depth ⟨5⟩).run ∅ = .ok answer := by
  rw [Grammar.openingsWithin_ends_iff]
  intro hends
  obtain ⟨l, p, h⟩ := hends
  have hcall : overlooked.Opens (⟨4⟩, lent) (⟨5⟩, lent) :=
    ⟨_, .call ⟨_, rfl, rfl⟩, .branchesHead⟩
  have hback : overlooked.Opens (⟨1⟩, lent) (⟨4⟩, lent) := opens_call (by decide +kernel)
  have hcycle : TransGen overlooked.Opens (⟨4⟩, lent) (⟨4⟩, lent) :=
    .head hcall (.tail' (reach_action lent) hback)
  have hreach := (reach_action ∅).tail (opens_call (by decide +kernel))
  exact not_cycle_of_acc (h.ends .openings) hreach hcycle

end Overlooked

/-- A grammar without a reported rule, and a rule of it for which the search has no end. -/
theorem overlooked_unreported_endless : ∃ commands, Grammar.build "G" commands = .ok overlooked ∧
    (⟨⟨1⟩, { name := "A", body := some ⟨5⟩ }⟩ : RuleId × ParserRule) ∈ overlooked.parserRules ∧
    overlooked.cyclicRules = .ok [] ∧
    ∀ depth answer, (overlooked.openingsWithin depth ⟨5⟩).run ∅ ≠ .ok answer :=
  ⟨_, Overlooked.build, Overlooked.mem_parserRules, by decide +kernel,
    fun depth answer h => Overlooked.not_end ⟨depth, answer, h⟩⟩

theorem overlooked_strays : overlooked.Strays (⟨5⟩, ∅) := by
  obtain ⟨found, hrun, h⟩ :=
    openings_end_iff_of_unreported Overlooked.build Overlooked.mem_parserRules rfl
  have hnone : overlooked.cyclicRules = .ok [] := by decide +kernel
  obtain rfl := Except.ok.inj (hrun.symm.trans hnone)
  by_contra hnot
  exact Overlooked.not_end ((h List.not_mem_nil).mpr hnot)

/-- The rules `B: 'k' A` and `A: B? B`, which are not left recursive as they are written. The call `B?`
makes the keyword optional, and in the second call of `B` the search goes on past it. -/
def rebound : Grammar where
  name := "G"
  elements := #[⟨.keyword "k", .once, some ⟨2⟩⟩, ⟨.ruleCall "A" (some ⟨1⟩) [], .once, some ⟨2⟩⟩,
    ⟨.group [⟨0⟩, ⟨1⟩], .once, none⟩, ⟨.ruleCall "B" (some ⟨0⟩) [], .optional, some ⟨5⟩⟩,
    ⟨.ruleCall "B" (some ⟨0⟩) [], .once, some ⟨5⟩⟩, ⟨.group [⟨3⟩, ⟨4⟩], .once, none⟩]
  rules := #[.parser { name := "B", body := some ⟨2⟩ }, .parser { name := "A", body := some ⟨5⟩ }]

namespace Rebound

theorem build : Grammar.build "G" [.add (.keyword "k"), .add (.ruleCall "A" none []),
    .add (.group [⟨0⟩, ⟨1⟩]), .declare (.parser { name := "B", body := some ⟨2⟩ }),
    .add (.ruleCall "B" none []), .setCardinality ⟨3⟩ .optional, .add (.ruleCall "B" none []),
    .add (.group [⟨3⟩, ⟨4⟩]), .declare (.parser { name := "A", body := some ⟨5⟩ })] =
      .ok rebound := by
  decide +kernel

open Overlooked (lent)

theorem not_end : ¬ ∃ depth answer, (rebound.openingsWithin depth ⟨5⟩).run ∅ = .ok answer := by
  rw [Grammar.openingsWithin_ends_iff]
  intro hends
  obtain ⟨l, p, h⟩ := hends
  have hfirst : ∀ o, rebound.Opens (⟨5⟩, o) (⟨3⟩, o) := fun o =>
    ⟨_, .sequence ⟨_, rfl, rfl⟩, .sequenceHead⟩
  have hcall : ∀ o, rebound.Opens (⟨3⟩, o) (⟨2⟩, o) := fun o =>
    ⟨_, .call ⟨_, rfl, rfl⟩, .branchesHead⟩
  have hkeyword : Finds rebound (.openings ⟨0⟩) lent [⟨0⟩] lent := .leaf ⟨_, rfl, rfl⟩
  have hpast : rebound.Opens (⟨2⟩, lent) (⟨1⟩, lent) :=
    ⟨_, .sequence ⟨_, rfl, rfl⟩, .sequenceTail hkeyword (by decide +kernel) .sequenceHead⟩
  have hback : rebound.Opens (⟨1⟩, lent) (⟨5⟩, lent) :=
    ⟨_, .call ⟨_, rfl, rfl⟩, .branchesHead⟩
  have hcycle : TransGen rebound.Opens (⟨2⟩, lent) (⟨2⟩, lent) :=
    .head hpast (.head hback (.head (hfirst lent) (.single (hcall lent))))
  have hoptional : Finds rebound (.openings ⟨3⟩) ∅ [⟨0⟩] lent :=
    (Finds.of_run 3).1 (show (rebound.openingsWithin 3 ⟨3⟩).run ∅ = _ by decide +kernel)
  have hsecond : rebound.Opens (⟨5⟩, ∅) (⟨4⟩, lent) :=
    ⟨_, .sequence ⟨_, rfl, rfl⟩, .sequenceTail hoptional (by decide +kernel) .sequenceHead⟩
  have hagain : rebound.Opens (⟨4⟩, lent) (⟨2⟩, lent) :=
    ⟨_, .call ⟨_, rfl, rfl⟩, .branchesHead⟩
  exact not_cycle_of_acc (h.ends .openings) (.head hsecond (.single hagain)) hcycle

end Rebound

theorem rebound_unreported_endless : ∃ commands, Grammar.build "G" commands = .ok rebound ∧
    rebound.ActionFree ∧
    (⟨⟨1⟩, { name := "A", body := some ⟨5⟩ }⟩ : RuleId × ParserRule) ∈ rebound.parserRules ∧
    rebound.cyclicRules = .ok [] ∧
    ∀ depth answer, (rebound.openingsWithin depth ⟨5⟩).run ∅ ≠ .ok answer :=
  ⟨_, Rebound.build, by decide, by decide, by decide +kernel,
    fun depth answer h => Rebound.not_end ⟨depth, answer, h⟩⟩

end GrammarLookahead
