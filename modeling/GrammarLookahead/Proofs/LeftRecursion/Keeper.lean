import GrammarLookahead.LeftRecursion.Detection
import GrammarLookahead.Proofs.LeftRecursion.Run

namespace GrammarLookahead

/-- What becomes of the memo where a verdict on a rule is written: when a called rule has been
explored, and when a rule has been explored by itself. -/
abbrev Keeper := RuleId → Verdict → Verdicts → Except Fault Verdicts

namespace Keeper

/-- The keeper of the detection: the verdict replaces the one that the rule has, if it has one. -/
def replacing : Keeper := fun rule verdict memo => .ok (memo.insert rule verdict)

/-- The keeper of the detection, but it raises `objection` where the rule has a different verdict. -/
def settled (objection : Fault) : Keeper := fun rule verdict memo =>
  if memo[rule]?.all (· = verdict) then .ok (memo.insert rule verdict) else .error objection

/-- A keeper writes a verdict on a rule that has none, or that has the same one already. -/
def Adheres (keep : Keeper) : Prop :=
  ∀ {rule : RuleId} {verdict : Verdict} {memo : Verdicts},
    (∀ v, memo[rule]? = some v → v = verdict) → keep rule verdict memo = .ok (memo.insert rule verdict)

theorem replacing_adheres : replacing.Adheres :=
  fun _ => rfl

theorem settled_adheres (objection : Fault) : (settled objection).Adheres := by
  intro rule verdict memo h
  rw [settled, if_pos]
  cases hv : memo[rule]? with
  | none => rfl
  | some v => simp [h v hv]

example (objection : Fault) : settled objection ⟨0⟩ .cyclic ((∅ : Verdicts).insert ⟨0⟩ (.acyclic [])) =
    .error objection := by
  rfl

end Keeper

namespace Search

variable {keep : Keeper} {rule : RuleId} {explore : Search (List ElementId)} {s t : Exploration}

def write (keep : Keeper) (rule : RuleId) (verdict : Verdict) : Search Unit := do
  let memo ← keep rule verdict (← getThe Exploration).memo
  modifyThe Exploration ({ · with memo })

/-- The openings of a called rule, with a keeper: from the memo, else explored and then written. -/
def memoizedBy (keep : Keeper) (rule : RuleId) (explore : Search (List ElementId)) :
    Search (List ElementId) := do
  if rule ∉ (← getThe Exploration).memo then
    let openings ← attempt explore
    write keep rule (.ofOpenings? openings)
  let verdict := (← getThe Exploration).memo[rule]?
  ofOption (verdict.bind Verdict.openings?)

theorem memoizedBy_replacing : memoizedBy .replacing = memoized := by
  have hwrite : ∀ rule verdict, write .replacing rule verdict =
      modifyThe Exploration fun s => { s with memo := s.memo.insert rule verdict } := by
    intro rule verdict
    apply OptionT.ext
    apply StateT.ext
    intro s
    rfl
  funext rule explore
  unfold memoizedBy memoized
  simp only [hwrite]

theorem run_write {verdict : Verdict} {memo : Verdicts} (h : keep rule verdict s.memo = .ok memo) :
    (write keep rule verdict).run.run s = .ok (some (), { s with memo }) := by
  rw [write, run_bind_some run_getThe, run_bind_some (run_lift h)]
  exact run_modifyThe

theorem run_memoizedBy_of_mem {v : Verdict} (h : s.memo[rule]? = some v) :
    (memoizedBy keep rule explore).run.run s = .ok (v.openings?, s) := by
  have hm : rule ∈ s.memo := Std.ExtTreeMap.isSome_getElem?_iff_mem.mp (by rw [h]; rfl)
  rw [memoizedBy, run_bind_some run_getThe, if_neg (not_not.mpr hm)]
  change (ofOption (s.memo[rule]?.bind Verdict.openings?)).run.run s = _
  rw [h]
  rfl

/-- The verdict is written after the exploration, which may have written one on the same rule. -/
theorem run_memoizedBy_of_not_mem (hkeep : keep.Adheres) {a : Option (List ElementId)}
    (hm : rule ∉ s.memo) (h : explore.run.run s = .ok (a, t))
    (hw : ∀ v, t.memo[rule]? = some v → v = .ofOpenings? a) :
    (memoizedBy keep rule explore).run.run s = .ok (a, t.memoize rule a) := by
  rw [memoizedBy, run_bind_some run_getThe, if_pos hm, run_bind_some (run_attempt h),
    run_bind_some (run_write (hkeep hw))]
  change (ofOption ((t.memoize rule a).memo[rule]?.bind Verdict.openings?)).run.run _ = _
  simp only [Exploration.memoize, Std.ExtTreeMap.getElem?_insert_self, Option.bind_some,
    Verdict.openings?_ofOpenings?]
  rfl

end Search

end GrammarLookahead
