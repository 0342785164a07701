import GrammarLookahead.Proofs.LeftRecursion.Keeper

namespace GrammarLookahead

/-- What becomes of the exploration of an element that a path leads to. On the path are the elements
whose exploration is in progress, innermost first. -/
abbrev Guard := List ElementId → ElementId → Search (List ElementId) → Search (List ElementId)

namespace Guard

/-- The guard of the detection: gives up at an element that was visited before. -/
def shared : Guard := fun _ id explore => do
  Search.visit id
  explore

/-- Gives up only at an element whose exploration is in progress: the element is visited for as long
as its exploration takes, also if that gives up. -/
def pathScoped : Guard := fun _ id explore => do
  Search.visit id
  let answer ← Search.attempt explore
  modifyThe Exploration fun s => { s with visited := s.visited.erase id }
  Search.ofOption answer

/-- The guard of the detection, but it raises `objection` at an element that was visited before
without being on the path. -/
def audited (objection : Fault) : Guard := fun path id explore => do
  if id ∈ (← getThe Exploration).visited ∧ id ∉ path then throwThe Fault objection
  Search.visit id
  explore

end Guard

namespace Grammar

mutual

/-- The elements that can be matched first when `id` is parsed, with another guard against recursion
and another keeper of verdicts. -/
def exploreOpeningsBy (g : Grammar) (guard : Guard) (keep : Keeper) :
    Nat → List ElementId → ElementId → Search (List ElementId)
  | 0, _, _ => throwThe Fault .endless
  | depth + 1, path, id => guard path id do
    let element ← g.element id
    match element.kind with
    | .group elements =>
      inheriting g element.cardinality
        (scanSequence g (g.exploreOpeningsBy guard keep depth (id :: path)) elements)
    | .alternatives elements =>
      inheriting g element.cardinality
        (Search.branches (g.exploreOpeningsBy guard keep depth (id :: path)) elements)
    | .unorderedGroup _ => return []
    | .assignment _ _ terminal =>
      inheriting g element.cardinality (g.exploreOpeningsBy guard keep depth (id :: path) terminal)
    | .action _ _ =>
      inheriting g element.cardinality
        (Search.forgetting (g.exploreContinuationsBy guard keep depth (id :: path) id))
    | .ruleCall _ _ _ =>
      match ← g.callee id with
      | some (called, rule) =>
        Search.memoizedBy keep called <|
          inheriting g element.cardinality
            (rule.body.elim (pure []) (g.exploreOpeningsBy guard keep depth (id :: path)))
      | none => return [id]
    | _ => return [id]

/-- The elements that can be matched next after `id`, within its rule, with another guard against
recursion and another keeper of verdicts. -/
def exploreContinuationsBy (g : Grammar) (guard : Guard) (keep : Keeper) :
    Nat → List ElementId → ElementId → Search (List ElementId)
  | 0, _, _ => throwThe Fault .endless
  | depth + 1, path, id => do
    let (member, group?) ← g.groupAround id
    let again ← repetitions g (g.exploreOpeningsBy guard keep depth path) id member
    match group? with
    | none => return again
    | some group =>
      let following ← scanSequence g (g.exploreOpeningsBy guard keep depth path)
        (← g.membersAfter group member)
      widen g (again ++ following) (g.exploreContinuationsBy guard keep depth path group)

end

def verdictOnBy (g : Grammar) (guard : Guard) (keep : Keeper) (id : RuleId) (rule : ParserRule) :
    Detection Verdict := do
  match (← get)[id]? with
  | some verdict => return verdict
  | none =>
    let search := rule.body.elim (pure []) (g.exploreOpeningsBy guard keep g.explorationDepth [])
    let (openings, explored) ← search.run.run { memo := ← get }
    let verdict := Verdict.ofOpenings? openings
    set (← keep id verdict explored.memo)
    return verdict

def detectAmongBy (g : Grammar) (guard : Guard) (keep : Keeper) :
    List (RuleId × ParserRule) → Detection (List CyclicRule)
  | [] => return []
  | (id, rule) :: rest => do
    let verdict ← g.verdictOnBy guard keep id rule
    let others ← g.detectAmongBy guard keep rest
    return if verdict.isCyclic then ⟨id, rule.name⟩ :: others else others

def detectBy (g : Grammar) (guard : Guard) : Detection (List CyclicRule) :=
  g.detectAmongBy guard .replacing g.parserRules

def detectKeeping (g : Grammar) (keep : Keeper) : Detection (List CyclicRule) :=
  g.detectAmongBy .shared keep g.parserRules

theorem exploreBy_shared (g : Grammar) (depth : Nat) :
    (∀ path, g.exploreOpeningsBy .shared .replacing depth path = g.exploreOpenings depth) ∧
      ∀ path, g.exploreContinuationsBy .shared .replacing depth path =
        g.exploreContinuations depth := by
  induction depth with
  | zero => exact ⟨fun _ => rfl, fun _ => rfl⟩
  | succ depth ih =>
    obtain ⟨hopenings, hcontinuations⟩ := ih
    constructor
    · intro path
      funext id
      rw [exploreOpeningsBy, hopenings, hcontinuations, Search.memoizedBy_replacing]
      rfl
    · intro path
      funext id
      rw [exploreContinuationsBy, hopenings, hcontinuations]
      rfl

theorem verdictOnBy_shared (g : Grammar) : g.verdictOnBy .shared .replacing = g.verdictOn := by
  funext id rule
  rw [verdictOnBy, (g.exploreBy_shared _).1]
  rfl

theorem detectAmongBy_shared (g : Grammar) (rules : List (RuleId × ParserRule)) :
    g.detectAmongBy .shared .replacing rules = g.detectAmong rules := by
  induction rules with
  | nil => rfl
  | cons entry rules ih =>
    obtain ⟨id, rule⟩ := entry
    simp only [detectAmongBy, detectAmong, verdictOnBy_shared, ih]

theorem detectBy_shared (g : Grammar) : g.detectBy .shared = g.detect :=
  g.detectAmongBy_shared g.parserRules

theorem detectKeeping_replacing (g : Grammar) : g.detectKeeping .replacing = g.detect :=
  g.detectAmongBy_shared g.parserRules

end Grammar

end GrammarLookahead
