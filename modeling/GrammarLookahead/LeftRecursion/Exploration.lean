import GrammarLookahead.LeftRecursion.Verdict
import GrammarLookahead.Lookahead.Scan

namespace GrammarLookahead

/-- The state of an exploration. Visited elements stay visited until the exploration of the rule
ends, with one exception: what an action looks ahead at is forgotten after it, so that it can still
be visited as part of its own group. -/
structure Exploration where
  memo : Verdicts
  context : Context := ∅
  visited : Std.ExtTreeSet ElementId := ∅

/-- A search that may give up; its state survives that. -/
abbrev Search := OptionT (StateT Exploration (Except Fault))

namespace Search

/-- Queries on the context. -/
instance (priority := low) : MonadLift Query Search where
  monadLift query := OptionT.lift fun s => do
    let (answer, context) ← query s.context
    return (answer, { s with context })

/-- The answer, or giving up where there is none. -/
def ofOption {α : Type} (answer : Option α) : Search α :=
  OptionT.mk (pure answer)

/-- Marks an element as visited; gives up if it was. -/
def visit (id : ElementId) : Search Unit := do
  if id ∈ (← getThe Exploration).visited then failure
  modifyThe Exploration fun s => { s with visited := s.visited.insert id }

/-- Runs a search to its end; none if it gave up. -/
def attempt {α : Type} (search : Search α) : Search (Option α) :=
  OptionT.lift search.run

/-- Runs a search whose visits are forgotten afterwards, also if it gave up. -/
def forgetting {α : Type} (search : Search α) : Search α := do
  let visited := (← getThe Exploration).visited
  let answer ← attempt search
  modifyThe Exploration ({ · with visited })
  ofOption answer

/-- Explores all branches, also after one has given up, and then gives up if one has. -/
def branches (explore : ElementId → Search (List ElementId)) :
    List ElementId → Search (List ElementId)
  | [] => return []
  | id :: rest => do
    let answer ← attempt (explore id)
    let answers ← attempt (branches explore rest)
    return (← ofOption answer) ++ (← ofOption answers)

/-- The openings of a called rule: from the memo, else explored and then kept there. -/
def memoized (rule : RuleId) (explore : Search (List ElementId)) : Search (List ElementId) := do
  if rule ∉ (← getThe Exploration).memo then
    let openings ← attempt explore
    modifyThe Exploration fun s => { s with memo := s.memo.insert rule (.ofOpenings? openings) }
  let verdict := (← getThe Exploration).memo[rule]?
  ofOption (verdict.bind Verdict.openings?)

end Search

namespace Grammar

mutual

/-- The elements that can be matched first when `id` is parsed. -/
def exploreOpenings (g : Grammar) : Nat → ElementId → Search (List ElementId)
  | 0, _ => throwThe Fault .endless
  | depth + 1, id => do
    Search.visit id
    let element ← g.element id
    match element.kind with
    | .group elements =>
      inheriting g element.cardinality (scanSequence g (g.exploreOpenings depth) elements)
    | .alternatives elements =>
      inheriting g element.cardinality (Search.branches (g.exploreOpenings depth) elements)
    | .unorderedGroup _ => return []
    | .assignment _ _ terminal =>
      inheriting g element.cardinality (g.exploreOpenings depth terminal)
    | .action _ _ =>
      inheriting g element.cardinality (Search.forgetting (g.exploreContinuations depth id))
    | .ruleCall _ _ _ =>
      match ← g.callee id with
      | some (called, rule) =>
        Search.memoized called <|
          inheriting g element.cardinality (rule.body.elim (pure []) (g.exploreOpenings depth))
      | none => return [id]
    | _ => return [id]

/-- The elements that can be matched next after `id`, within its rule. -/
def exploreContinuations (g : Grammar) : Nat → ElementId → Search (List ElementId)
  | 0, _ => throwThe Fault .endless
  | depth + 1, id => do
    let (member, group?) ← g.groupAround id
    let again ← repetitions g (g.exploreOpenings depth) id member
    match group? with
    | none => return again
    | some group =>
      let following ← scanSequence g (g.exploreOpenings depth) (← g.membersAfter group member)
      widen g (again ++ following) (g.exploreContinuations depth group)

end

/-- The depth that suffices for every exploration: on the way down each element is visited once, and
between two visits the search only climbs. -/
def explorationDepth (g : Grammar) : Nat :=
  (g.elements.size + 2) * (g.elements.size + 2)

end Grammar

end GrammarLookahead
