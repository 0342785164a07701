import GrammarLookahead.Lookahead.Scan

namespace GrammarLookahead.Grammar

mutual

/-- The elements that can be matched first when `id` is parsed, in order of discovery and possibly more
than once. The context records which of them may be skipped. -/
def openingsWithin (g : Grammar) : Nat → ElementId → Query (List ElementId)
  | 0, _ => throw .endless
  | depth + 1, id => do
    let element ← g.element id
    match element.kind with
    | .group elements =>
      inheriting g element.cardinality (scanSequence g (g.openingsWithin depth) elements)
    | .alternatives elements =>
      inheriting g element.cardinality (scanBranches (g.openingsWithin depth) elements)
    | .unorderedGroup _ => return []
    | .assignment _ _ terminal =>
      inheriting g element.cardinality (g.openingsWithin depth terminal)
    | .action _ _ =>
      -- An action consumes nothing: what comes first is what comes after it.
      inheriting g element.cardinality (g.continuationsWithin depth [id])
    | .ruleCall _ _ _ =>
      match ← g.callee id with
      | some (_, rule) =>
        inheriting g element.cardinality (rule.body.elim (pure []) (g.openingsWithin depth))
      | none => return [id]
    | _ => return [id]

/-- The elements that can be matched next after the position on top of the stack; below it are the
calls that the position is in, innermost first. The search leaves a group, and after it the rule,
only while all that it has found may be skipped. -/
def continuationsWithin (g : Grammar) : Nat → List ElementId → Query (List ElementId)
  | 0, _ => throw .endless
  | _ + 1, [] => return []
  | depth + 1, id :: calls => do
    let (member, group?) ← g.groupAround id
    let again ← repetitions g (g.openingsWithin depth) id member
    match group? with
    | none => return again ++ (← g.continuationsWithin depth calls)
    | some group =>
      let following ← scanSequence g (g.openingsWithin depth) (← g.membersAfter group member)
      let found ← widen g (again ++ following) (g.continuationsWithin depth [group])
      widen g found (g.continuationsWithin depth calls)

end

/-- The depth that suffices for every search that ends, with a stack of the given height: on the way
down the context only grows, and nothing is searched again in the context in which its search is in
progress. A left recursive rule can make a search go on for ever; then it is `endless`. -/
def lookaheadDepth (g : Grammar) (height : Nat) : Nat :=
  (2 * g.elements.size + height + 2) * (g.elements.size + 1)

/-- The elements that can be matched first when `start` is parsed; a missing element has none. -/
def openings (g : Grammar) : Option ElementId → Query (List ElementId)
  | none => return []
  | some id => g.openingsWithin (g.lookaheadDepth 0) id

/-- The elements that can be matched next after the position that the stack describes. -/
def continuations (g : Grammar) (stack : List ElementId) : Query (List ElementId) :=
  g.continuationsWithin (g.lookaheadDepth stack.length) stack

end GrammarLookahead.Grammar
