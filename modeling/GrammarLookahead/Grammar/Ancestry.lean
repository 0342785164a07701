import GrammarLookahead.Grammar.Basic

namespace GrammarLookahead.Grammar

/-- The topmost element above `id`, itself if nothing contains it, in fewer than `steps` steps. -/
def outermostWithin (g : Grammar) : Nat → ElementId → Except Fault ElementId
  | 0, _ => .error .endless
  | steps + 1, id => do
    match ← g.container id with
    | none => return id
    | some container => g.outermostWithin steps container

/-- The topmost element above `id`, itself if nothing contains it. The bound on the climb is the
size of the arena, which is exceeded only below an element that contains itself. -/
def outermost (g : Grammar) (id : ElementId) : Except Fault ElementId :=
  g.outermostWithin (g.elements.size + 1) id

/-- The rule that the element belongs to: its body is the topmost element above the element. -/
def owner (g : Grammar) (id : ElementId) : Except Fault (Option RuleId) :=
  g.bodyOwner? <$> g.outermost id

/-- The nearest group around `id` and its member on the way there, in fewer than `steps` steps. -/
def groupAroundWithin (g : Grammar) :
    Nat → ElementId → Except Fault (ElementId × Option ElementId)
  | 0, _ => .error .endless
  | steps + 1, id => do
    match ← g.container id with
    | none => return (id, none)
    | some container =>
      if (← g.element container).isGroup then return (id, some container)
      else g.groupAroundWithin steps container

/-- The nearest group around `id`, with the member of that group that is `id` or contains it.
Without a group around it, the first component is the topmost element above `id`. -/
def groupAround (g : Grammar) (id : ElementId) : Except Fault (ElementId × Option ElementId) :=
  g.groupAroundWithin (g.elements.size + 1) id

/-- The members of a group that follow `member`; none if it is not a group or has no such member. -/
def membersAfter (g : Grammar) (group member : ElementId) : Except Fault (List ElementId) := do
  match (← g.element group).kind with
  | .group elements => return (elements.dropWhile (· != member)).tail
  | _ => return []

end GrammarLookahead.Grammar
