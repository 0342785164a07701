import GrammarLookahead.Grammar.Ancestry
import GrammarLookahead.Lookahead.Context

namespace GrammarLookahead

variable {m : Type → Type} [Monad m]

/-- Explores all branches of a choice and collects what is found. -/
def scanBranches (explore : ElementId → m (List ElementId)) : List ElementId → m (List ElementId)
  | [] => return []
  | id :: rest => do
    let found ← explore id
    return found ++ (← scanBranches explore rest)

variable [MonadLiftT Query m]

/-- Explores a sequence from left to right, up to the first element that may not be skipped. Whether
an element may be skipped is asked after it has been explored. -/
def scanSequence (g : Grammar) (explore : ElementId → m (List ElementId)) :
    List ElementId → m (List ElementId)
  | [] => return []
  | id :: rest => do
    let found ← explore id
    if ← Query.isOptional g id then
      return found ++ (← scanSequence g explore rest)
    else
      return found

/-- Runs `explore` and makes everything that it finds inherit the cardinality of the fragment. -/
def inheriting (g : Grammar) (around : Cardinality) (explore : m (List ElementId)) :
    m (List ElementId) := do
  let found ← explore
  found.forM fun id => (liftM (Query.inherit g around id) : m Unit)
  return found

/-- Explores `id` if it may be repeated. -/
def repetition (g : Grammar) (explore : ElementId → m (List ElementId)) (id : ElementId) :
    m (List ElementId) := do
  if ← Query.isRepeatable g id then explore id else return []

/-- What may come again after `id`: the element itself, and the member of the group around it that
`id` is in. -/
def repetitions (g : Grammar) (explore : ElementId → m (List ElementId)) (id member : ElementId) :
    m (List ElementId) := do
  let own ← repetition g explore id
  if member = id then return own
  else return own ++ (← repetition g explore member)

/-- Explores further if all that was found so far may be skipped. -/
def widen (g : Grammar) (found : List ElementId) (further : m (List ElementId)) :
    m (List ElementId) := do
  if ← Query.allOptional g found then return found ++ (← further) else return found

end GrammarLookahead
