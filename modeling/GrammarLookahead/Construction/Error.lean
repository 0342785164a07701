import GrammarLookahead.Cardinality
import GrammarLookahead.Handle
import GrammarLookahead.Text.Quoted

namespace GrammarLookahead

/-- Why a grammar cannot be built. -/
inductive DraftError
  /-- Two rules have the name. -/
  | duplicateRule (name : String)
  /-- The element was given to a second container. -/
  | alreadyContained (element container : ElementId)
  /-- The element is inside another one and is, or should be, the body of a rule. -/
  | nestedRuleBody (element : ElementId)
  /-- The element is the body of the rule `owner` and was given to a second one. -/
  | sharedRuleBody (element : ElementId) (owner : String)
  /-- No such element has been made. -/
  | unknownElement (element : ElementId)
  /-- The text stands for no cardinality. -/
  | invalidCardinality (text : String)
deriving DecidableEq

namespace DraftError

def message : DraftError → String
  | .duplicateRule name => s!"Duplicate rule: {name}"
  | .alreadyContained element container => s!"Element {element} already belongs to {container}"
  | .nestedRuleBody element =>
    s!"Element {element} cannot be a rule body: it is nested in another element"
  | .sharedRuleBody element owner => s!"Element {element} is already the body of rule {owner}"
  | .unknownElement element => s!"Unknown element: {element}"
  | .invalidCardinality text => s!"Invalid cardinality: {Text.quote text}"

end DraftError

/-- Reads the suffix of a cardinality. -/
def Cardinality.ofText (text : String) : Except DraftError Cardinality :=
  match Cardinality.ofSymbol? text with
  | some c => .ok c
  | none => .error (.invalidCardinality text)

end GrammarLookahead
