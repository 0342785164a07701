import GrammarLookahead.Cardinality
import GrammarLookahead.Handle

namespace GrammarLookahead

/-- How an assignment stores what its terminal has matched. -/
inductive AssignmentOperator
  /-- The feature becomes the value, `=`. -/
  | assign
  /-- The value is added to the feature, `+=`. -/
  | append
  /-- The feature becomes true, `?=`. -/
  | flag
deriving DecidableEq, Inhabited

namespace AssignmentOperator

def symbol : AssignmentOperator → String
  | .assign => "="
  | .append => "+="
  | .flag => "?="

/-- The operator that a symbol stands for. -/
def ofSymbol? : String → Option AssignmentOperator
  | "=" => some .assign
  | "+=" => some .append
  | "?=" => some .flag
  | _ => none

end AssignmentOperator

/-- The feature that an action stores the current object in. -/
structure ActionFeature where
  name : String
  operator : AssignmentOperator
deriving DecidableEq

/-- What an element is, with the fields of its kind. -/
inductive ElementKind
  /-- An ordered sequence, `a b c`. -/
  | group (elements : List ElementId)
  /-- A choice, `a | b | c`. -/
  | alternatives (elements : List ElementId)
  /-- A sequence in any order, `a & b & c`. Lookahead does not look into it. -/
  | unorderedGroup (elements : List ElementId)
  /-- A feature that stores what the terminal matches, `feature=terminal`. -/
  | assignment (feature : String) (operator : AssignmentOperator) (terminal : ElementId)
  /-- A change of the current object, `{Type}` or `{Type.feature=current}`. Consumes no input. -/
  | action (typeName : String) (feature : Option ActionFeature)
  /-- A call of a rule by name. There is no target before the grammar is finished, nor after it
  where no rule has the name. -/
  | ruleCall (name : String) (target : Option RuleId) (arguments : List String)
  /-- A fixed text. -/
  | keyword (value : String)
  /-- A reference to an object of a type, `[Type:terminal]`. -/
  | crossReference (typeName : String) (terminal : Option ElementId)
  /-- A character, or a range of characters when it has a right end. -/
  | characterRange (left : String) (right : Option String)
  /-- Any character. -/
  | wildcard
  /-- A parameter of the enclosing rule in a guard. -/
  | parameterReference (parameter : String)
deriving DecidableEq

namespace ElementKind

/-- The elements directly inside, in the order in which they are written. -/
def children : ElementKind → List ElementId
  | .group elements | .alternatives elements | .unorderedGroup elements => elements
  | .assignment _ _ terminal => [terminal]
  | .crossReference _ terminal => terminal.toList
  | _ => []

def isGroup : ElementKind → Bool
  | .group _ => true
  | _ => false

end ElementKind

/-- A node of a rule body. -/
structure Element where
  kind : ElementKind
  /-- The cardinality written at the element. -/
  cardinality : Cardinality
  /-- The element directly around this one; none for a rule body. -/
  container : Option ElementId
deriving DecidableEq

namespace Element

def isGroup (e : Element) : Bool := e.kind.isGroup

def children (e : Element) : List ElementId := e.kind.children

end Element

end GrammarLookahead
