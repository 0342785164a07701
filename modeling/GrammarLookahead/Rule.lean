import GrammarLookahead.Handle

namespace GrammarLookahead

/-- A parameter that a parser rule declares. -/
structure Parameter where
  name : String
deriving DecidableEq

/-- A rule that is parsed into an object. -/
structure ParserRule where
  name : String
  /-- The element that the rule is made of; none while it has not been written yet. -/
  body : Option ElementId := none
  returnType : Option String := none
  inferredType : Option String := none
  parameters : List Parameter := []
  /-- The rule is a starting point of the grammar. -/
  entry : Bool := false
  /-- The rule is inlined at its calls and makes no object of its own. -/
  fragment : Bool := false
deriving DecidableEq

/-- The type of the object that the rule makes: declared, else inferred, else named as the rule. -/
def ParserRule.typeName (r : ParserRule) : String :=
  (r.returnType <|> r.inferredType).getD r.name

/-- A rule that matches one token. -/
structure TerminalRule where
  name : String
  /-- The token may stand anywhere and is dropped. -/
  hidden : Bool := false
  returnType : Option String := none
deriving DecidableEq

/-- A rule of a grammar. -/
inductive Rule
  | parser (rule : ParserRule)
  | terminal (rule : TerminalRule)
deriving DecidableEq

namespace Rule

def name : Rule → String
  | .parser rule => rule.name
  | .terminal rule => rule.name

def asParser? : Rule → Option ParserRule
  | .parser rule => some rule
  | .terminal _ => none

/-- The element that the rule owns as its body. -/
def body? (r : Rule) : Option ElementId :=
  r.asParser?.bind ParserRule.body

end Rule

end GrammarLookahead
