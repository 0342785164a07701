import GrammarLookahead.Grammar.Basic

namespace GrammarLookahead

namespace ElementKind

/-- How an action is written, between braces. -/
def actionLabel (typeName : String) : Option ActionFeature → String
  | some feature => s!"\x7b{typeName}.{feature.name}{feature.operator.symbol}current\x7d"
  | none => s!"\x7b{typeName}\x7d"

/-- How the kind is written; kinds that are made of several elements are named. -/
def label : ElementKind → String
  | .group _ => "Group"
  | .alternatives _ => "Alternatives"
  | .unorderedGroup _ => "UnorderedGroup"
  | .assignment feature operator _ => s!"{feature}{operator.symbol}"
  | .action typeName feature => actionLabel typeName feature
  | .ruleCall name _ _ => name
  | .keyword value => s!"'{value}'"
  | .crossReference typeName _ => s!"[{typeName}]"
  | .characterRange left (some right) => s!"'{left}'..'{right}'"
  | .characterRange left none => s!"'{left}'"
  | .wildcard => "."
  | .parameterReference parameter => parameter

end ElementKind

/-- The label of the kind, with the suffix of the cardinality. -/
def Element.label (e : Element) : String :=
  e.kind.label ++ e.cardinality.symbol

namespace Grammar

def label (g : Grammar) (id : ElementId) : Except Fault String :=
  Element.label <$> g.element id

def labels (g : Grammar) (ids : List ElementId) : Except Fault (List String) :=
  ids.mapM g.label

end Grammar

end GrammarLookahead
