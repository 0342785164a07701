import GrammarLookahead.Construction.Draft

namespace GrammarLookahead

/-- A step of building a grammar. -/
inductive Command
  /-- Makes an element. -/
  | add (kind : ElementKind)
  /-- Writes a cardinality at an element. -/
  | setCardinality (element : ElementId) (cardinality : Cardinality)
  /-- Declares a rule. -/
  | declare (rule : Rule)
deriving DecidableEq

/-- What a command answers: the handle that it is about. -/
inductive Handle
  | element (id : ElementId)
  | rule (id : RuleId)
deriving DecidableEq

instance : ToString Handle where
  toString
    | .element id => toString id
    | .rule id => toString id

namespace Draft

def perform (d : Draft) : Command → Handle × Draft
  | .add kind =>
    let (id, d) := d.add kind
    (.element id, d)
  | .setCardinality id c => (.element id, d.setCardinality id c)
  | .declare rule =>
    let (id, d) := d.declare rule
    (.rule id, d)

def performAll (d : Draft) (commands : List Command) : Draft :=
  commands.foldl (fun d command => (d.perform command).2) d

theorem performAll_append (d : Draft) (first second : List Command) :
    d.performAll (first ++ second) = (d.performAll first).performAll second :=
  List.foldl_append

end Draft

/-- The grammar that the commands build from nothing, or their first mistake. -/
def Grammar.build (name : String) (commands : List Command) : Except DraftError Grammar :=
  (Draft.performAll { name } commands).finish

end GrammarLookahead
