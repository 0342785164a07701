import GrammarLookahead.Element
import GrammarLookahead.Rule

namespace GrammarLookahead

/-- Why a query has no answer. -/
inductive Fault
  /-- The grammar has no such element. -/
  | unknownElement (element : ElementId)
  /-- The grammar has no such rule. -/
  | unknownRule (rule : RuleId)
  /-- The query was still running when its bound on the depth of recursion ran out. -/
  | endless
deriving DecidableEq

/-- A grammar. Slot `n` of an arena belongs to the handle with index `n`. The name of a rule and the
owner of a body are read off the rules, so there is no index to keep in step. -/
structure Grammar where
  name : String
  elements : Array Element
  /-- In declaration order. -/
  rules : Array Rule
deriving DecidableEq

namespace Grammar

def element? (g : Grammar) (id : ElementId) : Option Element :=
  g.elements[id.index]?

def element (g : Grammar) (id : ElementId) : Except Fault Element :=
  match g.element? id with
  | some e => .ok e
  | none => .error (.unknownElement id)

theorem element_eq_ok_iff {g : Grammar} {id : ElementId} {e : Element} :
    g.element id = .ok e ↔ g.element? id = some e := by
  cases h : g.element? id <;> simp [element, h]

/-- The cardinality written at the element. -/
def cardinality (g : Grammar) (id : ElementId) : Except Fault Cardinality :=
  Element.cardinality <$> g.element id

def container (g : Grammar) (id : ElementId) : Except Fault (Option ElementId) :=
  Element.container <$> g.element id

def children (g : Grammar) (id : ElementId) : Except Fault (List ElementId) :=
  Element.children <$> g.element id

/-- The handles of all elements, in the order in which they were issued. -/
def elementIds (g : Grammar) : List ElementId :=
  (List.range g.elements.size).map ElementId.mk

theorem mem_elementIds {g : Grammar} {id : ElementId} :
    id ∈ g.elementIds ↔ id.index < g.elements.size := by
  constructor
  · intro h
    obtain ⟨n, hn, rfl⟩ := List.mem_map.mp h
    exact List.mem_range.mp hn
  · intro h
    exact List.mem_map.mpr ⟨id.index, List.mem_range.mpr h, rfl⟩

def rule? (g : Grammar) (id : RuleId) : Option Rule :=
  g.rules[id.index]?

def rule (g : Grammar) (id : RuleId) : Except Fault Rule :=
  match g.rule? id with
  | some r => .ok r
  | none => .error (.unknownRule id)

theorem rule_eq_ok_iff {g : Grammar} {id : RuleId} {r : Rule} :
    g.rule id = .ok r ↔ g.rule? id = some r := by
  cases h : g.rule? id <;> simp [rule, h]

/-- The parser rule of the handle; none for a terminal rule and for an unknown handle. -/
def parserRule? (g : Grammar) (id : RuleId) : Option ParserRule :=
  (g.rule? id).bind Rule.asParser?

/-- All rules with their handles, in declaration order. -/
def ruleEntries (g : Grammar) : List (RuleId × Rule) :=
  g.rules.toList.zipIdx.map fun (rule, index) => (⟨index⟩, rule)

/-- The parser rules with their handles, in declaration order. -/
def parserRules (g : Grammar) : List (RuleId × ParserRule) :=
  g.ruleEntries.filterMap fun (id, rule) => (id, ·) <$> rule.asParser?

/-- The rule with the name. Finished grammars have no two. -/
def ruleNamed? (g : Grammar) (name : String) : Option RuleId :=
  (g.rules.findIdx? (·.name == name)).map RuleId.mk

/-- The rule that has the element as its body. Finished grammars have no two. -/
def bodyOwner? (g : Grammar) (body : ElementId) : Option RuleId :=
  (g.rules.findIdx? (·.body? == some body)).map RuleId.mk

/-- The parser rule that a call leads to, with its handle. There is none for an element of another
kind, for a call whose name no rule has, and for a call of a terminal rule. -/
def callee (g : Grammar) (id : ElementId) : Except Fault (Option (RuleId × ParserRule)) := do
  match (← g.element id).kind with
  | .ruleCall _ (some target) _ => return (target, ·) <$> g.parserRule? target
  | _ => return none

end Grammar

end GrammarLookahead
