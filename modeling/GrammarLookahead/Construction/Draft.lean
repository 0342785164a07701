import GrammarLookahead.Construction.Error
import GrammarLookahead.Grammar.Basic

namespace GrammarLookahead

/-- A grammar under construction, from the leaves up: an element takes in its children when it is
made, and calls get their targets at the end, so that rules may be declared in any order. Nothing is
refused on the way: every step issues its handle, also after a mistake, and the first mistake is
reported in place of the grammar. -/
structure Draft where
  name : String := ""
  elements : Array Element := #[]
  rules : Array Rule := #[]
  /-- The first mistake made so far. -/
  mistake : Option DraftError := none

namespace Draft

/-- Records a mistake, unless there was one before. -/
def fail (d : Draft) (e : DraftError) : Draft :=
  { d with mistake := d.mistake <|> some e }

theorem mistake_fail (d : Draft) (e : DraftError) :
    (d.fail e).mistake = some (d.mistake.getD e) := by
  cases h : d.mistake <;> simp [fail, h]

/-- The rule that has the element as its body. -/
def bodyOwner? (d : Draft) (body : ElementId) : Option Rule :=
  d.rules.find? (·.body? == some body)

/-- Puts `child` into the container `parent`. A child must not be the body of a rule, must have been
made, and must have no container yet. -/
def enclose (d : Draft) (parent child : ElementId) : Draft :=
  if (d.bodyOwner? child).isSome then d.fail (.nestedRuleBody child)
  else
    match d.elements[child.index]? with
    | none => d.fail (.unknownElement child)
    | some element =>
      match element.container with
      | some existing => d.fail (.alreadyContained child existing)
      | none =>
        { d with elements := d.elements.modify child.index ({ · with container := some parent }) }

/-- Makes an element, which takes in its children from left to right. Its handle is the next free slot,
which no handle has as long as there are fewer than `2 ^ 32` elements. -/
def add (d : Draft) (kind : ElementKind) : ElementId × Draft :=
  let id : ElementId := ⟨d.elements.size⟩
  let made := { d with elements := d.elements.push ⟨kind, .once, none⟩ }
  (id, kind.children.foldl (·.enclose id ·) made)

def setCardinality (d : Draft) (id : ElementId) (c : Cardinality) : Draft :=
  if id.index < d.elements.size then
    { d with elements := d.elements.modify id.index ({ · with cardinality := c }) }
  else d.fail (.unknownElement id)

/-- Checks that a rule may have the element as its body: it must have been made, must not be inside
another element, and must not be the body of another rule. -/
def checkBody (d : Draft) (body : ElementId) : Draft :=
  match d.elements[body.index]? with
  | none => d.fail (.unknownElement body)
  | some element =>
    if element.container.isSome then d.fail (.nestedRuleBody body)
    else
      match d.bodyOwner? body with
      | some owner => d.fail (.sharedRuleBody body owner.name)
      | none => d

def checkName (d : Draft) (name : String) : Draft :=
  if d.rules.any (·.name == name) then d.fail (.duplicateRule name) else d

/-- Declares a rule, with the next free slot as its handle; fewer than `2 ^ 32` rules are assumed. Its
body is checked before its name. -/
def declare (d : Draft) (rule : Rule) : RuleId × Draft :=
  let checked := (rule.body?.elim d d.checkBody).checkName rule.name
  (⟨d.rules.size⟩, { checked with rules := checked.rules.push rule })

end Draft

/-- Gives a call the target that its name has; other kinds stay as they are. -/
def ElementKind.link (lookup : String → Option RuleId) : ElementKind → ElementKind
  | .ruleCall name _ arguments => .ruleCall name (lookup name) arguments
  | kind => kind

/-- The grammar with all calls linked to the rules that they name. -/
def Grammar.link (g : Grammar) : Grammar :=
  { g with elements := g.elements.map fun e => { e with kind := e.kind.link g.ruleNamed? } }

/-- The grammar that has been built, or the first mistake. -/
def Draft.finish (d : Draft) : Except DraftError Grammar :=
  match d.mistake with
  | some e => .error e
  | none => .ok (Grammar.link ⟨d.name, d.elements, d.rules⟩)

theorem Draft.finish_eq_error_iff {d : Draft} {e : DraftError} :
    d.finish = .error e ↔ d.mistake = some e := by
  cases h : d.mistake <;> simp [finish, h]

end GrammarLookahead
