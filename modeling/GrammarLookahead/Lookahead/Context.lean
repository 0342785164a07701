import GrammarLookahead.Grammar.Basic

namespace GrammarLookahead

/-- Cardinalities derived so far. An element that stands inside a fragment that may be skipped may
itself be skipped there, whatever is written at it; the grammar, and with it every other query,
stays as it is. -/
structure Context where
  derived : Std.ExtTreeMap ElementId Cardinality := ∅
deriving DecidableEq

namespace Context

instance : EmptyCollection Context := ⟨{}⟩

/-- The cardinality derived for an element. -/
def get? (c : Context) (id : ElementId) : Option Cardinality :=
  c.derived[id]?

/-- The cardinality that counts: the derived one, else the one written at the element. -/
def effective (c : Context) (g : Grammar) (id : ElementId) : Except Fault Cardinality :=
  match c.get? id with
  | some cardinality => .ok cardinality
  | none => g.cardinality id

/-- Records a derived cardinality. -/
def insert (c : Context) (id : ElementId) (cardinality : Cardinality) : Context :=
  ⟨c.derived.insert id cardinality⟩

/-- All derived cardinalities, ordered by element. -/
def entries (c : Context) : List (ElementId × Cardinality) :=
  c.derived.toList

/-- The number of derived cardinalities. -/
def size (c : Context) : Nat :=
  c.derived.size

def isEmpty (c : Context) : Bool :=
  c.derived.isEmpty

@[simp] theorem get?_empty (id : ElementId) : (∅ : Context).get? id = none :=
  Std.ExtTreeMap.getElem?_empty

@[simp] theorem get?_insert_self (c : Context) (id : ElementId) (cardinality : Cardinality) :
    (c.insert id cardinality).get? id = some cardinality :=
  Std.ExtTreeMap.getElem?_insert_self

theorem get?_insert (c : Context) (id other : ElementId) (cardinality : Cardinality) :
    (c.insert id cardinality).get? other =
      if id = other then some cardinality else c.get? other := by
  simp [get?, insert, Std.ExtTreeMap.getElem?_insert]

end Context

/-- A computation that may look at and extend the context. -/
abbrev Query := StateT Context (Except Fault)

namespace Query

/-- Runs a query in a context of its own. -/
def fresh {α : Type} (query : Query α) : Except Fault α :=
  query.run' ∅

def effective (g : Grammar) (id : ElementId) : Query Cardinality := do
  (← get).effective g id

def isOptional (g : Grammar) (id : ElementId) : Query Bool :=
  Cardinality.isOptional <$> effective g id

def isRepeatable (g : Grammar) (id : ElementId) : Query Bool :=
  Cardinality.isRepeatable <$> effective g id

/-- Every element may be skipped. Elements after the first one that may not are not looked at. -/
def allOptional (g : Grammar) : List ElementId → Query Bool
  | [] => return true
  | id :: rest => do
    if ← isOptional g id then allOptional g rest else return false

/-- Makes `child` skippable if the fragment around it is; a child that may be repeated stays so. -/
def inherit (g : Grammar) (around : Cardinality) (child : ElementId) : Query Unit := do
  if around.isOptional then
    let cardinality ← effective g child
    modify (·.insert child cardinality.skippable)

end Query

end GrammarLookahead
