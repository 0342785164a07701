namespace GrammarLookahead

/-- How often an element may occur in a row. -/
inductive Cardinality
  /-- Exactly one occurrence, written without a suffix. -/
  | once
  /-- At most one occurrence, `?`. -/
  | optional
  /-- Any number of occurrences, `*`. -/
  | zeroOrMore
  /-- At least one occurrence, `+`. -/
  | oneOrMore
deriving DecidableEq, Inhabited

namespace Cardinality

/-- The element may be skipped. -/
def isOptional : Cardinality → Bool
  | .optional | .zeroOrMore => true
  | .once | .oneOrMore => false

/-- The element may occur more than once. -/
def isRepeatable : Cardinality → Bool
  | .zeroOrMore | .oneOrMore => true
  | .once | .optional => false

/-- The suffix that stands for the cardinality in a rule body. -/
def symbol : Cardinality → String
  | .once => ""
  | .optional => "?"
  | .zeroOrMore => "*"
  | .oneOrMore => "+"

instance : ToString Cardinality := ⟨symbol⟩

/-- The cardinality that a suffix stands for. -/
def ofSymbol? : String → Option Cardinality
  | "" => some .once
  | "?" => some .optional
  | "*" => some .zeroOrMore
  | "+" => some .oneOrMore
  | _ => none

/-- The optional cardinality that keeps repeatability: what a cardinality becomes inside a fragment
that may be skipped as a whole. -/
def skippable (c : Cardinality) : Cardinality :=
  if c.isRepeatable then .zeroOrMore else .optional

@[simp] theorem ofSymbol?_symbol (c : Cardinality) : ofSymbol? c.symbol = some c := by
  cases c <;> rfl

@[simp] theorem isOptional_skippable (c : Cardinality) : c.skippable.isOptional = true := by
  cases c <;> rfl

@[simp] theorem isRepeatable_skippable (c : Cardinality) :
    c.skippable.isRepeatable = c.isRepeatable := by
  cases c <;> rfl

end Cardinality

end GrammarLookahead
