namespace GrammarLookahead.Text

/-- The code points from `first` to `last`, both included. -/
structure CodeRange where
  first : Nat
  last : Nat

def CodeRange.contains (r : CodeRange) (c : Char) : Bool :=
  decide (r.first ≤ c.toNat ∧ c.toNat ≤ r.last)

end GrammarLookahead.Text
