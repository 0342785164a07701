import Std.Data.ExtTreeMap
import Std.Data.ExtTreeSet

namespace GrammarLookahead

/-- Slot of an element in a grammar's element arena. A handle that is stored in 32 bits is this slot as
long as there are fewer than `2 ^ 32` elements; that is assumed of all grammars here. -/
@[ext]
structure ElementId where
  index : Nat
deriving DecidableEq, Inhabited

namespace ElementId

instance : Ord ElementId := ⟨compareOn index⟩

instance : Std.TransOrd ElementId := inferInstanceAs (Std.TransCmp (compareOn index))

instance : Std.LawfulEqOrd ElementId where
  eq_of_compare h := ElementId.ext (Std.LawfulEqOrd.eq_of_compare (α := Nat) h)

instance : LE ElementId := ⟨fun a b => a.index ≤ b.index⟩

instance (a b : ElementId) : Decidable (a ≤ b) := inferInstanceAs (Decidable (a.index ≤ b.index))

/-- Elements are shown as `e` and the slot. -/
instance : ToString ElementId := ⟨fun id => s!"e{id.index}"⟩

end ElementId

/-- Slot of a rule, parser or terminal, in declaration order. As for elements, fewer than `2 ^ 32` rules
are assumed. -/
@[ext]
structure RuleId where
  index : Nat
deriving DecidableEq, Inhabited

namespace RuleId

instance : Ord RuleId := ⟨compareOn index⟩

instance : Std.TransOrd RuleId := inferInstanceAs (Std.TransCmp (compareOn index))

instance : Std.LawfulEqOrd RuleId where
  eq_of_compare h := RuleId.ext (Std.LawfulEqOrd.eq_of_compare (α := Nat) h)

instance : LE RuleId := ⟨fun a b => a.index ≤ b.index⟩

instance (a b : RuleId) : Decidable (a ≤ b) := inferInstanceAs (Decidable (a.index ≤ b.index))

/-- Rules are shown as `r` and the slot. -/
instance : ToString RuleId := ⟨fun id => s!"r{id.index}"⟩

end RuleId

end GrammarLookahead
