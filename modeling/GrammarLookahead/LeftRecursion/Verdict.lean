import GrammarLookahead.Handle

namespace GrammarLookahead

/-- The outcome of exploring a rule. -/
inductive Verdict
  /-- The rule can reach itself, or another rule that reaches itself, before it consumes a token. -/
  | cyclic
  /-- The elements that can be matched first in the rule. -/
  | acyclic (openings : List ElementId)
deriving DecidableEq

namespace Verdict

/-- An exploration without an answer has met a cycle. -/
def ofOpenings? : Option (List ElementId) → Verdict
  | none => .cyclic
  | some openings => .acyclic openings

def openings? : Verdict → Option (List ElementId)
  | .cyclic => none
  | .acyclic openings => some openings

def isCyclic (v : Verdict) : Bool :=
  v.openings?.isNone

@[simp] theorem openings?_ofOpenings? (openings : Option (List ElementId)) :
    (ofOpenings? openings).openings? = openings := by
  cases openings <;> rfl

@[simp] theorem ofOpenings?_openings? (v : Verdict) : ofOpenings? v.openings? = v := by
  cases v <;> rfl

end Verdict

/-- The verdicts found so far, on the rules of one grammar. -/
abbrev Verdicts := Std.ExtTreeMap RuleId Verdict

namespace Verdicts

variable {memo : Verdicts} {rule other : RuleId}

theorem cases_of_insert {v w : Verdict} (h : (memo.insert rule v)[other]? = some w) :
    other = rule ∧ w = v ∨ memo[other]? = some w := by
  rw [Std.ExtTreeMap.getElem?_insert] at h
  split at h
  · rename_i heq
    exact .inl ⟨(Std.LawfulEqOrd.eq_of_compare heq).symm, (Option.some.inj h).symm⟩
  · exact .inr h

theorem acyclic_of_insert {answer : Option (List ElementId)} {openings : List ElementId}
    (h : (memo.insert rule (.ofOpenings? answer))[other]? = some (.acyclic openings)) :
    other = rule ∧ answer = some openings ∨ memo[other]? = some (.acyclic openings) := by
  refine (cases_of_insert h).imp_left fun ⟨heq, hv⟩ => ⟨heq, ?_⟩
  have hanswer := congrArg Verdict.openings? hv
  rwa [Verdict.openings?_ofOpenings?, eq_comm] at hanswer

end Verdicts

end GrammarLookahead
