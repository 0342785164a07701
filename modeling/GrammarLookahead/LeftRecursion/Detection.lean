import GrammarLookahead.LeftRecursion.Exploration

namespace GrammarLookahead

/-- A cyclic parser rule. -/
structure CyclicRule where
  rule : RuleId
  name : String
deriving DecidableEq

/-- A computation that extends a memo. -/
abbrev Detection := StateT Verdicts (Except Fault)

namespace Grammar

/-- The verdict on a parser rule: from the memo, else explored and then kept there. -/
def verdictOn (g : Grammar) (id : RuleId) (rule : ParserRule) : Detection Verdict := do
  match (← get)[id]? with
  | some verdict => return verdict
  | none =>
    let search := rule.body.elim (pure []) (g.exploreOpenings g.explorationDepth)
    let (openings, explored) ← search.run.run { memo := ← get }
    let verdict := Verdict.ofOpenings? openings
    set (explored.memo.insert id verdict)
    return verdict

/-- The cyclic ones of a list of parser rules, in the order of the list. -/
def detectAmong (g : Grammar) : List (RuleId × ParserRule) → Detection (List CyclicRule)
  | [] => return []
  | (id, rule) :: rest => do
    let verdict ← g.verdictOn id rule
    let others ← g.detectAmong rest
    return if verdict.isCyclic then ⟨id, rule.name⟩ :: others else others

/-- The cyclic rules in declaration order. Each rule is explored in a context of its own, with one
memo for all of them, which may come from an earlier detection on the grammar. -/
def detect (g : Grammar) : Detection (List CyclicRule) :=
  g.detectAmong g.parserRules

/-- The cyclic rules in declaration order, found without any knowledge from before. -/
def cyclicRules (g : Grammar) : Except Fault (List CyclicRule) :=
  g.detect.run' ∅

end Grammar

end GrammarLookahead
