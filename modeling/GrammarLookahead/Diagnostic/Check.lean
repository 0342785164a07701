import GrammarLookahead.Diagnostic.Basic
import GrammarLookahead.Grammar.Ancestry
import GrammarLookahead.LeftRecursion.Detection

namespace GrammarLookahead

/-- A call of a rule that the grammar does not have. -/
structure UnresolvedCall where
  /-- The name that is called. -/
  name : String
  /-- The name of the rule that the call stands in. -/
  caller : Option String
deriving DecidableEq

/-- What a check of a grammar can find. -/
inductive Issue
  | cyclicRule (issue : CyclicRule)
  | unresolvedCall (issue : UnresolvedCall)
deriving DecidableEq

namespace Issue

/-- A parser rule can reach itself before it consumes a token. -/
def cyclicRuleKind : DiagnosticKind CyclicRule where
  severity := .error
  number := 1
  message issue :=
    s!"Rule {issue.name} is cyclic: it can reach itself before consuming any token"

/-- A call names no rule of the grammar. -/
def unresolvedCallKind : DiagnosticKind UnresolvedCall where
  severity := .warning
  number := 1
  message issue :=
    match issue.caller with
    | some caller => s!"Could not resolve rule {issue.name} called from {caller}"
    | none => s!"Could not resolve rule {issue.name}"

end Issue

/-- Which checks to run, and how to report them. -/
structure CheckOptions where
  cycles : Bool := true
  cyclicRuleSeverity : Severity := .error
  unresolvedCalls : Bool := true

namespace Grammar

/-- The diagnostic on a cyclic rule, anchored at the body of the rule. -/
def cyclicRuleDiagnostic (g : Grammar) (severity : Severity) (issue : CyclicRule) :
    Diagnostic Issue :=
  let diagnostic := Issue.cyclicRuleKind.create issue
    |>.withRule issue.rule
    |>.withSeverity severity
    |>.map .cyclicRule
  ((g.parserRule? issue.rule).bind (·.body)).elim diagnostic diagnostic.withElement

/-- The diagnostic on an element that calls a rule by a name that no rule has; none for others. -/
def unresolvedCallDiagnostic (g : Grammar) (id : ElementId) :
    Except Fault (Option (Diagnostic Issue)) := do
  match (← g.element id).kind with
  | .ruleCall name none _ =>
    let caller ← g.owner id
    let callerName ← caller.mapM fun rule => Rule.name <$> g.rule rule
    let diagnostic := Issue.unresolvedCallKind.create ⟨name, callerName⟩
      |>.withElement id
      |>.map .unresolvedCall
    return some (caller.elim diagnostic diagnostic.withRule)
  | _ => return none

/-- The diagnostics on the unresolved ones among the elements, in their order. -/
def unresolvedCallDiagnostics (g : Grammar) :
    List ElementId → Except Fault (List (Diagnostic Issue))
  | [] => return []
  | id :: rest => do
    let diagnostic ← g.unresolvedCallDiagnostic id
    return diagnostic.toList ++ (← g.unresolvedCallDiagnostics rest)

/-- All diagnostics on the grammar: first the cyclic rules in declaration order, then the unresolved
calls in the order of their elements. -/
def check (g : Grammar) (options : CheckOptions) : Except Fault (List (Diagnostic Issue)) := do
  let cyclic ← if options.cycles then g.cyclicRules else pure []
  let unresolved ←
    if options.unresolvedCalls then g.unresolvedCallDiagnostics g.elementIds else pure []
  return cyclic.map (g.cyclicRuleDiagnostic options.cyclicRuleSeverity) ++ unresolved

end Grammar

end GrammarLookahead
