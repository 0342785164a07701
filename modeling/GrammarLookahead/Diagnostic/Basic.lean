import GrammarLookahead.Handle

namespace GrammarLookahead

/-- How grave a diagnostic is. -/
inductive Severity
  | error
  | warning
  | info
  | hint
deriving DecidableEq

namespace Severity

/-- The number of the severity in the language server protocol, gravest first. -/
def lspNumber : Severity → Nat
  | .error => 1
  | .warning => 2
  | .info => 3
  | .hint => 4

/-- The letters that codes of this severity start with. -/
def codeLetters : Severity → String
  | .error => "ERR"
  | .warning => "WARN"
  | .info => "INFO"
  | .hint => "HINT"

end Severity

/-- One finding, with properties of type `π`. -/
structure Diagnostic (π : Type) where
  /-- The code of its kind, such as `ERR0001`. -/
  code : String
  severity : Severity
  message : String
  /-- What the message was made from. -/
  properties : π
  /-- The rule that the finding is about. -/
  rule : Option RuleId := none
  /-- The element that the finding is about. -/
  element : Option ElementId := none
deriving DecidableEq

namespace Diagnostic

variable {π ρ : Type}

/-- The same finding with other properties. The message stays. -/
def map (f : π → ρ) (d : Diagnostic π) : Diagnostic ρ :=
  { d with properties := f d.properties }

def withRule (d : Diagnostic π) (rule : RuleId) : Diagnostic π :=
  { d with rule := some rule }

def withElement (d : Diagnostic π) (element : ElementId) : Diagnostic π :=
  { d with element := some element }

/-- The same finding with another severity. The code stays. -/
def withSeverity (d : Diagnostic π) (severity : Severity) : Diagnostic π :=
  { d with severity }

end Diagnostic

/-- A kind of diagnostic, for properties of type `π`. -/
structure DiagnosticKind (π : Type) where
  severity : Severity
  number : Nat
  /-- The message, made from the properties. -/
  message : π → String

namespace DiagnosticKind

variable {π : Type}

/-- The letters of the severity and the number with at least four digits. -/
def code (d : DiagnosticKind π) : String :=
  d.severity.codeLetters ++ String.ofList ((Nat.toDigits 10 d.number).leftpad 4 '0')

/-- The finding with the given properties, about no rule and no element yet. -/
def create (d : DiagnosticKind π) (properties : π) : Diagnostic π :=
  { code := d.code, severity := d.severity, message := d.message properties, properties }

end DiagnosticKind

end GrammarLookahead
