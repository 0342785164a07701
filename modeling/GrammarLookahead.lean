import GrammarLookahead.Construction.Command
import GrammarLookahead.Diagnostic.Check
import GrammarLookahead.Grammar.Label
import GrammarLookahead.Lookahead.Candidates
import GrammarLookahead.Proofs.Effective
import GrammarLookahead.Proofs.Forest
import GrammarLookahead.Proofs.Construction
import GrammarLookahead.Proofs.Naming
import GrammarLookahead.Proofs.LeftRecursion.Run
import GrammarLookahead.Proofs.LeftRecursion.Guard
import GrammarLookahead.Proofs.LeftRecursion.Keeper
import GrammarLookahead.Proofs.LeftRecursion.WriteOnce
import GrammarLookahead.Proofs.LeftRecursion.Trace
import GrammarLookahead.Proofs.LeftRecursion.Total
import GrammarLookahead.Proofs.LeftRecursion.Adherence
import GrammarLookahead.Proofs.LeftRecursion.Survey
import GrammarLookahead.Proofs.LeftRecursion.Precision
import GrammarLookahead.Proofs.LeftRecursion.Leads
import GrammarLookahead.Proofs.LeftRecursion.Complete
import GrammarLookahead.Proofs.LeftRecursion.Order
import GrammarLookahead.Proofs.LeftRecursion.Marks
import GrammarLookahead.Proofs.LeftRecursion.Plain
import GrammarLookahead.Proofs.LeftRecursion.Exact
import GrammarLookahead.Proofs.LeftRecursion.Resume
import GrammarLookahead.Proofs.LeftRecursion.Settlement
import GrammarLookahead.Proofs.LeftRecursion.InStep
import GrammarLookahead.Proofs.LeftRecursion.Agreement
import GrammarLookahead.Proofs.LeftRecursion.Recurrence
import GrammarLookahead.Proofs.LeftRecursion.Reordering
import GrammarLookahead.Proofs.Lookahead.Asks
import GrammarLookahead.Proofs.Lookahead.Adequacy
import GrammarLookahead.Proofs.Lookahead.Inbounds
import GrammarLookahead.Proofs.Lookahead.Concrete
import GrammarLookahead.Proofs.Lookahead.Opens
import GrammarLookahead.Proofs.Lookahead.Termination
import GrammarLookahead.Proofs.Lookahead.Lending
import GrammarLookahead.Proofs.Lookahead.Calm
import GrammarLookahead.Proofs.Arena
import GrammarLookahead.Proofs.Lookahead.Skipping
import GrammarLookahead.Proofs.Lookahead.Depth
import GrammarLookahead.Proofs.Lookahead.Entries
import GrammarLookahead.Proofs.Lookahead.Expected
import GrammarLookahead.Proofs.LeftRecursion.Alarm
import GrammarLookahead.Proofs.Lookahead.Blocking
import GrammarLookahead.Proofs.Lookahead.Alongside
import GrammarLookahead.Proofs.Lookahead.Tail
import GrammarLookahead.Proofs.Ascent
import GrammarLookahead.Proofs.Resolution
import GrammarLookahead.Proofs.Refusal
import GrammarLookahead.Proofs.History
import GrammarLookahead.Proofs.Mistake
import GrammarLookahead.Proofs.Diagnosis
import GrammarLookahead.Proofs.Upward
import GrammarLookahead.Proofs.Lookahead.Callees
import GrammarLookahead.Proofs.Lookahead.Frames
import GrammarLookahead.Proofs.Lookahead.Repetition
import GrammarLookahead.Proofs.Enclosure
import GrammarLookahead.Proofs.Indices
import GrammarLookahead.Proofs.InRange
