import ShiftReduce.Generator
import ShiftReduce.Graph
import ShiftReduce.Automaton.Session
import ShiftReduce.Proofs.Grammar.WellFormed
import ShiftReduce.Proofs.Grammar.First
import ShiftReduce.Proofs.Item.Closure
import ShiftReduce.Proofs.Automaton.Growth
import ShiftReduce.Proofs.Automaton.Canonical
import ShiftReduce.Proofs.Automaton.Population
import ShiftReduce.Proofs.Automaton.ViablePrefix
import ShiftReduce.Proofs.Automaton.Sentential
import ShiftReduce.Proofs.Automaton.FirstAndFollow
import ShiftReduce.Proofs.Refinement.Criterion
import ShiftReduce.Proofs.Table.Generated
import ShiftReduce.Proofs.Parser.Completeness
import ShiftReduce.Proofs.Parser.Soundness
import ShiftReduce.Proofs.Parser.Continuation
import ShiftReduce.Proofs.Parser.Safety
import ShiftReduce.Proofs.Table.Answers
import ShiftReduce.Proofs.Table.Priority
import ShiftReduce.Proofs.Refinement.Inert
import ShiftReduce.Proofs.Table.Slr
import ShiftReduce.Proofs.Automaton.ReduceLookahead
import ShiftReduce.Proofs.Refinement.Frame
import ShiftReduce.Proofs.Grammar.Recursion
import ShiftReduce.Proofs.Grammar.Size
import ShiftReduce.Proofs.Parser.Pumping
import ShiftReduce.Proofs.Parser.Halting
import ShiftReduce.Proofs.Table.Depth
import ShiftReduce.Proofs.Refinement.OnDemand
import ShiftReduce.Proofs.Refinement.Idempotence
import ShiftReduce.Proofs.Table.Reductions
import ShiftReduce.Proofs.Bnf.Reading
import ShiftReduce.Proofs.Bnf.Translation
import ShiftReduce.Proofs.Grammar.Calls
import ShiftReduce.Proofs.Session.Memory
import ShiftReduce.Proofs.Refinement.CommonInput
import ShiftReduce.Proofs.Automaton.Termination
import ShiftReduce.Proofs.Bnf.Comment
