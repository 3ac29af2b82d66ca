import ReversePolish.Arithmetic
import ReversePolish.Assembler
import ReversePolish.Display
import ReversePolish.Fault
import ReversePolish.Graph
import ReversePolish.Heap
import ReversePolish.Machine.Evaluator
import ReversePolish.Machine.Frame
import ReversePolish.Machine.State
import ReversePolish.Machine.Step
import ReversePolish.Meter
import ReversePolish.Number.Binary64
import ReversePolish.Number.Decimal
import ReversePolish.Number.Integer
import ReversePolish.Number.Layout
import ReversePolish.Number.Literal
import ReversePolish.Number.Modulus
import ReversePolish.Operation
import ReversePolish.Printer
import ReversePolish.Proofs.ArithmeticLaws
import ReversePolish.Proofs.ArrayStore
import ReversePolish.Proofs.Attribution
import ReversePolish.Proofs.Balance
import ReversePolish.Proofs.Bindings
import ReversePolish.Proofs.Budget
import ReversePolish.Proofs.ConditionalLoop
import ReversePolish.Proofs.CountingLoop
import ReversePolish.Proofs.CurrentGraph
import ReversePolish.Proofs.Disguise
import ReversePolish.Proofs.Equality
import ReversePolish.Proofs.FloatArithmetic
import ReversePolish.Proofs.FloatLaws
import ReversePolish.Proofs.FloatOrder
import ReversePolish.Proofs.FloatValue
import ReversePolish.Proofs.FlooredModulus
import ReversePolish.Proofs.Footprint
import ReversePolish.Proofs.FrameLaws
import ReversePolish.Proofs.GraphLaws
import ReversePolish.Proofs.HeapDiscipline
import ReversePolish.Proofs.IntegerCoercion
import ReversePolish.Proofs.IntegerLaws
import ReversePolish.Proofs.Invariant
import ReversePolish.Proofs.Layout
import ReversePolish.Proofs.Legibility
import ReversePolish.Proofs.Metering
import ReversePolish.Proofs.Nesting
import ReversePolish.Proofs.NumberPrograms
import ReversePolish.Proofs.NumberText
import ReversePolish.Proofs.Postfix
import ReversePolish.Proofs.PrintLog
import ReversePolish.Proofs.Printing
import ReversePolish.Proofs.Provenance
import ReversePolish.Proofs.PureTrees
import ReversePolish.Proofs.Purity
import ReversePolish.Proofs.Relocation
import ReversePolish.Proofs.Rendering
import ReversePolish.Proofs.Requests
import ReversePolish.Proofs.Reuse
import ReversePolish.Proofs.Rounding
import ReversePolish.Proofs.RunLaws
import ReversePolish.Proofs.StackMachine
import ReversePolish.Proofs.Subroutines
import ReversePolish.Proofs.Termination
import ReversePolish.Proofs.Tiling
import ReversePolish.Proofs.WellFormedness
import ReversePolish.Proofs.WordLaws
import ReversePolish.Run
import ReversePolish.Scope
import ReversePolish.Tree
import ReversePolish.Value
import ReversePolish.Vocabulary
