import TapeLowering.Code.Meaning
import TapeLowering.Code.Text
import TapeLowering.Command.Emitter
import TapeLowering.Command.Meaning
import TapeLowering.Machine.InPlace
import TapeLowering.Machine.Run
import TapeLowering.Proofs.Arithmetic
import TapeLowering.Proofs.Arrivals
import TapeLowering.Proofs.Balance
import TapeLowering.Proofs.BodyRuns
import TapeLowering.Proofs.Boundary
import TapeLowering.Proofs.Brackets
import TapeLowering.Proofs.Calls
import TapeLowering.Proofs.Comments
import TapeLowering.Proofs.Comparison
import TapeLowering.Proofs.Compiler
import TapeLowering.Proofs.Completion
import TapeLowering.Proofs.Copies
import TapeLowering.Proofs.Crossing
import TapeLowering.Proofs.Cursor
import TapeLowering.Proofs.Detachment
import TapeLowering.Proofs.Division
import TapeLowering.Proofs.DivisionByZero
import TapeLowering.Proofs.DivisionRounds
import TapeLowering.Proofs.Embedding
import TapeLowering.Proofs.Emission
import TapeLowering.Proofs.EmittedOutline
import TapeLowering.Proofs.Ensures
import TapeLowering.Proofs.FailingSteps
import TapeLowering.Proofs.Frames
import TapeLowering.Proofs.FreshSlots
import TapeLowering.Proofs.Grouping
import TapeLowering.Proofs.InfiniteTape
import TapeLowering.Proofs.InlineRoutines
import TapeLowering.Proofs.Joining
import TapeLowering.Proofs.Jumps
import TapeLowering.Proofs.KnownZero
import TapeLowering.Proofs.Layout
import TapeLowering.Proofs.Logic
import TapeLowering.Proofs.MoveRuns
import TapeLowering.Proofs.NormalForm
import TapeLowering.Proofs.Outline
import TapeLowering.Proofs.Passage
import TapeLowering.Proofs.Realization
import TapeLowering.Proofs.Refinement
import TapeLowering.Proofs.RoutineEffects
import TapeLowering.Proofs.Sequencing
import TapeLowering.Proofs.ShortestMoves
import TapeLowering.Proofs.StackDiscipline
import TapeLowering.Proofs.StepLimit
import TapeLowering.Proofs.SumOfMultiples
import TapeLowering.Proofs.Survey
import TapeLowering.Proofs.SymbolCount
import TapeLowering.Proofs.TextMeaning
import TapeLowering.Proofs.TidyRoutines
import TapeLowering.Proofs.Truncation
import TapeLowering.Proofs.UnitSteps
import TapeLowering.Proofs.UnreadInputs
import TapeLowering.Proofs.WholeRun
import TapeLowering.Script.Resolve
