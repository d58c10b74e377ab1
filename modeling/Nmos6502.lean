import Nmos6502.Action
import Nmos6502.AddressingMode
import Nmos6502.Arithmetic
import Nmos6502.Assembly.Error
import Nmos6502.Assembly.Group
import Nmos6502.Assembly.Numeral
import Nmos6502.Assembly.Operand
import Nmos6502.Assembly.Program
import Nmos6502.Assembly.Resolution
import Nmos6502.Assembly.Statement
import Nmos6502.Assembly.Symbol
import Nmos6502.Cpu
import Nmos6502.Execution
import Nmos6502.Fault
import Nmos6502.Memory
import Nmos6502.Opcode
import Nmos6502.Operand
import Nmos6502.Operation
import Nmos6502.Proofs.ActionFrame
import Nmos6502.Proofs.Agreement
import Nmos6502.Proofs.Arrangement
import Nmos6502.Proofs.BranchSteps
import Nmos6502.Proofs.BranchTargets
import Nmos6502.Proofs.CleanFailure
import Nmos6502.Proofs.Comparisons
import Nmos6502.Proofs.Concatenation
import Nmos6502.Proofs.ConstantOperands
import Nmos6502.Proofs.Convergence
import Nmos6502.Proofs.CycleBudget
import Nmos6502.Proofs.CycleCount
import Nmos6502.Proofs.Definitions
import Nmos6502.Proofs.Disassembly
import Nmos6502.Proofs.Effects
import Nmos6502.Proofs.ErrorOrder
import Nmos6502.Proofs.FailureCauses
import Nmos6502.Proofs.FilledOperand
import Nmos6502.Proofs.FirstDefinitions
import Nmos6502.Proofs.ImageShape
import Nmos6502.Proofs.InertFlags
import Nmos6502.Proofs.JoinedGroups
import Nmos6502.Proofs.LastWrites
import Nmos6502.Proofs.LineNumbers
import Nmos6502.Proofs.LineWords
import Nmos6502.Proofs.Listing
import Nmos6502.Proofs.LoadedImage
import Nmos6502.Proofs.LongSums
import Nmos6502.Proofs.NumeralBytes
import Nmos6502.Proofs.Numerals
import Nmos6502.Proofs.OperandCells
import Nmos6502.Proofs.OperandGrammar
import Nmos6502.Proofs.OperandNames
import Nmos6502.Proofs.Outcome
import Nmos6502.Proofs.ParsedGroups
import Nmos6502.Proofs.Passes
import Nmos6502.Proofs.PowerUp
import Nmos6502.Proofs.ReachableStates
import Nmos6502.Proofs.RegisterFrame
import Nmos6502.Proofs.Relabelling
import Nmos6502.Proofs.Relocation
import Nmos6502.Proofs.RenamedLines
import Nmos6502.Proofs.Renaming
import Nmos6502.Proofs.Rendition
import Nmos6502.Proofs.Returns
import Nmos6502.Proofs.Rows
import Nmos6502.Proofs.Shifts
import Nmos6502.Proofs.Spelling
import Nmos6502.Proofs.StackPage
import Nmos6502.Proofs.StraightLine
import Nmos6502.Proofs.StrictBranches
import Nmos6502.Proofs.Sums
import Nmos6502.Proofs.TextLayout
import Nmos6502.Proofs.UnreadMemory
import Nmos6502.Proofs.WidthChoice
import Nmos6502.Proofs.WrittenCells
import Nmos6502.Registers
import Nmos6502.Run
import Nmos6502.Stack
import Nmos6502.Status
import Nmos6502.Text.Blank
import Nmos6502.Text.Hex
import Nmos6502.Text.Split
import Nmos6502.Word
