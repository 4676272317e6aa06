import Worksheet.Main
import Worksheet.Proofs.Sheet.Agreement
import Worksheet.Proofs.Sheet.Consistency
import Worksheet.Proofs.Sheet.Orphans
import Worksheet.Proofs.Sheet.Telling
import Worksheet.Proofs.Formula.Word
import Worksheet.Proofs.Sheet.Rewriting
import Worksheet.Proofs.Sheet.Transport
import Worksheet.Proofs.Sheet.Staleness
import Worksheet.Proofs.Sheet.Preservation
import Worksheet.Proofs.Sheet.History
import Worksheet.Proofs.Sheet.Reversal
import Worksheet.Proofs.Arithmetic.Grammar
import Worksheet.Proofs.Arithmetic.Parser
import Worksheet.Proofs.Formula.Ranges
import Worksheet.Proofs.Formula.Bracketing
import Worksheet.Proofs.Command.Execution
import Worksheet.Proofs.Sheet.Literals
import Worksheet.Proofs.Position.Codec
import Worksheet.Proofs.Sheet.Repetition
import Worksheet.Proofs.Formula.Replacement
import Worksheet.Proofs.Formula.Decomposition
import Worksheet.Proofs.Command.Parser
import Worksheet.Proofs.Sheet.Filter
import Worksheet.Proofs.Position.Rectangle
