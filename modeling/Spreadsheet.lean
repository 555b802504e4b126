import Spreadsheet.Main
import Spreadsheet.Proofs.Address.Naming
import Spreadsheet.Proofs.CommandLine.Reordering
import Spreadsheet.Proofs.CommandLine.Requests
import Spreadsheet.Proofs.Formula.Coverage
import Spreadsheet.Proofs.Formula.LongestLiteral
import Spreadsheet.Proofs.Formula.Quotient
import Spreadsheet.Proofs.Formula.Rendering
import Spreadsheet.Proofs.Formula.Viable
import Spreadsheet.Proofs.Grid.Affected
import Spreadsheet.Proofs.Grid.Capacity
import Spreadsheet.Proofs.Grid.Extents
import Spreadsheet.Proofs.Grid.Gate
import Spreadsheet.Proofs.Grid.InPlace
import Spreadsheet.Proofs.Grid.Padding
import Spreadsheet.Proofs.Grid.Pasting
import Spreadsheet.Proofs.Number.Displayed
import Spreadsheet.Proofs.Sheet.CircleWay
import Spreadsheet.Proofs.Sheet.FiniteRuns
import Spreadsheet.Proofs.Sheet.History
import Spreadsheet.Proofs.Sheet.Locality
import Spreadsheet.Proofs.Sheet.Nesting
