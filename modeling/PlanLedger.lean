import PlanLedger.Main
import PlanLedger.Proofs.Planning.Atomicity
import PlanLedger.Proofs.Planning.Audit
import PlanLedger.Proofs.Planning.Preview
import PlanLedger.Proofs.Planning.Compiled
import PlanLedger.Proofs.Planning.Integrity
import PlanLedger.Proofs.Planning.Isolation
import PlanLedger.Proofs.Planning.Order
import PlanLedger.Proofs.Planning.Independence
import PlanLedger.Proofs.Planning.Range
import PlanLedger.Proofs.Formula.Expansion
import PlanLedger.Proofs.Formula.CatalogCheck
import PlanLedger.Proofs.Formula.Grammar
import PlanLedger.Proofs.Decimal.Text
import PlanLedger.Proofs.Formula.Completeness
import PlanLedger.Proofs.Formula.Printing
import PlanLedger.Proofs.Formula.Quoting
import PlanLedger.Proofs.Store.History
import PlanLedger.Proofs.Planning.Written
import PlanLedger.Proofs.Planning.Reposting
import PlanLedger.Proofs.Planning.Shares
import PlanLedger.Proofs.Planning.Turns
import PlanLedger.Proofs.Planning.Totals
import PlanLedger.Proofs.Planning.Distribution
import PlanLedger.Proofs.Planning.Copying
import PlanLedger.Proofs.Planning.Converting
import PlanLedger.Proofs.Planning.Resetting
import PlanLedger.Proofs.Planning.Units
import PlanLedger.Proofs.Formula.Literals
import PlanLedger.Proofs.Dimension.Numbering
import PlanLedger.Proofs.Planning.Narrowing
import PlanLedger.Proofs.Planning.Loading
import PlanLedger.Proofs.Planning.ReadingBack
import PlanLedger.Proofs.Store.Deleting
import PlanLedger.Proofs.Planning.Redistribution
import PlanLedger.Proofs.Planning.Rerun
import PlanLedger.Proofs.Store.Parts
import PlanLedger.Proofs.Formula.Branches
import PlanLedger.Proofs.Formula.Offsets
import PlanLedger.Proofs.Formula.Depth
import PlanLedger.Proofs.Formula.Rounding
import PlanLedger.Proofs.Planning.Visits
import PlanLedger.Proofs.Workbook.Loading
import PlanLedger.Proofs.Formula.Cycles
import PlanLedger.Proofs.Formula.NormalForm
