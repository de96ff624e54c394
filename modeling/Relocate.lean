import Relocate.Json.Reader
import Relocate.Main
import Relocate.Proofs.Rewrite.Fixpoint
import Relocate.Proofs.Rewrite.Shape
import Relocate.Proofs.Rewrite.Frame
import Relocate.Proofs.Repair.Restored
import Relocate.Proofs.Repair.Closed
import Relocate.Proofs.Repair.Reported
import Relocate.Proofs.Clause.Line
import Relocate.Proofs.Rewrite.LineByLine
import Relocate.Proofs.Rewrite.Changed
import Relocate.Proofs.Rewrite.Lines
import Relocate.Proofs.Rewrite.Spelling
import Relocate.Proofs.Rewrite.Policy
import Relocate.Proofs.Rewrite.Prediction
import Relocate.Proofs.Disk.Tree
import Relocate.Proofs.Path.Below
import Relocate.Proofs.Path.Order
import Relocate.Proofs.Disk.Walk
import Relocate.Proofs.Project.Discover
import Relocate.Proofs.Project.Process
import Relocate.Proofs.Project.Schedule
import Relocate.Proofs.Project.DryRun
import Relocate.Proofs.Project.Search
import Relocate.Proofs.Json.RoundTrip
import Relocate.Proofs.Report.RoundTrip
import Relocate.Proofs.Bytes.Comment
import Relocate.Proofs.Config.SaveLoad
import Relocate.Proofs.Registry
import Relocate.Proofs.Project.Inside
import Relocate.Proofs.Rewrite.Folder
import Relocate.Proofs.Bytes.Positions
