import LineMigration.Text.Basic
import LineMigration.Text.Utf8
import LineMigration.Text.Replace
import LineMigration.Text.Line
import LineMigration.Table.Basic
import LineMigration.Table.Shipped
import LineMigration.Table.Scan
import LineMigration.Json.Basic
import LineMigration.Json.Printer
import LineMigration.Json.Reader
import LineMigration.Fault.Cause
import LineMigration.Fault.Basic
import LineMigration.Stream.Writer
import LineMigration.Stream.Reader
import LineMigration.Stream.Edit
import LineMigration.Path
import LineMigration.FileSystem.Basic
import LineMigration.FileSystem.Resolve
import LineMigration.FileSystem.Operations
import LineMigration.FileSystem.Listing
import LineMigration.FileSystem.View
import LineMigration.Migration
import LineMigration.Output
import LineMigration.Command.Arguments
import LineMigration.Command.Help
import LineMigration.Command.Run
import LineMigration.Program
import LineMigration.Main
import LineMigration.Proofs.Text.Utf8
import LineMigration.Proofs.Text.Line
import LineMigration.Proofs.Text.Replace
import LineMigration.Proofs.Text.Trimming
import LineMigration.Proofs.Table.Apply
import LineMigration.Proofs.Stream.Writer
import LineMigration.Proofs.Stream.Course
import LineMigration.Proofs.Stream.WholeText
import LineMigration.Proofs.Stream.Overflow
import LineMigration.Proofs.Stream.Agreement
import LineMigration.Proofs.FileSystem.WellFormed
import LineMigration.Proofs.FileSystem.Leads
import LineMigration.Proofs.FileSystem.Changes
import LineMigration.Proofs.FileSystem.Carry
import LineMigration.Proofs.Path
import LineMigration.Proofs.ScratchPath
import LineMigration.Proofs.FileSystem.Absolute
import LineMigration.Proofs.FileSystem.Create
import LineMigration.Proofs.FileSystem.Names
import LineMigration.Proofs.FileSystem.Rename
import LineMigration.Proofs.FileSystem.Site
import LineMigration.Proofs.FileSystem.Steps
import LineMigration.Proofs.Migration.Course
import LineMigration.Proofs.Migration.Swap
import LineMigration.Proofs.Migration.Failure
import LineMigration.Proofs.Migration.Success
import LineMigration.Proofs.Migration.Reading
import LineMigration.Proofs.Migration.Device
import LineMigration.Proofs.Migration.FullDevice
import LineMigration.Proofs.Migration.Rehearsal
import LineMigration.Proofs.Stream.Delivery
import LineMigration.Proofs.Stream.FirstStop
import LineMigration.Proofs.Table.Ending
import LineMigration.Proofs.Stream.Replay
import LineMigration.Proofs.Table.Separate
import LineMigration.Proofs.Table.OnePass
import LineMigration.Proofs.FileSystem.Detour
import LineMigration.Proofs.FileSystem.Move
import LineMigration.Proofs.FileSystem.Climb
import LineMigration.Proofs.Migration.Leftover
import LineMigration.Proofs.Migration.History
import LineMigration.Proofs.Migration.Bytes
import LineMigration.Proofs.Command.Arguments
import LineMigration.Proofs.Command.Failure
import LineMigration.Proofs.Program
import LineMigration.Proofs.Json.Parts
import LineMigration.Proofs.Json.Document
import LineMigration.Proofs.Json.Envelope
import LineMigration.Proofs.Command.Modes
import LineMigration.Proofs.Command.Unread
import LineMigration.Proofs.Migration.Confinement
import LineMigration.Proofs.FileSystem.Patch
import LineMigration.Proofs.Migration.Commutation
import LineMigration.Proofs.Stream.Accounting
import LineMigration.Proofs.Text.ValidPrefix
import LineMigration.Proofs.Stream.Validity
import LineMigration.Proofs.Table.Origin
import LineMigration.Proofs.Table.SecondPass
import LineMigration.Proofs.Log
