import Nomenclator.Digest
import Nomenclator.Log
import Nomenclator.SortedMap
import Nomenclator.Symbol
import Nomenclator.Text.Blank
import Nomenclator.Text.Decimal
import Nomenclator.Text.Lines
import Nomenclator.Text.Utf8
import Nomenclator.Naming.Flat
import Nomenclator.Naming.Nested
import Nomenclator.Naming.Cache
import Nomenclator.Naming.Join
import Nomenclator.Json
import Nomenclator.Access.Document
import Nomenclator.Access.Transfer
import Nomenclator.LineTable
import Nomenclator.Toml.Reader
import Nomenclator.Files.Operation
import Nomenclator.Registry
import Nomenclator.Remap.Job
import Nomenclator.Remap.Source
import Nomenclator.Decompile.Job
import Nomenclator.Proofs.SortedMap
import Nomenclator.Proofs.Naming.RenameTable
import Nomenclator.Proofs.Naming.Join
import Nomenclator.Proofs.Naming.Rows
import Nomenclator.Proofs.Naming.Catalog
import Nomenclator.Proofs.Files.Name
import Nomenclator.Proofs.Files.Operation
import Nomenclator.Proofs.Files.Walk
import Nomenclator.Proofs.Files.Trail
import Nomenclator.Proofs.Remap.Act
import Nomenclator.Proofs.Remap.InputKept
import Nomenclator.Proofs.Remap.AllOrNothing
import Nomenclator.Proofs.Text.Lines
import Nomenclator.Proofs.Naming.Layouts
import Nomenclator.Proofs.Access.Transfer
import Nomenclator.Proofs.Access.Document
import Nomenclator.Proofs.Remap.SourceKept
import Nomenclator.Proofs.Archive.Builder
import Nomenclator.Proofs.LineTable
import Nomenclator.Proofs.LineText
import Nomenclator.Proofs.Decompile.Pool
import Nomenclator.Proofs.Decompile.Progress
import Nomenclator.Proofs.Decompile.Outcome
import Nomenclator.Proofs.Decompile.Classes
import Nomenclator.Proofs.Decompile.Schedule
import Nomenclator.Proofs.Files.Alike
import Nomenclator.Proofs.Files.Plain
import Nomenclator.Proofs.Files.Suffix
import Nomenclator.Proofs.Text.Utf8
import Nomenclator.Proofs.Json
import Nomenclator.Proofs.Remap.Reuse
import Nomenclator.Proofs.Remap.History
import Nomenclator.Proofs.Naming.Projection
import Nomenclator.Proofs.Access.Agreement
import Nomenclator.Proofs.Naming.Merging
import Nomenclator.Proofs.Naming.NestedMembers
import Nomenclator.Proofs.Naming.FlatRows
import Nomenclator.Proofs.Access.Merge
import Nomenclator.Proofs.Access.TransferLaws
import Nomenclator.Proofs.Naming.CacheHistory
import Nomenclator.Proofs.Naming.CacheRace
import Nomenclator.Proofs.Naming.Drafts
import Nomenclator.Proofs.Decompile.Calls
import Nomenclator.Proofs.Decompile.Records
import Nomenclator.Proofs.Decompile.Failure
import Nomenclator.Proofs.Decompile.Leftovers
import Nomenclator.Proofs.Files.Sibling
import Nomenclator.Proofs.Remap.InPlace
import Nomenclator.Proofs.Remap.Truthful
import Nomenclator.Proofs.Remap.Layers
import Nomenclator.Proofs.Files.Forward
import Nomenclator.Proofs.Remap.ClassPath
import Nomenclator.Proofs.Files.Reach
import Nomenclator.Proofs.Remap.Delivery
import Nomenclator.Proofs.Remap.Repeat
import Nomenclator.Proofs.Naming.DescriptorLaws
import Nomenclator.Proofs.Access.Coherence
import Nomenclator.Proofs.Access.Conflict
import Nomenclator.Proofs.Access.DocumentLaws
import Nomenclator.Proofs.Files.Emptying
import Nomenclator.Proofs.Files.Room
import Nomenclator.Proofs.Files.Descent
import Nomenclator.Proofs.Remap.SourceFiles
import Nomenclator.Proofs.Remap.SourceResult
import Nomenclator.Proofs.LineLookup
import Nomenclator.Proofs.Archive.Directories
import Nomenclator.Proofs.Remap.SourceFailure
