import EntityLoom.Archive.Basic
import EntityLoom.Archive.BitSource
import EntityLoom.Archive.Checksum
import EntityLoom.Archive.Deflated
import EntityLoom.Archive.PrefixCode
import EntityLoom.Archive.Reader
import EntityLoom.Archive.Writer
import EntityLoom.Bytes
import EntityLoom.ClassFile.Basic
import EntityLoom.ClassFile.Codec
import EntityLoom.ClassFile.Cursor
import EntityLoom.ClassFile.Descriptor
import EntityLoom.ClassFile.FormatError
import EntityLoom.ClassFile.Json
import EntityLoom.ClassName
import EntityLoom.Code.Assembly
import EntityLoom.Code.EmissionError
import EntityLoom.Code.Instruction
import EntityLoom.Code.Member
import EntityLoom.Code.Opcode
import EntityLoom.Code.Walk
import EntityLoom.CommandLine.Answer
import EntityLoom.CommandLine.Arguments
import EntityLoom.CommandLine.Execution
import EntityLoom.CommandLine.Options
import EntityLoom.Digest.Sha256
import EntityLoom.Files.Glob
import EntityLoom.Files.IgnoreRules
import EntityLoom.Files.Path
import EntityLoom.Files.Replace
import EntityLoom.Files.Scan
import EntityLoom.Files.Store
import EntityLoom.Files.Tree
import EntityLoom.Frame.Analysis
import EntityLoom.Frame.Basic
import EntityLoom.Frame.Execution
import EntityLoom.Frame.Join
import EntityLoom.Frame.StackMap
import EntityLoom.Frame.VerificationType
import EntityLoom.Json.Reader
import EntityLoom.Json.Value
import EntityLoom.Ledger.Basic
import EntityLoom.Ledger.File
import EntityLoom.Ledger.Fingerprint
import EntityLoom.Ledger.Json
import EntityLoom.Ledger.Settings
import EntityLoom.Main
import EntityLoom.Model.Basic
import EntityLoom.Model.Json
import EntityLoom.Model.Mapping
import EntityLoom.Model.ModelError
import EntityLoom.Pool.Basic
import EntityLoom.Pool.Codec
import EntityLoom.Pool.Constant
import EntityLoom.Proofs.Archive.Content
import EntityLoom.Proofs.Archive.RoundTrip
import EntityLoom.Proofs.ClassFile.Consumption
import EntityLoom.Proofs.ClassFile.Delimited
import EntityLoom.Proofs.ClassFile.Descriptor
import EntityLoom.Proofs.ClassFile.Format
import EntityLoom.Proofs.ClassFile.Readers
import EntityLoom.Proofs.ClassFile.RoundTrip
import EntityLoom.Proofs.ClassFile.Spelling
import EntityLoom.Proofs.Code.Agreement
import EntityLoom.Proofs.Code.Assembly
import EntityLoom.Proofs.Code.Emission
import EntityLoom.Proofs.Code.Escapes
import EntityLoom.Proofs.Code.InterfaceCalls
import EntityLoom.Proofs.Code.Joins
import EntityLoom.Proofs.Code.Layout
import EntityLoom.Proofs.Code.LiveObjects
import EntityLoom.Proofs.Code.Member
import EntityLoom.Proofs.Code.Refusal
import EntityLoom.Proofs.Code.Returns
import EntityLoom.Proofs.Code.Tiling
import EntityLoom.Proofs.Code.Typing
import EntityLoom.Proofs.Code.Walk
import EntityLoom.Proofs.Files.Places
import EntityLoom.Proofs.Files.Replacement
import EntityLoom.Proofs.Files.Requests
import EntityLoom.Proofs.Frame.Depth
import EntityLoom.Proofs.Frame.Effects
import EntityLoom.Proofs.Frame.Flow
import EntityLoom.Proofs.Frame.Least
import EntityLoom.Proofs.Frame.Monotone
import EntityLoom.Proofs.Frame.Order
import EntityLoom.Proofs.Frame.Paths
import EntityLoom.Proofs.Frame.Schedule
import EntityLoom.Proofs.Frame.Size
import EntityLoom.Proofs.Frame.StackMap
import EntityLoom.Proofs.Frame.StackMapReader
import EntityLoom.Proofs.Frame.Termination
import EntityLoom.Proofs.Frame.Typing
import EntityLoom.Proofs.Frame.WideLocals
import EntityLoom.Proofs.Ledger.ClassPathDigest
import EntityLoom.Proofs.Machine.Basic
import EntityLoom.Proofs.Machine.Boxing
import EntityLoom.Proofs.Machine.Rules
import EntityLoom.Proofs.Model.Ancestors
import EntityLoom.Proofs.Model.Consistent
import EntityLoom.Proofs.Model.FieldTypes
import EntityLoom.Proofs.Model.Validated
import EntityLoom.Proofs.Outcomes
import EntityLoom.Proofs.Pool.Codec
import EntityLoom.Proofs.Pool.Growth
import EntityLoom.Proofs.Pool.Interned
import EntityLoom.Proofs.Pool.Requests
import EntityLoom.Proofs.Pool.Texts
import EntityLoom.Proofs.Pool.WellFormed
import EntityLoom.Proofs.Release.VersionTexts
import EntityLoom.Proofs.Run.FailedDirectories
import EntityLoom.Proofs.Run.WovenArchives
import EntityLoom.Proofs.Sorted
import EntityLoom.Proofs.Text.ModifiedUtf8
import EntityLoom.Proofs.Text.Trimmed
import EntityLoom.Proofs.Text.Utf8
import EntityLoom.Proofs.Weaving.AccessorCalls
import EntityLoom.Proofs.Weaving.ChangeEvents
import EntityLoom.Proofs.Weaving.Conservative
import EntityLoom.Proofs.Weaving.Declared
import EntityLoom.Proofs.Weaving.Distinct
import EntityLoom.Proofs.Weaving.Exactness
import EntityLoom.Proofs.Weaving.Extension
import EntityLoom.Proofs.Weaving.Header
import EntityLoom.Proofs.Weaving.HolderCoherence
import EntityLoom.Proofs.Weaving.Holders
import EntityLoom.Proofs.Weaving.Idempotence
import EntityLoom.Proofs.Weaving.KeyedAccess
import EntityLoom.Proofs.Weaving.LazyCalls
import EntityLoom.Proofs.Weaving.Lineage
import EntityLoom.Proofs.Weaving.ListenerOwner
import EntityLoom.Proofs.Weaving.Members
import EntityLoom.Proofs.Weaving.Names
import EntityLoom.Proofs.Weaving.Observation
import EntityLoom.Proofs.Weaving.Operations
import EntityLoom.Proofs.Weaving.Outcome
import EntityLoom.Proofs.Weaving.Patches
import EntityLoom.Proofs.Weaving.PostClone
import EntityLoom.Proofs.Weaving.Redirection
import EntityLoom.Proofs.Weaving.References
import EntityLoom.Proofs.Weaving.Reserved
import EntityLoom.Proofs.Weaving.Settings
import EntityLoom.Proofs.Weaving.SharedState
import EntityLoom.Proofs.Weaving.Sites
import EntityLoom.Proofs.Weaving.TypedBodies
import EntityLoom.Release
import EntityLoom.Run.ArchiveInput
import EntityLoom.Run.ClassPath
import EntityLoom.Run.DirectoryInput
import EntityLoom.Run.ModelFile
import EntityLoom.Run.Weaver
import EntityLoom.RunError
import EntityLoom.Sorting
import EntityLoom.Text.Blank
import EntityLoom.Text.CodePage437
import EntityLoom.Text.ModifiedUtf8
import EntityLoom.Text.Utf16
import EntityLoom.Text.Utf8
import EntityLoom.Weaving.Accessors
import EntityLoom.Weaving.Boxing
import EntityLoom.Weaving.ChangeTracking
import EntityLoom.Weaving.Context
import EntityLoom.Weaving.Extension
import EntityLoom.Weaving.FetchGroups
import EntityLoom.Weaving.FieldAccess
import EntityLoom.Weaving.Header
import EntityLoom.Weaving.Internal
import EntityLoom.Weaving.Json
import EntityLoom.Weaving.Names
import EntityLoom.Weaving.Plan
import EntityLoom.Weaving.RestLinks
import EntityLoom.Weaving.StateField
import EntityLoom.Weaving.Weave
import EntityLoom.Weaving.WeaveError
