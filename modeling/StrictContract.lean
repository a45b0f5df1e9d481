import StrictContract.Enumeration
import StrictContract.Octets
import StrictContract.RecordType
import StrictContract.Table
import StrictContract.Text.Blank
import StrictContract.Text.Composed
import StrictContract.Text.Cut
import StrictContract.Text.FieldName
import StrictContract.Text.Letter
import StrictContract.Text.MarkOrder
import StrictContract.Text.Numeral
import StrictContract.Text.Printable
import StrictContract.Text.Quoted
import StrictContract.Text.Surrogate
import StrictContract.Digest.Sha256
import StrictContract.Digest.Commitment
import StrictContract.Failure
import StrictContract.Identifier
import StrictContract.Identifier.Reading
import StrictContract.Value
import StrictContract.Value.Feature
import StrictContract.Value.Keys
import StrictContract.Value.Member
import StrictContract.Value.Order
import StrictContract.Value.Payload
import StrictContract.Value.Place
import StrictContract.Value.Record
import StrictContract.Value.Rendering
import StrictContract.Value.Writable
import StrictContract.Codec
import StrictContract.Codec.Builtin
import StrictContract.Codec.Charset
import StrictContract.Codec.Cursor
import StrictContract.Codec.Declaration
import StrictContract.Codec.Read
import StrictContract.Codec.Vocabulary
import StrictContract.Codec.Write
import StrictContract.TypeDef
import StrictContract.TypeSystem
import StrictContract.TypeSystem.Checking
import StrictContract.TypeSystem.Derivation
import StrictContract.TypeSystem.Describing
import StrictContract.Document.Scalar
import StrictContract.Document.Schema
import StrictContract.TypeLibrary
import StrictContract.TypeLibrary.Form
import StrictContract.TypeLibrary.Compilation
import StrictContract.TypeLibrary.Standard
import StrictContract.Duration
import StrictContract.Journal
import StrictContract.Journal.Logger
import StrictContract.Settings
import StrictContract.Contract.Seal
import StrictContract.Contract.Operation
import StrictContract.Contract.Bundle
import StrictContract.Contract.Schema
import StrictContract.Contract.Conformance
import StrictContract.Contract.Consignment
import StrictContract.Contract.Check
import StrictContract.Contract.Catalogue
import StrictContract.Contract.State
import StrictContract.Contract.Stash
import StrictContract.Proofs.Arrangement
import StrictContract.Proofs.Binding
import StrictContract.Proofs.Codec.Answering
import StrictContract.Proofs.Codec.Blame
import StrictContract.Proofs.Codec.Canonical
import StrictContract.Proofs.Codec.Core
import StrictContract.Proofs.Codec.Delimiting
import StrictContract.Proofs.Codec.Disorder
import StrictContract.Proofs.Codec.Encoding
import StrictContract.Proofs.Codec.Failing
import StrictContract.Proofs.Codec.Framing
import StrictContract.Proofs.Codec.Iteration
import StrictContract.Proofs.Codec.Plain
import StrictContract.Proofs.Codec.Readable
import StrictContract.Proofs.Codec.Reordering
import StrictContract.Proofs.Codec.Truncation
import StrictContract.Proofs.Codec.Unambiguous
import StrictContract.Proofs.Codec.Written
import StrictContract.Proofs.Contract.Acceptance
import StrictContract.Proofs.Contract.Accepted
import StrictContract.Proofs.Contract.Answering
import StrictContract.Proofs.Contract.Binding
import StrictContract.Proofs.Contract.Boards
import StrictContract.Proofs.Contract.Bounds
import StrictContract.Proofs.Digest.Numeral
import StrictContract.Proofs.Digest.Separation
import StrictContract.Proofs.Contract.Bundling
import StrictContract.Proofs.Contract.Chronicle
import StrictContract.Proofs.Contract.Concealing
import StrictContract.Proofs.Contract.Counting
import StrictContract.Proofs.Contract.Holding
import StrictContract.Proofs.Contract.Joining
import StrictContract.Proofs.Contract.Keeping
import StrictContract.Proofs.Contract.Locating
import StrictContract.Proofs.Contract.Matching
import StrictContract.Proofs.Contract.Places
import StrictContract.Proofs.Contract.Recomputing
import StrictContract.Proofs.Contract.Recounting
import StrictContract.Proofs.Contract.Redecoding
import StrictContract.Proofs.Contract.Remembering
import StrictContract.Proofs.Contract.Reordering
import StrictContract.Proofs.Contract.Replay
import StrictContract.Proofs.Contract.Reproducing
import StrictContract.Proofs.Contract.Returning
import StrictContract.Proofs.Contract.SoleFaults
import StrictContract.Proofs.Contract.Spending
import StrictContract.Proofs.Contract.Sufficing
import StrictContract.Proofs.Contract.Views
import StrictContract.Proofs.Identifier.Spacing
import StrictContract.Proofs.Journal
import StrictContract.Proofs.Settings
import StrictContract.Proofs.TypeLibrary.Compiling
import StrictContract.Proofs.TypeLibrary.Denoting
import StrictContract.Proofs.TypeLibrary.Document
import StrictContract.Proofs.TypeLibrary.Form
import StrictContract.Proofs.TypeLibrary.Libraries
import StrictContract.Proofs.TypeLibrary.Strictness
import StrictContract.Proofs.TypeLibrary.Transcribing
import StrictContract.Proofs.TypeLibrary.Workbench
import StrictContract.Proofs.TypeLibrary.Script
import StrictContract.Proofs.TypeLibrary.References
import StrictContract.Proofs.TypeLibrary.Course
import StrictContract.Proofs.TypeLibrary.Sequence
import StrictContract.Proofs.TypeLibrary.Unrolling
import StrictContract.Proofs.TypeLibrary.Cycles
import StrictContract.Proofs.TypeLibrary.Retracing
import StrictContract.Proofs.TypeLibrary.Rearranging
import StrictContract.Proofs.TypeLibrary.Indexing
import StrictContract.Proofs.TypeLibrary.Finishing
import StrictContract.Proofs.TypeLibrary.Naming
import StrictContract.Proofs.TypeLibrary.Misnaming
import StrictContract.Proofs.TypeLibrary.Extension
import StrictContract.Proofs.TypeSystem.Binding
import StrictContract.Proofs.TypeSystem.Canonical
import StrictContract.Proofs.TypeSystem.Construction
import StrictContract.Proofs.TypeSystem.Defining
import StrictContract.Proofs.TypeSystem.Describing
import StrictContract.Proofs.TypeSystem.Founded
import StrictContract.Proofs.TypeSystem.Language
import StrictContract.Proofs.TypeSystem.Room
import StrictContract.Proofs.TypeSystem.Strictness
import StrictContract.Proofs.TypeSystem.Session
import StrictContract.Proofs.TypeSystem.Determinacy
import StrictContract.Proofs.TypeSystem.Verbatim
import StrictContract.Proofs.Value.Order
