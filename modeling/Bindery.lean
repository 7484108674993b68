import Bindery.Disk.Tree
import Bindery.Main
import Bindery.Proofs.CType.Frame
import Bindery.Proofs.Interface.Head
import Bindery.Proofs.Binding.Step
import Bindery.Proofs.CType.Bindings
import Bindery.Proofs.Generic.Record
import Bindery.Proofs.Generic.Specialize
import Bindery.Proofs.Binding.Func
import Bindery.Proofs.Binding.Class
import Bindery.Proofs.Binding.Change
import Bindery.Proofs.Binding.Reached
import Bindery.Proofs.Generic.Exact
import Bindery.Proofs.Interface.Forwarding
import Bindery.Proofs.QualType.Lexing
import Bindery.Proofs.QualType.Pieces
import Bindery.Proofs.QualType.Reading
import Bindery.Proofs.QualType.Balanced
import Bindery.Proofs.QualType.Base
import Bindery.Proofs.QualType.Rereading
import Bindery.Proofs.CType.Classified
import Bindery.Proofs.CType.Erased
import Bindery.Proofs.QualType.Classified
import Bindery.Proofs.QualType.Printed
import Bindery.Proofs.QualType.RoundTrip
import Bindery.Proofs.Header
import Bindery.Proofs.Binding.Move
import Bindery.Proofs.Binding.Ledger
import Bindery.Proofs.Binding.Director
import Bindery.Proofs.Generic.Order
import Bindery.Proofs.Generic.Sorted
import Bindery.Proofs.Generic.Annotated
import Bindery.Proofs.Interface.Sections
import Bindery.Proofs.Interface.Dependencies
import Bindery.Proofs.Interface.Pieces
import Bindery.Proofs.Interface.Written
import Bindery.Proofs.Binding.Backing
import Bindery.Proofs.Binding.Exposed
import Bindery.Proofs.Dump.Step
import Bindery.Proofs.Dump.Declaration
import Bindery.Proofs.Dump.Typedefs
import Bindery.Proofs.Dump.Built
import Bindery.Proofs.Source.Definitions
import Bindery.Proofs.Dump.Unit
import Bindery.Proofs.Dump.Located
import Bindery.Proofs.Merge
import Bindery.Proofs.Dump.Bodies
import Bindery.Proofs.Generic.Cycle
import Bindery.Proofs.Generic.History
import Bindery.Proofs.Source.Parameters
import Bindery.Proofs.Dump.Searched
import Bindery.Proofs.Path
import Bindery.Proofs.Dump.Namesake
import Bindery.Proofs.CType.Unbound
import Bindery.Proofs.CType.Returned
import Bindery.Proofs.CType.Desugared
import Bindery.Proofs.Generic.Outcome
import Bindery.Proofs.Generic.Bound
import Bindery.Proofs.Generic.Element
import Bindery.Proofs.Generic.Result
import Bindery.Proofs.Dump.Arity
import Bindery.Proofs.Dump.Site
import Bindery.Proofs.Dump.Placed
import Bindery.Proofs.Dump.Loaded
import Bindery.Proofs.Dump.Texts
import Bindery.Proofs.Generic.Alias
import Bindery.Proofs.CType.Sugar
import Bindery.Proofs.Generic.Named
import Bindery.Proofs.Source.Scanning
import Bindery.Proofs.Source.Written
import Bindery.Proofs.Source.Piece
import Bindery.Proofs.Source.Recovered
import Bindery.Proofs.Dump.Explicit
import Bindery.Proofs.Source.Paired
import Bindery.Proofs.Source.Unnamed
import Bindery.Proofs.Source.Safety
import Bindery.Proofs.Source.Bytes
import Bindery.Proofs.Source.Ordered
import Bindery.Proofs.Source.Search
import Bindery.Proofs.Source.Commented
import Bindery.Proofs.Dump.Counted
import Bindery.Proofs.Dump.Adopted
import Bindery.Proofs.Dump.Members
import Bindery.Proofs.QualType.Asked
import Bindery.Proofs.Dump.Lookup
import Bindery.Proofs.CType.Sugarless
import Bindery.Proofs.Text.Trimmed
import Bindery.Proofs.Generic.Key
import Bindery.Proofs.CType.Qualifiers
import Bindery.Proofs.QualType.Qualified
import Bindery.Proofs.Source.Lexical
import Bindery.Proofs.Source.Tokens
import Bindery.Proofs.Source.Values
import Bindery.Proofs.Source.Constants
import Bindery.Proofs.Dump.Pooled
import Bindery.Proofs.Binding.Scan
import Bindery.Proofs.Binding.Requested
import Bindery.Proofs.Binding.Hooks
import Bindery.Proofs.Config.Layers
import Bindery.Proofs.Generic.Reported
import Bindery.Proofs.QualType.Positions
import Bindery.Proofs.QualType.Offsets
import Bindery.Proofs.QualType.Crossing
import Bindery.Proofs.QualType.Steps
import Bindery.Proofs.QualType.Consumed
import Bindery.Proofs.Source.Lines
import Bindery.Proofs.Binding.Spelling
import Bindery.Proofs.Digest.Request
