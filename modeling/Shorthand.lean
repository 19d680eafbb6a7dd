import Shorthand.Main
import Shorthand.Proofs.Expansion
import Shorthand.Proofs.Pipeline.Emission
import Shorthand.Proofs.Api.Parts
import Shorthand.Proofs.Api.Tree
import Shorthand.Proofs.Frame
import Shorthand.Proofs.Native
import Shorthand.Proofs.Pipeline.Shorthand
import Shorthand.Proofs.Fragment
import Shorthand.Proofs.Api.WellFormed
import Shorthand.Proofs.Generated
import Shorthand.Proofs.PlainForm
import Shorthand.Proofs.Idempotence
import Shorthand.Proofs.Equality
import Shorthand.Proofs.Fragment.Splice
import Shorthand.Proofs.Fragment.Bindings
import Shorthand.Proofs.Json
import Shorthand.Proofs.Literal
import Shorthand.Proofs.Placeholder.Exact
import Shorthand.Proofs.Fragment.Text
import Shorthand.Proofs.Fragment.Literal
import Shorthand.Proofs.Fragment.Live
import Shorthand.Proofs.Fragment.Rewriting
import Shorthand.Proofs.Fragment.Scan
import Shorthand.Proofs.Suffix
import Shorthand.Proofs.Fragment.Meaning
import Shorthand.Proofs.Matrix.Product
import Shorthand.Proofs.Matrix.Selection
import Shorthand.Proofs.Digest
import Shorthand.Proofs.Pipeline.Occurrence
import Shorthand.Proofs.Pipeline.Namespaces
import Shorthand.Proofs.Pipeline.Renaming
import Shorthand.Proofs.Api.Lookup
import Shorthand.Proofs.Matrix.Lookup
import Shorthand.Proofs.Replacement
import Shorthand.Proofs.Matrix.Session
import Shorthand.Proofs.Matrix.Substitution
import Shorthand.Proofs.Api.Compiling
import Shorthand.Proofs.Api.Reordering
import Shorthand.Proofs.Api.Plain
import Shorthand.Proofs.Api.Method
import Shorthand.Proofs.Api.Redeployment
import Shorthand.Proofs.RoundTrip
import Shorthand.Proofs.Pipeline.Reading
import Shorthand.Proofs.Pipeline.WireForm
import Shorthand.Proofs.Pipeline.Rebuilding
import Shorthand.Proofs.Pipeline.Built
import Shorthand.Proofs.Pipeline.Reexpansion
import Shorthand.Proofs.Pipeline.RunOrder
import Shorthand.Proofs.Pipeline.Written
import Shorthand.Proofs.Pipeline.Precedence
import Shorthand.Proofs.Import.Binding
import Shorthand.Proofs.Pipeline.Requests
import Shorthand.Proofs.Agreement
import Shorthand.Proofs.Descent
import Shorthand.Proofs.Api.Grammar
import Shorthand.Proofs.Matrix.Grammar
import Shorthand.Proofs.Api.Escape
import Shorthand.Proofs.ShortForm.GetAtt
import Shorthand.Proofs.ShortForm.Entries
import Shorthand.Proofs.Naming.Search
