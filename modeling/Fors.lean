import Fors.Query.Planning
import Fors.Query.Minimal
import Fors.Query.Order
import Fors.Fmir.ExitEdges
import Fors.Fmir.TextExact
import Fors.Fmir.Totality
import Fors.Fmir.Canonical
import Fors.Fmir.Leaves
import Fors.Ty.HashCons
import Fors.Ty.LinQueries
import Fors.Check.Match
import Fors.Layout.Offsets
import Fors.Layout.Tag
import Fors.Interp.Convert
import Fors.Codegen.Instantiate
import Fors.Interp.Replay
import Fors.Ty.Inverse
import Fors.Sigs.Canonical
import Fors.Exec.Lifetimes
import Fors.Syntax.Builder
import Fors.Ty.Unbound
import Fors.Asm.Collide
import Fors.Link.Exact
import Fors.Diag.CachedHash
import Fors.Keys.Exact
import Fors.Interp.RunRoundTrip
import Fors.Lsp.Accepts
import Fors.Lsp.Writes
import Fors.Resolve.Exact
import Fors.Resolve.Order
import Fors.Fmt.Edits
import Fors.Index.Permute
import Fors.Diag.Applied
import Fors.Diag.Suggested
import Fors.Exec.Borrows
import Fors.Exec.Loads
import Fors.Obj.Total
import Fors.Rt.Output
import Fors.Lsp.Formatting
import Fors.Authority.Sealed
import Fors.Authority.Exact
