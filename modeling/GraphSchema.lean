import GraphSchema.Main
import GraphSchema.Proofs.Change.Reported
import GraphSchema.Proofs.Merge.Exemption
import GraphSchema.Proofs.Schema.Closed
import GraphSchema.Proofs.Schema.Order
import GraphSchema.Proofs.Schema.Merged
import GraphSchema.Proofs.Sdl.Canonical
import GraphSchema.Proofs.Change.Outline
import GraphSchema.Proofs.Decimal.Integer
import GraphSchema.Proofs.Change.Mirrored
import GraphSchema.Proofs.Merge.Alike
import GraphSchema.Proofs.Merge.Depth
import GraphSchema.Proofs.Merge.WrittenOut
import GraphSchema.Proofs.Schema.Kept
import GraphSchema.Proofs.Sdl.Expressible
import GraphSchema.Proofs.Sdl.Lossless
import GraphSchema.Proofs.Merge.Reordered
import GraphSchema.Proofs.Schema.Roots
import GraphSchema.Proofs.Schema.Reserved
import GraphSchema.Proofs.Schema.Introspection
import GraphSchema.Proofs.Schema.Implementing
import GraphSchema.Proofs.Sdl.Recovered
import GraphSchema.Proofs.Schema.CommentsAbove
import GraphSchema.Proofs.Merge.Witnesses
import GraphSchema.Proofs.Sdl.Strings
import GraphSchema.Proofs.Sdl.Literals
import GraphSchema.Proofs.Sdl.Coerced
import GraphSchema.Proofs.Merge.Repeated
import GraphSchema.Proofs.Merge.Levels
import GraphSchema.Proofs.Change.Once
import GraphSchema.Proofs.Sdl.Width
import GraphSchema.Proofs.Sdl.WrappedType
import GraphSchema.Proofs.Schema.Unnamed
import GraphSchema.Proofs.FileSystem.Search
