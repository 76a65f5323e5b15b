import AssetQuery.Asset.Json
import AssetQuery.Code.Listing
import AssetQuery.Expr.Json
import AssetQuery.Proofs.Code.Keyed
import AssetQuery.Proofs.Code.References
import AssetQuery.Proofs.Compile.Arguments
import AssetQuery.Proofs.Compile.Available
import AssetQuery.Proofs.Compile.Exposure
import AssetQuery.Proofs.Compile.Identity
import AssetQuery.Proofs.Compile.Json
import AssetQuery.Proofs.Compile.Nesting
import AssetQuery.Proofs.Compile.Path
import AssetQuery.Proofs.Compile.Position
import AssetQuery.Proofs.Compile.Uniform
import AssetQuery.Proofs.Core.Commands
import AssetQuery.Proofs.Eval.Again
import AssetQuery.Proofs.Eval.Independence
import AssetQuery.Proofs.Eval.Projection
import AssetQuery.Proofs.Eval.Rootless
import AssetQuery.Proofs.Eval.Serializable
import AssetQuery.Proofs.Eval.Surfacing
import AssetQuery.Proofs.JobPool.Runs
import AssetQuery.Proofs.Registry.Export
import AssetQuery.Proofs.Registry.Merge
import AssetQuery.Proofs.Session.DefaultIds
import AssetQuery.Proofs.Session.Transparency
import AssetQuery.Proofs.Ty.Canonical
import AssetQuery.Proofs.Ty.Reading
import AssetQuery.Proofs.Value.Compare
import AssetQuery.Proofs.Value.Matching
import AssetQuery.Schema.Json
import AssetQuery.Ty.Order
