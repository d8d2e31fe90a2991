import AdaptiveJoin.Config.Reader
import AdaptiveJoin.Engine
import AdaptiveJoin.Query.NestedLoop
import AdaptiveJoin.Proofs.Crew.Exact
import AdaptiveJoin.Proofs.Crew.Proposals
import AdaptiveJoin.Proofs.Crew.SingleOrder
import AdaptiveJoin.Proofs.Engine.Exact
import AdaptiveJoin.Proofs.Engine.Prefilter
import AdaptiveJoin.Proofs.Filter.Batches
import AdaptiveJoin.Proofs.Filter.Choices
import AdaptiveJoin.Proofs.Filter.Sequences
import AdaptiveJoin.Proofs.Index.Cells
import AdaptiveJoin.Proofs.Index.Cursors
import AdaptiveJoin.Proofs.Index.Partition
import AdaptiveJoin.Proofs.Index.Words
import AdaptiveJoin.Proofs.Plan.Exact
import AdaptiveJoin.Proofs.Progress.Publications
import AdaptiveJoin.Proofs.Progress.Resumption
import AdaptiveJoin.Proofs.Query.Calls
import AdaptiveJoin.Proofs.Search.Coverage
import AdaptiveJoin.Proofs.Search.Division
import AdaptiveJoin.Proofs.Search.Roots
import AdaptiveJoin.Proofs.Search.Termination
import AdaptiveJoin.Proofs.Search.Visits
import AdaptiveJoin.Proofs.TableSet.Constructions
