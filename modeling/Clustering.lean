import Clustering.Mixture
import Clustering.Batch.Walk
import Clustering.Model.Answer
import Clustering.Model.Object
import Clustering.Quality.Spread
import Clustering.Proofs.Batches
import Clustering.Proofs.Rows
import Clustering.Proofs.Sweeps
import Clustering.Proofs.FirstLeast
import Clustering.Proofs.PlainArgmin
import Clustering.Proofs.Exact
import Clustering.Proofs.Alike
import Clustering.Proofs.MachineOrder
import Clustering.Proofs.MachineRoot
import Clustering.Proofs.MachineUnit
import Clustering.Proofs.Draws
import Clustering.Proofs.ScaleFree
import Clustering.Proofs.Seeding.Yields
import Clustering.Proofs.Seeding.Agreement
import Clustering.Proofs.Seeding.KernelFree
import Clustering.Proofs.Seeding.Runs
import Clustering.Proofs.Seeding.Coverage
import Clustering.Proofs.Seeding.Rounds
import Clustering.Proofs.Seeding.Starts
import Clustering.Proofs.Seeding.Shapes
import Clustering.Proofs.Seeding.Failures
import Clustering.Proofs.Seeding.Following
import Clustering.Proofs.Seeding.Subsets
import Clustering.Proofs.Seeding.Gaps
import Clustering.Proofs.Seeding.Spread
import Clustering.Proofs.Fits
import Clustering.Proofs.BatchShape
import Clustering.Proofs.Lloyd.Orbit
import Clustering.Proofs.Lloyd.Clusters
import Clustering.Proofs.Lloyd.Textbook
import Clustering.Proofs.Lloyd.Budgets
import Clustering.Proofs.Lloyd.Phases
import Clustering.Proofs.Lloyd.Cost
import Clustering.Proofs.Lloyd.Descent
import Clustering.Proofs.Lloyd.Conservation
import Clustering.Proofs.Lloyd.Convergence
import Clustering.Proofs.Lloyd.FixedPoint
import Clustering.Proofs.Lloyd.Repetition
import Clustering.Proofs.Lloyd.Hull
import Clustering.Proofs.Prediction
import Clustering.Proofs.Pairwise
import Clustering.Proofs.Argmin
import Clustering.Proofs.Metrics
import Clustering.Proofs.BestRun
import Clustering.Proofs.Hull
import Clustering.Proofs.Calls
import Clustering.Proofs.Failures
import Clustering.Proofs.Ranges
import Clustering.Proofs.Recount
import Clustering.Proofs.Purity
import Clustering.Proofs.Conservation
import Clustering.Proofs.Seeding.Bookkeeping
import Clustering.Proofs.PerfectFit
import Clustering.Proofs.Similarity.Image
import Clustering.Proofs.Similarity.Lloyd
import Clustering.Proofs.Similarity.Seeding
import Clustering.Proofs.Similarity.Fits
import Clustering.Proofs.Walks
import Clustering.Proofs.ClusterStats
import Clustering.Proofs.WordStreams
import Clustering.Proofs.Mixtures
