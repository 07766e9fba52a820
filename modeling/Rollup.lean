import Rollup.Aggregator.Encoding
import Rollup.Bucket.Downsample
import Rollup.Bucket.RuleEncoding
import Rollup.MaxScan.Kernel
import Rollup.Median.Encoding
import Rollup.Median.Rolling
import Rollup.Proofs.Bucket.EmptyBuckets
import Rollup.Proofs.Bucket.Intervals
import Rollup.Proofs.Encoding.Sessions
import Rollup.Proofs.Mean.Overflow
import Rollup.Proofs.Median.Between
import Rollup.Proofs.Median.Window
import Rollup.Proofs.TimeWeighted.Finite
import Rollup.Settings
import Rollup.Proofs.Encoding.Delimited
import Rollup.Proofs.MaxScan.Agreement
import Rollup.Proofs.Encoding.Layouts
import Rollup.Proofs.Bucket.Reported
import Rollup.Proofs.Bucket.Starts
import Rollup.Proofs.Encoding.Settled
import Rollup.Proofs.Aggregator.Slices
import Rollup.Proofs.Moments.Exact
import Rollup.Proofs.Moments.Nonneg
import Rollup.Proofs.Aggregator.Extremes
import Rollup.Proofs.Encoding.Fields
import Rollup.Proofs.Encoding.Names
import Rollup.Proofs.Encoding.RuleFormat
import Rollup.Proofs.Bucket.Directions
import Rollup.Proofs.Aggregator.Poison
