import MonotoneQueue.Arena.Issued
import MonotoneQueue.Bits.Length
import MonotoneQueue.Graph.Walk
import MonotoneQueue.Proofs.Radix.Floor
import MonotoneQueue.Proofs.Radix.Layout
import MonotoneQueue.Proofs.Reach.Exact
import MonotoneQueue.Proofs.Search.Genuine
import MonotoneQueue.Proofs.Search.Monotone
import MonotoneQueue.Proofs.Search.Optimal
import MonotoneQueue.Radix.Session
import MonotoneQueue.Reach
import MonotoneQueue.Stable.Description
import MonotoneQueue.Proofs.Reach.FirstGoal
import MonotoneQueue.Proofs.Radix.Issued
import MonotoneQueue.Proofs.Radix.Handles
import MonotoneQueue.Proofs.Search.Steady
import MonotoneQueue.Proofs.PriorityQueue.Coupled
import MonotoneQueue.Proofs.Radix.Coupled
import MonotoneQueue.Proofs.Stable.Coupled
import MonotoneQueue.Proofs.Search.Trimmed
import MonotoneQueue.Proofs.Search.Filter
import MonotoneQueue.Proofs.PriorityQueue.Contents
import MonotoneQueue.Proofs.PriorityQueue.Line
import MonotoneQueue.Proofs.PriorityQueue.Mirrored
import MonotoneQueue.Proofs.Search.Truncated
import MonotoneQueue.Proofs.Stable.Line
import MonotoneQueue.Proofs.Radix.Agreement
import MonotoneQueue.Proofs.Radix.Ties
import MonotoneQueue.Proofs.Reach.Overflow
import MonotoneQueue.Proofs.Reach.Budget
import MonotoneQueue.Proofs.Reach.Growth
import MonotoneQueue.Proofs.Search.Course
import MonotoneQueue.Proofs.Search.Expansions
import MonotoneQueue.Proofs.Reach.Expansions
import MonotoneQueue.Proofs.Radix.Contents
import MonotoneQueue.Proofs.Radix.Faultless
import MonotoneQueue.Proofs.PriorityQueue.Foretells
import MonotoneQueue.Proofs.Radix.Descent
import MonotoneQueue.Proofs.Radix.Description
import MonotoneQueue.Proofs.Radix.Cleared
import MonotoneQueue.Proofs.Radix.Gauges
import MonotoneQueue.Proofs.Reach.Lazy
