import ArityArrays.Tries.FiniteMap
import ArityArrays.Tries.Canonical
import ArityArrays.Tries.Atomicity
import ArityArrays.Tries.Replacement
import ArityArrays.Tries.MerkleRoot
import ArityArrays.Tries.NoPanic
import ArityArrays.Arrays.Arity
import ArityArrays.Arrays.Positions
import ArityArrays.Support.Block
import ArityArrays.Support.Unwind
import ArityArrays.Arrays.Placement
import ArityArrays.Arrays.Fixed
import ArityArrays.Arrays.Packed
import ArityArrays.Arrays.Gapped
import ArityArrays.Arrays.Gapped.Layout
import ArityArrays.Arrays.Gapped.Placing
import ArityArrays.Arrays.Gapped.Rebuilding
import ArityArrays.Arrays.Gapped.Capacity
import ArityArrays.Arrays.Iteration
import ArityArrays.Arrays.Packed.Iterators
import ArityArrays.Arrays.Gapped.Iterators
import ArityArrays.Arrays.Filling
import ArityArrays.Arrays.Packed.Conversions
import ArityArrays.Arrays.Gapped.Conversions
import ArityArrays.Arrays.Encoding
import ArityArrays.Support.Simulation
import ArityArrays.Tries.ChildStore
import ArityArrays.Arrays.Programs
import ArityArrays.Arrays.Invariants
import ArityArrays.Arrays.Release
import ArityArrays.Arrays.Traversal
import ArityArrays.Arrays.Canonical
import ArityArrays.Arrays.Movement
import ArityArrays.Arrays.Reservation
import ArityArrays.Arrays.Converting
import ArityArrays.Arrays.Equality
import ArityArrays.Tries.Walking.Failing
import ArityArrays.Tries.Hashing.Switching
import ArityArrays.Bitmaps.Backing
import ArityArrays.Support.Words
import ArityArrays.Bitmaps.Scanning
import ArityArrays.Bitmaps.Native
import ArityArrays.Bitmaps.U256
import ArityArrays.Bitmaps.Coherence
import ArityArrays.Tries.Destruction.Subtree
import ArityArrays.Tries.Destruction.MemEdge
import ArityArrays.Tries.Destruction.Dropping
import ArityArrays.Support.Digits
import ArityArrays.Tries.Nibbles
import ArityArrays.Arrays.Gapped.Spreading
import ArityArrays.Index.Ranges
import ArityArrays.Tries.Counting
import ArityArrays.Tries.Hashing.Commitment
import ArityArrays.Tries.Hashing.Retry
import ArityArrays.Tries.Mutation.Reach
import ArityArrays.Tries.Hashing.Cost
import ArityArrays.Tries.Hashing.Incremental
import ArityArrays.Tries.Walking.Reachable
import ArityArrays.Support.Handles
import ArityArrays.Tries.Walking.Pointers
import ArityArrays.Tries.Walking.Handles
import ArityArrays.Tries.Walking.Lookups
import ArityArrays.Tries.Walking.Locating
import ArityArrays.Support.Borrows
import ArityArrays.Tries.Frames.Pointers
import ArityArrays.Tries.Frames.Borrowing
import ArityArrays.Tries.Frames.Nesting
import ArityArrays.Tries.Frames.Algorithms
import ArityArrays.Tries.Frames.Simulation
import ArityArrays.Tries.Frames.Running
import ArityArrays.Tries.Walking.Reads
import ArityArrays.Tries.Walking.Scanning
import ArityArrays.Arrays.Allocation
import ArityArrays.Arrays.Footprint
import ArityArrays.Bitmaps.Wire
import ArityArrays.Arrays.Growth
