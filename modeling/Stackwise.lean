import Stackwise.Binary.Code
import Stackwise.Code.Listing
import Stackwise.Compile
import Stackwise.Source.Builder
import Stackwise.Proofs.Source.Script
import Stackwise.Proofs.Source.Meaning
import Stackwise.Proofs.Source.Types
import Stackwise.Proofs.Source.Additions
import Stackwise.Proofs.Source.Arena
import Stackwise.Proofs.Source.Recursion
import Stackwise.Proofs.Throwing
import Stackwise.Proofs.Throwing.Chains
import Stackwise.Proofs.Code.Height
import Stackwise.Proofs.Code.Depth
import Stackwise.Proofs.Code.Machine
import Stackwise.Proofs.Code.Confined
import Stackwise.Proofs.Code.Footprint
import Stackwise.Proofs.Code.ArgumentLists
import Stackwise.Proofs.Code.Paths
import Stackwise.Proofs.Code.Listing
import Stackwise.Proofs.Code.Offsets
import Stackwise.Proofs.Peephole.Windows
import Stackwise.Proofs.Peephole.Balance
import Stackwise.Proofs.Peephole.Behaviour
import Stackwise.Proofs.Peephole.FixedPoint
import Stackwise.Proofs.Peephole.Accounting
import Stackwise.Proofs.Peephole.Depth
import Stackwise.Proofs.Peephole.Effects
import Stackwise.Proofs.Peephole.Access
import Stackwise.Proofs.Peephole.Frames
import Stackwise.Proofs.Peephole.Carrying
import Stackwise.Proofs.Peephole.Clearing
import Stackwise.Proofs.Peephole.Classification
import Stackwise.Proofs.Lowering.Steps
import Stackwise.Proofs.Lowering.Allocation
import Stackwise.Proofs.Lowering.Composition
import Stackwise.Proofs.Lowering.Recursion
import Stackwise.Proofs.Layout
import Stackwise.Proofs.Layout.Alignment
import Stackwise.Proofs.Lowering.Heights
import Stackwise.Proofs.Lowering.Exits
import Stackwise.Proofs.Lowering.Drafts
import Stackwise.Proofs.Lowering.Bodies
import Stackwise.Proofs.Lowering.Verified
import Stackwise.Proofs.Lowering.Execution
import Stackwise.Proofs.Lowering.Simulation
import Stackwise.Proofs.Lowering.Refinement
import Stackwise.Proofs.Lowering.Quiet
import Stackwise.Proofs.Lowering.Shape
import Stackwise.Proofs.Lowering.Shaped
import Stackwise.Proofs.Lowering.Edges
import Stackwise.Proofs.Lowering.Variables
import Stackwise.Proofs.Lowering.Moves
import Stackwise.Proofs.Lowering.Access
import Stackwise.Proofs.Lowering.Frames
import Stackwise.Proofs.Compile
import Stackwise.Proofs.Lowering.StackBound
import Stackwise.Proofs.Lowering.Exceptions
import Stackwise.Proofs.Lowering.Unwinding
import Stackwise.Proofs.Lowering.InFlight
import Stackwise.Proofs.Lowering.Footprint
import Stackwise.Proofs.Lowering.Selection
import Stackwise.Proofs.Lowering.Switches
import Stackwise.Proofs.Lowering.Neutral
import Stackwise.Proofs.Lowering.AddressCode
import Stackwise.Proofs.Lowering.Addresses
import Stackwise.Proofs.Lowering.Comparisons
import Stackwise.Proofs.Lowering.Packing
import Stackwise.Proofs.Lowering.CellMachine
import Stackwise.Proofs.Lowering.Packs
import Stackwise.Proofs.Lowering.Handlers
import Stackwise.Proofs.Binary.Stream
import Stackwise.Proofs.Binary.RoundTrip
