import DeferredArrays.Kernel.Json
import DeferredArrays.Proofs.Graph.Aliasing
import DeferredArrays.Proofs.Graph.Blocking
import DeferredArrays.Proofs.Graph.Chains
import DeferredArrays.Proofs.Graph.Frame
import DeferredArrays.Proofs.Graph.Integers
import DeferredArrays.Proofs.Graph.Lasting
import DeferredArrays.Proofs.Graph.ReadCounts
import DeferredArrays.Proofs.Graph.Termination
import DeferredArrays.Proofs.Kernel.Bounds
import DeferredArrays.Proofs.Kernel.Documents
import DeferredArrays.Proofs.Kernel.Grammar
import DeferredArrays.Proofs.Session.Claims
import DeferredArrays.Proofs.Session.Timing
import DeferredArrays.Proofs.Tensor.Power
import DeferredArrays.Proofs.Tensor.ReadBack
import DeferredArrays.Proofs.Tensor.Selecting
import DeferredArrays.Proofs.Kernel.Arguments
import DeferredArrays.Proofs.Kernel.Positions
import DeferredArrays.Proofs.Tensor.Display
import DeferredArrays.Proofs.Graph.Diagrams
