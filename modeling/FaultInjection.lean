import FaultInjection.Design.Unrolling
import FaultInjection.Design.Declarations
import FaultInjection.Design.Discovery
import FaultInjection.Plumbing.Labels
import FaultInjection.Traversal.Isolation
import FaultInjection.Traversal.Order
import FaultInjection.Output.Closure
import FaultInjection.Output.Links
import FaultInjection.Emission.Repeated
import FaultInjection.Emission.Honoured
import FaultInjection.Emission.Commuting
import FaultInjection.Emission.Scalar
import FaultInjection.Traversal.Rewiring
import FaultInjection.Emission.Spared
import FaultInjection.Printing.Runs
import FaultInjection.Harness.MagicSafety
import FaultInjection.Harness.DramsimSafety
import FaultInjection.Harness.LoadMem
