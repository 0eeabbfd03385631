import Mage.Invariant.Locks
import Mage.Invariant.Growth
import Mage.Lib.AtMostOnce
import Mage.Invariant.Reachable
import Mage.Invariant.Handshake
import Mage.Lib.Ledger
import Mage.Ports.Names
import Mage.Ports.Pacts
import Mage.Lib.Chain
import Mage.Ports.Links
import Mage.Invariant.Tidy
import Mage.Ports.Refine
import Mage.Model.Faults
import Mage.Model.Execution
import Mage.Safety.Collision
import Mage.Safety.Entanglement
import Mage.Safety.Queued
import Mage.Invariant.Channels
import Mage.Safety.Callbacks
import Mage.Flow.Letters
import Mage.Flow.Stock
import Mage.Flow.Passing
import Mage.Safety.Overtaking
import Mage.Model.Life
import Mage.Invariant.Handles
import Mage.Safety.Handles
import Mage.Lib.LockOrder
import Mage.Model.Locking
import Mage.Safety.Deadlock
import Mage.Lib.Traversal
import Mage.Safety.Dependents
import Mage.Safety.Forwarding
import Mage.Lib.Bytes
import Mage.Wire.Message
import Mage.Wire.Pointers
import Mage.Wire.Channel
import Mage.Lib.Words
import Mage.Magen.Parse
import Mage.Magen.Layout
import Mage.Magen.Tokens
import Mage.Magen.Print
import Mage.Magen.MethodIDs
import Mage.Wire.Descriptors
import Mage.Wire.Params
import Mage.Wire.Generated
import Mage.Wire.RoundTrip
import Mage.Wire.Exchange
import Mage.Wire.View
import Mage.Lib.Grounded
import Mage.Safety.Targets
import Mage.Safety.Routing
import Mage.Safety.Neighbours
import Mage.Safety.Aborts
import Mage.Safety.Journeys
import Mage.Safety.Alone
import Mage.Safety.Trailing
import Mage.Safety.Queues
import Mage.Wire.Encode
import Mage.Wire.Sockets
import Mage.Flow.Work
import Mage.Safety.Rest
import Mage.Safety.Calm
import Mage.Safety.Books
import Mage.Safety.Acceptance
import Mage.Safety.Sending
import Mage.Safety.Turns
import Mage.Safety.Bookkeeping
