import Epidemica.Lib.Cut
import Epidemica.Lib.Transition
import Epidemica.Lib.Fairness
import Epidemica.Lib.Network
import Epidemica.Mutex.Exclusion
import Epidemica.Mutex.Causality
import Epidemica.Mutex.Clocks
import Epidemica.Mutex.Waiting
import Epidemica.Core.Deadlock
import Epidemica.Core.Replication
import Epidemica.Core.Reads
import Epidemica.Core.Starvation
import Epidemica.Propagation.Snapshots
import Epidemica.Propagation.Convergence
import Epidemica.Wakeup.LostWakeup
import Epidemica.Wakeup.Coarse
import Epidemica.Nodes.Connections
import Epidemica.Nodes.LayerNodes
import Epidemica.Controller.ReadOnly
import Epidemica.Controller.Replay
import Epidemica.Controller.Membership
import Epidemica.Controller.Delivery
import Epidemica.Sockets.Framing
import Epidemica.Transactions.Malformed
import Epidemica.Transactions.FileWatcher
import Epidemica.WebSocket.Link
import Epidemica.WebSocket.Monitor
import Epidemica.Lib.Weight
import Epidemica.Core.Traffic
import Epidemica.Core.Range
import Epidemica.Core.Wire
import Epidemica.WebSocket.Url
import Epidemica.WebSocket.Handshake
import Epidemica.Core.Inner
import Epidemica.Controller.AtWork
import Epidemica.Controller.Tables
import Epidemica.WebSocket.Arrival
