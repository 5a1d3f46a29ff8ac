import Blockmania.Interpreter.Cascade
import Blockmania.Interpreter.Quorum
import Blockmania.Interpreter.ViewQuorum
import Blockmania.Interpreter.QuorumTests
import Blockmania.Interpreter.Finality
import Blockmania.Graph.Reprocessing
import Blockmania.Graph.Agreement
import Blockmania.Graph.Certificates
import Blockmania.Storage.Replay
import Blockmania.Broadcast.TransactionList
import Blockmania.Broadcast.Links
import Blockmania.Broadcast.OwnChain
import Blockmania.Broadcast.Completeness
import Blockmania.Node.Hello
import Blockmania.Graph.Restart
import Blockmania.Broadcast.Admission
import Blockmania.Broadcast.Acknowledging
import Blockmania.Storage.Recovery
import Blockmania.Broadcast.Sizes
import Blockmania.Network.Conn
import Blockmania.Pubsub.Conn
import Blockmania.Rest.Ordering
import Blockmania.Config.ByteSize
