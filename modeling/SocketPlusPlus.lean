import SocketPlusPlus.Sockbuf.Copy
import SocketPlusPlus.Sockbuf.Message
import SocketPlusPlus.Sockbuf.Resume
import SocketPlusPlus.Sockbuf.Overrun
import SocketPlusPlus.Sockbuf.Wide
import SocketPlusPlus.Protocol.Segmentation
import SocketPlusPlus.Protocol.Termination
import SocketPlusPlus.Protocol.Bounds
import SocketPlusPlus.Protocol.Data
import SocketPlusPlus.Protocol.LookAhead
import SocketPlusPlus.Protocol.ReplyStream
import SocketPlusPlus.Protocol.ReplyCode
import SocketPlusPlus.Protocol.Transfer
import SocketPlusPlus.Sockbuf.Shutdown
import SocketPlusPlus.Fork.Zombies
import SocketPlusPlus.Fork.Handles
import SocketPlusPlus.Sig.Registry
import SocketPlusPlus.Sig.Liveness
import SocketPlusPlus.Sig.Masks
import SocketPlusPlus.Protocol.Echo
import SocketPlusPlus.Pipe.Pairs
import SocketPlusPlus.Protocol.Port
import SocketPlusPlus.Protocol.Operations
import SocketPlusPlus.Inet.Bind
import SocketPlusPlus.Sig.Removal
import SocketPlusPlus.Sig.Traversal
import SocketPlusPlus.Fork.Children
import SocketPlusPlus.Fork.Destructor
import SocketPlusPlus.Fork.Signals
import SocketPlusPlus.Fork.KillForks
import SocketPlusPlus.Protocol.Session
import SocketPlusPlus.Protocol.Mail
import SocketPlusPlus.Sig.Process
import SocketPlusPlus.Fork.Cascade
import SocketPlusPlus.Pipe.Commands
import SocketPlusPlus.Sockbuf.Connection
import SocketPlusPlus.Protocol.EchoSession
import SocketPlusPlus.Sockbuf.Correspondence
import SocketPlusPlus.Sockbuf.Howmany
