import Fssn.P2p.Discovery
import Fssn.P2p.Malformed
import Fssn.P2p.NameServer
import Fssn.P2p.UserDb
import Fssn.Udp.Delivery
import Fssn.Udp.Isolation
import Fssn.Udp.Range
import Fssn.Tcp.Broadcast
import Fssn.Tcp.ClientCount
import Fssn.Tcp.EchoServer
import Fssn.Tcp.EchoSession
import Fssn.Tcp.Disconnect
import Fssn.Tcp.Recovery
import Fssn.EchoIsolation
import Fssn.TextScans
import Fssn.Tokenisers
import Fssn.Zmq.Identity
import Fssn.Zmq.PushClient
import Fssn.Zmq.Relay
import Fssn.Zmq.Weather
import Fssn.Lib.Feed
import Fssn.Zmq.PubSub
import Fssn.Lib.Countdown
import Fssn.Zmq.Answered
import Fssn.P2p.Chat
import Fssn.Lib.ReqRep
import Fssn.Zmq.Hello
import Fssn.Zmq.MessageDump
import Fssn.Lib.Heap
import Fssn.Lib.Simulation
import Fssn.Tcp.Chat
import Fssn.Tcp.Csock
import Fssn.Lib.Variant
import Fssn.Tcp.ChatDelivery
import Fssn.Zmq.DealerThread
import Fssn.Udp.Chat
import Fssn.Tcp.EchoScreens
import Fssn.Zmq.WeatherReports
import Fssn.P2p.Program
import Fssn.Tcp.RosterLaw
