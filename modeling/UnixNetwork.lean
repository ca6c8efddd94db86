import UnixNetwork.Interaction.Prog
import UnixNetwork.Interaction.World
import UnixNetwork.Interaction.Live
import UnixNetwork.Interaction.Receives
import UnixNetwork.Interaction.Pool
import UnixNetwork.Interaction.Parallel
import UnixNetwork.Interaction.Channel
import UnixNetwork.Interaction.Component
import UnixNetwork.Interaction.Link
import UnixNetwork.Interaction.Unheard
import UnixNetwork.Encoding.Bytes
import UnixNetwork.Encoding.Framing
import UnixNetwork.Encoding.Lines
import UnixNetwork.Encoding.Chunks
import UnixNetwork.Encoding.Decimal
import UnixNetwork.Encoding.Hexadecimal
import UnixNetwork.CString
import UnixNetwork.Posix
import UnixNetwork.Connections
import UnixNetwork.Streams
import UnixNetwork.Feed
import UnixNetwork.Stdio
import UnixNetwork.TextInput
import UnixNetwork.EchoServer
import UnixNetwork.SelectServer
import UnixNetwork.SelectServer.Table
import UnixNetwork.SelectServer.Invariant
import UnixNetwork.SelectServer.Failure
import UnixNetwork.SelectServer.Countdown
import UnixNetwork.EchoRounds
import UnixNetwork.SelectServer.Rounds
import UnixNetwork.ScanServer
import UnixNetwork.ScanServer.Agreement
import UnixNetwork.StrCli
import UnixNetwork.StrCli.HalfClose
import UnixNetwork.StrCli.Relay
import UnixNetwork.StrCli02
import UnixNetwork.StrCli03
import UnixNetwork.ShortWrites
import UnixNetwork.PollCli
import UnixNetwork.PollCli.Agreement
import UnixNetwork.NonblockCli
import UnixNetwork.NonblockCli.Pointers
import UnixNetwork.NonblockCli.HalfClose
import UnixNetwork.NonblockCli.Watching
import UnixNetwork.EchoSystem
import UnixNetwork.EchoSystem.EndToEnd
import UnixNetwork.EchoClient
import UnixNetwork.EchoClient.LockStep
import UnixNetwork.StrEchoSum
import UnixNetwork.StrCli01
import UnixNetwork.SumSystem
import UnixNetwork.MyRoute
import UnixNetwork.MyRoute.Dump
import UnixNetwork.MyRoute.Attributes
import UnixNetwork.MyRoute.Inspection
import UnixNetwork.MyRoute.Stop
import UnixNetwork.MyRoute.Printed
import UnixNetwork.Inet
import UnixNetwork.Udp
import UnixNetwork.Udp.Dialogue
import UnixNetwork.Udp.Lossy
import UnixNetwork.SocketPath
import UnixNetwork.ServedConnections
import UnixNetwork.Forking
import UnixNetwork.Forking.Zombies
import UnixNetwork.Forking.Interrupted
import UnixNetwork.Forking.Ownership
import UnixNetwork.Forking.StrEcho
import UnixNetwork.Forking.Isolation
import UnixNetwork.ForkStrCli
import UnixNetwork.FiniteBuffers
import UnixNetwork.FiniteBuffers.Server
import UnixNetwork.FiniteBuffers.Filling
import UnixNetwork.FiniteBuffers.Deadlock
import UnixNetwork.FiniteBuffers.Forked
import UnixNetwork.FiniteBuffers.Forked.Turns
import UnixNetwork.FiniteBuffers.Forked.Runs
import UnixNetwork.FailedReceives
import UnixNetwork.Leaks
import UnixNetwork.Daytime
import UnixNetwork.HomePage
import UnixNetwork.Sctp
import UnixNetwork.SctpClient
import UnixNetwork.IfiInfo
import UnixNetwork.IpAddr
import UnixNetwork.Arp
import UnixNetwork.Arp.Table
import UnixNetwork.Daemon
