import PacketWire.Registry
import PacketWire.Settings.Load
import PacketWire.Settings.Check
import PacketWire.Endpoint.Line
import PacketWire.FrameRead
import PacketWire.Session.Peer
import PacketWire.Log.Logger
import PacketWire.Proofs.VarInt.Numeral
import PacketWire.Proofs.Frame
import PacketWire.Proofs.Packet
import PacketWire.Proofs.Codec.Decode
import PacketWire.Proofs.Codec.Grammar
import PacketWire.Proofs.Codec.Encode
import PacketWire.Proofs.Codec.RoundTrip
import PacketWire.Proofs.Codec.Output
import PacketWire.Proofs.Codec.Pooled
import PacketWire.Proofs.Codec.Progress
import PacketWire.Proofs.FrameRead
import PacketWire.Proofs.Pool.Ledger
import PacketWire.Proofs.Endpoint.Feed
import PacketWire.Proofs.Inbox
import PacketWire.Proofs.Endpoint.Reading
import PacketWire.Proofs.Readers
import PacketWire.Proofs.Endpoint.Ciphered
import PacketWire.Proofs.Endpoint.Copy
import PacketWire.Proofs.Outbox
import PacketWire.Proofs.Session.Failure
import PacketWire.Proofs.Session.Writer
import PacketWire.Proofs.Session.Outflow
import PacketWire.Proofs.Session.Order
import PacketWire.Proofs.Session.Moves
import PacketWire.Proofs.Session.Shutdown
import PacketWire.Proofs.Session.Switch
import PacketWire.Proofs.Outbox.Attempts
import PacketWire.Proofs.Endpoint.Dialogue
import PacketWire.Proofs.Endpoint.Intake
import PacketWire.Proofs.Session.Report
import PacketWire.Proofs.Session.Inflow
import PacketWire.Proofs.Session.Arrival
import PacketWire.Proofs.Registry
import PacketWire.Proofs.Pool.Upkeep
import PacketWire.Proofs.Endpoint.Unfailing
import PacketWire.Proofs.Writers
import PacketWire.Proofs.Endpoint.Tapped
import PacketWire.Proofs.Session.Backpressure
import PacketWire.Proofs.Endpoint.CallByCall
import PacketWire.Proofs.Endpoint.Exact
import PacketWire.Proofs.Endpoint.Noted
import PacketWire.Proofs.FrameRead.Endings
import PacketWire.Proofs.Codec.Refusal
import PacketWire.Proofs.Endpoint.Driving
import PacketWire.Proofs.FrameRead.Slots
import PacketWire.Proofs.VarInt.Coding
import PacketWire.Proofs.VarInt.Streamed
import PacketWire.Proofs.Inbox.Cancelled
import PacketWire.Proofs.Inbox.Bounded
import PacketWire.Proofs.Metrics
import PacketWire.Proofs.Codec.Exchange
import PacketWire.Proofs.Readers.Counters
import PacketWire.Proofs.Session.Fleet
import PacketWire.Proofs.Settings.Kept
import PacketWire.Proofs.Codec.Inflating
