import ApeServer.Lib.Assoc
import ApeServer.Lib.Blocks
import ApeServer.Lib.CInt
import ApeServer.Lib.CString
import ApeServer.Lib.Decimal
import ApeServer.Lib.DeltaList
import ApeServer.Lib.Fips180
import ApeServer.Lib.Forest
import ApeServer.Lib.Links
import ApeServer.Lib.Percent
import ApeServer.Lib.Runs
import ApeServer.Lib.Traces
import ApeServer.Codec.Base64
import ApeServer.Codec.Decode
import ApeServer.Sha1.Digest
import ApeServer.Sha1.Process
import ApeServer.Sha1.Stream
import ApeServer.Timers.Agenda
import ApeServer.Timers.Basic
import ApeServer.Timers.Deadlines
import ApeServer.Timers.Deletion
import ApeServer.Timers.Desk
import ApeServer.Timers.Extra
import ApeServer.Timers.Identifiers
import ApeServer.Timers.Reentry
import ApeServer.Timers.Termination
import ApeServer.Timers.Woven
import ApeServer.WebSocket.Bounds
import ApeServer.WebSocket.Closing
import ApeServer.WebSocket.Decode
import ApeServer.WebSocket.Frame
import ApeServer.WebSocket.Lengths
import ApeServer.WebSocket.Split
import ApeServer.Buffer.Append
import ApeServer.Buffer.Basic
import ApeServer.Buffer.Latin
import ApeServer.Socket.Jobs
import ApeServer.Socket.Order
import ApeServer.Socket.Pool
import ApeServer.Socket.RingShape
import ApeServer.Socket.Roster
import ApeServer.Socket.Sending
import ApeServer.Socket.SlotTypes
import ApeServer.Pool.Destroy
import ApeServer.Pool.Lists
import ApeServer.Ownership.Calls
import ApeServer.Ownership.Pass
import ApeServer.Ownership.Queue
import ApeServer.Ownership.Release
import ApeServer.Ownership.Secure
import ApeServer.Http.Body
import ApeServer.Http.Length
import ApeServer.Http.Lines
import ApeServer.Http.Parser
import ApeServer.Http.Rejection
import ApeServer.Http.Request
import ApeServer.Http.Stream
import ApeServer.Http.Target
import ApeServer.Http.Trace
import ApeServer.Table.Chains
import ApeServer.Table.Destroy
import ApeServer.Table.Entries
import ApeServer.Table.Hash
import ApeServer.Table.Headers
import ApeServer.Table.Items
import ApeServer.Table.Linked
import ApeServer.Table.Lookup
import ApeServer.Table.Reuse
import ApeServer.Table.Slots
import ApeServer.User.Pipes
import ApeServer.User.Sessions
import ApeServer.Endpoint.Blocking
import ApeServer.Endpoint.Calls
import ApeServer.Endpoint.Reading
import ApeServer.Endpoint.Roster
import ApeServer.Endpoint.Slots
import ApeServer.Endpoint.Teardown
import ApeServer.Json.Accept
import ApeServer.Json.Assertions
import ApeServer.Json.Blind
import ApeServer.Json.Copy
import ApeServer.Json.Document
import ApeServer.Json.Escape
import ApeServer.Json.Extend
import ApeServer.Json.Forest
import ApeServer.Json.Grammar
import ApeServer.Json.Heap
import ApeServer.Json.Integer
import ApeServer.Json.Item
import ApeServer.Json.Key
import ApeServer.Json.Language
import ApeServer.Json.Lookup
import ApeServer.Json.Numbers
import ApeServer.Json.Parser
import ApeServer.Json.Print
import ApeServer.Json.Property
import ApeServer.Json.Read
import ApeServer.Json.Room
import ApeServer.Json.RoundTrip
import ApeServer.Json.Setters
import ApeServer.Json.Spent
import ApeServer.Json.Steady
import ApeServer.Json.Stored
import ApeServer.Json.Struct
import ApeServer.Json.StructCopy
import ApeServer.Json.Survival
import ApeServer.Json.Tokens
import ApeServer.Json.Unicode
import ApeServer.Server.Callback
import ApeServer.Server.Clients
import ApeServer.Server.Connection
import ApeServer.Server.Documents
import ApeServer.Server.Entries
import ApeServer.Server.Frames
import ApeServer.Server.Handshake
import ApeServer.Server.Requests
import ApeServer.Command.Dispatch
import ApeServer.Script.Cleared
import ApeServer.Script.Timers
import ApeServer.Dns.Slots
