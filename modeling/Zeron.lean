import Zeron.Agent.Backlog
import Zeron.Agent.Children
import Zeron.Agent.ChildStream
import Zeron.Agent.Crash
import Zeron.Agent.Devin
import Zeron.Agent.ParentFeed
import Zeron.Agent.Inline
import Zeron.Agent.Prompts
import Zeron.Agent.Reasoning
import Zeron.Agent.Settles
import Zeron.Agent.Steers
import Zeron.Agent.SystemMessage
import Zeron.Agent.Turns
import Zeron.Auth.Late
import Zeron.Command.Retry
import Zeron.Command.Supersede
import Zeron.Sidebar.Projection
import Zeron.Sidebar.Fleet
import Zeron.Chat.Dedupe
import Zeron.Chat.Download
import Zeron.Chat.Frames
import Zeron.Chat.HeadOfLine
import Zeron.Chat.Kept
import Zeron.Chat.Plan
import Zeron.Chat.Replay
import Zeron.Delivery.Edit
import Zeron.Diff.Latest
import Zeron.Edge.UpdateLog
import Zeron.Files.Conflict
import Zeron.Files.Read
import Zeron.Files.Search
import Zeron.Journal.Store
import Zeron.History.Compact
import Zeron.Journal.Subscribe
import Zeron.Lib.Cover
import Zeron.Peer.Links
import Zeron.Peer.Nudge
import Zeron.Peer.Preview
import Zeron.Phone.Durable
import Zeron.Preview.Permanent
import Zeron.Preview.Streams
import Zeron.Registry.Converge
import Zeron.Registry.Cursor
import Zeron.Registry.Outbox
import Zeron.Registry.Overlay
import Zeron.Registry.Parity
import Zeron.Registry.Replay
import Zeron.Registry.Reset
import Zeron.Registry.Resurrect
import Zeron.Rpc.DeviceFrame
import Zeron.Rpc.Progress
import Zeron.Session.Drain
import Zeron.Session.Segment
import Zeron.Session.Transcript
import Zeron.Session.Opening
import Zeron.Sidebar.PinOrder
import Zeron.Sidebar.Rejected
import Zeron.Sidebar.Stamps
import Zeron.Phone.Snapshot
import Zeron.Phone.PushQueue
import Zeron.Phone.Saver
import Zeron.Changes.Rows
import Zeron.Changes.Untracked
import Zeron.Seen.Fleet
import Zeron.Terminal.Live
import Zeron.Chat.Title
import Zeron.Diff.Status
