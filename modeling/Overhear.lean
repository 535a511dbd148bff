import Overhear.Text.Blank
import Overhear.Text.Digits
import Overhear.Text.Segments
import Overhear.Name
import Overhear.Span
import Overhear.Scalar
import Overhear.Location.Coordinate
import Overhear.Location.Tag
import Overhear.Face
import Overhear.Packet
import Overhear.Timers
import Overhear.Records
import Overhear.Destinations
import Overhear.Random.Stream
import Overhear.Random.Draw
import Overhear.Config
import Overhear.Error
import Overhear.Strategy.Version
import Overhear.Strategy.InstanceName
import Overhear.Delay
import Overhear.Score.Stats
import Overhear.Score.Book
import Overhear.Engine.Decision
import Overhear.Engine.State
import Overhear.Engine.Relay
import Overhear.Engine.Events
import Overhear.Host.Alarms
import Overhear.Host.Clock
import Overhear.Host.Routes
import Overhear.Host.Node
import Overhear.Logging.Settings
import Overhear.Logging.Path
import Overhear.Logging.File
import Overhear.Logging.Identity
import Overhear.Document.Codec
import Overhear.Document.Packets
import Overhear.Document.Settings
import Overhear.Document.Json
import Overhear.Report.Packets
import Overhear.Report.Errors
import Overhear.Report.Forwarding
import Overhear.Report.Settings
import Overhear.Proofs.Timers
import Overhear.Proofs.Timers.Moves
import Overhear.Proofs.Timers.Calls
import Overhear.Proofs.Roster
import Overhear.Proofs.Ledger
import Overhear.Proofs.Score.Views
import Overhear.Proofs.Score.Upkeep
import Overhear.Proofs.Score.Session
import Overhear.Proofs.Score.Marks
import Overhear.Proofs.Score.Tending
import Overhear.Proofs.Engine.Run
import Overhear.Proofs.Engine.Receive
import Overhear.Proofs.Engine.Roster
import Overhear.Proofs.Engine.Accounts
import Overhear.Proofs.Engine.Fate
import Overhear.Proofs.Engine.Suppression
import Overhear.Proofs.Destinations.Insertion
import Overhear.Proofs.Destinations.Forest
import Overhear.Proofs.Destinations.Ancestry
import Overhear.Proofs.Destinations.Mutators
import Overhear.Proofs.Destinations.Lookup
import Overhear.Proofs.Engine.Isolation
import Overhear.Proofs.Engine.Shutdown
import Overhear.Proofs.Score.Lifetimes
import Overhear.Proofs.Score.Sweeping
import Overhear.Proofs.Engine.Holding
import Overhear.Proofs.Engine.Neighbourhood
import Overhear.Proofs.Engine.Responses
import Overhear.Proofs.Engine.Journal
import Overhear.Proofs.Engine.Credits
import Overhear.Proofs.Score.Pairing
import Overhear.Proofs.Engine.Agreement
import Overhear.Proofs.Engine.Steering
import Overhear.Proofs.Records.Removal
import Overhear.Proofs.Exact
import Overhear.Proofs.Settings
import Overhear.Proofs.Score.Bounds
import Overhear.Proofs.Timers.Weight
import Overhear.Proofs.Host.Loop
import Overhear.Proofs.Engine.Draining
import Overhear.Proofs.Score.Growth
import Overhear.Proofs.Score.Ticking
import Overhear.Proofs.Host.Rhythm
import Overhear.Proofs.Score.Hosting
import Overhear.Proofs.Engine.Hosting
import Overhear.Proofs.Score.Crediting
import Overhear.Proofs.Engine.Forwarding
import Overhear.Proofs.Engine.Outgoing
import Overhear.Proofs.Engine.Answers
import Overhear.Proofs.Name.Text
import Overhear.Proofs.Float.Signs
import Overhear.Proofs.Engine.Progress
import Overhear.Proofs.Float.Rounding
import Overhear.Proofs.Float.Exactness
import Overhear.Proofs.Float.Packing
import Overhear.Proofs.Float.Operations
import Overhear.Proofs.Float.Order
import Overhear.Proofs.Float.Words
import Overhear.Proofs.Delay.Draw
import Overhear.Proofs.Delay.Placement
import Overhear.Proofs.Engine.Rivals
import Overhear.Proofs.Name.Reading
import Overhear.Proofs.Strategy.InstanceName
import Overhear.Proofs.Timers.Advance
import Overhear.Proofs.Location.Tag
import Overhear.Proofs.Delay.Waiting
import Overhear.Proofs.Score.Renewal
import Overhear.Proofs.Logging.Calls
import Overhear.Proofs.Logging.Nesting
import Overhear.Proofs.Logging.Outliving
import Overhear.Proofs.Name.Bytes
import Overhear.Proofs.Name.Descendants
import Overhear.Proofs.Strategy.Version
import Overhear.Proofs.Timers.Arming
import Overhear.Proofs.Score.Arming
import Overhear.Proofs.Engine.Arming
