import Cbt.Lib.Program
import Cbt.Lib.Faults
import Cbt.Lib.Total
import Cbt.Lib.Heap
import Cbt.Lib.Typing
import Cbt.Effects.Lookup
import Cbt.Effects.Objects
import Cbt.Effects.Quiet
import Cbt.Effects.Reading
import Cbt.Effects.Writing
import Cbt.Effects.Members
import Cbt.Effects.Sound
import Cbt.Effects.Getters
import Cbt.Effects.Storing
import Cbt.Effects.Answering
import Cbt.Effects.Extension
import Cbt.Effects.Types
import Cbt.Model.Action
import Cbt.Model.Widgets
import Cbt.Model.AdminWindow
import Cbt.Model.StartWindow
import Cbt.Model.Startup
import Cbt.Model.Client
import Cbt.Codec.Encoding
import Cbt.Codec.Shape
import Cbt.Codec.Decoding
import Cbt.Windows.Screens
import Cbt.Windows.Acts
import Cbt.Windows.Pointers
import Cbt.Windows.Entries
import Cbt.Windows.Legible
import Cbt.Windows.Drawing
import Cbt.Windows.Showing
import Cbt.Windows.Regrouping
import Cbt.Windows.Saving
import Cbt.Windows.Selection
import Cbt.Windows.Creating
import Cbt.Windows.Classes
import Cbt.Windows.Beside
import Cbt.Schedules.Mirror
import Cbt.Schedules.Lessons
import Cbt.Schedules.Refinement
import Cbt.Schedules.Slots
import Cbt.Windows.Bounds
import Cbt.Schedules.Ranges
import Cbt.Updates.Edits
import Cbt.Updates.Session
import Cbt.Updates.Frame
import Cbt.Updates.Callers
import Cbt.Updates.Adding
import Cbt.Updates.Agreement
import Cbt.Caches.Identity
import Cbt.Caches.Listing
import Cbt.Caches.Counts
import Cbt.Caches.Traced
import Cbt.Caches.Targets
import Cbt.Caches.Answers
import Cbt.Caches.Concrete
import Cbt.Caches.Records
import Cbt.Caches.Registered
import Cbt.Calls.Deleting
import Cbt.Calls.Recounting
import Cbt.Calls.Students
import Cbt.Calls.Setting
import Cbt.Calls.SetGet
import Cbt.Calls.Updating
import Cbt.Calls.Scanning
import Cbt.Calls.Undoing
import Cbt.Calls.Rosters
import Cbt.Windows.Filling
import Cbt.Accounts.Commands
import Cbt.Accounts.Logins
import Cbt.Groups.Membership
import Cbt.Groups.Joining
import Cbt.Groups.Finding
import Cbt.Groups.Commands
import Cbt.Groups.Forms
import Cbt.Groups.Runs
import Cbt.Lib.Shared
import Cbt.Lib.Upholding
import Cbt.Model.Clients
import Cbt.Sharing.Names
import Cbt.Sharing.Operations
import Cbt.Sharing.Entities
import Cbt.Windows.Composition
import Cbt.Sharing.Screens
import Cbt.Sharing.Clients
import Cbt.Sharing.Interleavings
import Cbt.Sharing.Turns
import Cbt.Groups.Clients
import Cbt.Startup.Reader
import Cbt.Startup.Listing
import Cbt.Startup.Tables
import Cbt.Startup.Opening
import Cbt.Startup.LoggingIn
import Cbt.Startup.SigningUp
import Cbt.Startup.Keeping
import Cbt.Startup.Adding
import Cbt.Startup.Restarting
import Cbt.Owners.Holders
import Cbt.Owners.Operations
import Cbt.Owners.Entities
import Cbt.Owners.Clients
