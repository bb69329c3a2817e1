import SocialTimeline.Lib.TSys
import SocialTimeline.Lib.KeyedEdits
import SocialTimeline.Lib.Channels
import SocialTimeline.Lib.Rx
import SocialTimeline.Lib.Numeral
import SocialTimeline.Lib.Nested
import SocialTimeline.App.Node
import SocialTimeline.App.Post
import SocialTimeline.App.FirebaseTimelineService
import SocialTimeline.App.TimelineViewModel
import SocialTimeline.App.TimelineViewController
import SocialTimeline.App.Forms
import SocialTimeline.App.Session
import SocialTimeline.Database.Keys
import SocialTimeline.Database.FImmutableTree
import SocialTimeline.Database.Snapshot
import SocialTimeline.Database.FCompoundWrite
import SocialTimeline.Database.FWriteTree
import SocialTimeline.Database.Changes
import SocialTimeline.Database.FView
import SocialTimeline.Database.FSyncTree
import SocialTimeline.Logic.TableInStep
import SocialTimeline.Logic.BulkRead
import SocialTimeline.System.Client
import SocialTimeline.System.State
import SocialTimeline.System.Steps
import SocialTimeline.System.Keys
import SocialTimeline.System.Creation
import SocialTimeline.System.Subscriptions
import SocialTimeline.System.SyncTree
import SocialTimeline.Theorems.Table
import SocialTimeline.Theorems.Runs
import SocialTimeline.Theorems.BulkRead
import SocialTimeline.Theorems.Store
import SocialTimeline.Theorems.OneRow
import SocialTimeline.Theorems.Convergence
import SocialTimeline.Theorems.Rollback
import SocialTimeline.Theorems.Order
import SocialTimeline.Theorems.Forms
import SocialTimeline.Theorems.Observers
import SocialTimeline.Theorems.Authorship
import SocialTimeline.Theorems.Draining
import SocialTimeline.Theorems.Hearing
import SocialTimeline.Theorems.Deliveries
import SocialTimeline.Theorems.Keys
import SocialTimeline.Theorems.Session
import SocialTimeline.Theorems.Writes
import SocialTimeline.Theorems.PendingWrites
import SocialTimeline.Theorems.Changes
import SocialTimeline.Theorems.View
import SocialTimeline.Theorems.Observing
import SocialTimeline.Theorems.Showing
import SocialTimeline.Theorems.Following
import SocialTimeline.Theorems.Applying
import SocialTimeline.Theorems.Optimistic
