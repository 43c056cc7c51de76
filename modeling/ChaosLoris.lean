import ChaosLoris.Lib.Runs
import ChaosLoris.Lib.FlatMap
import ChaosLoris.Data
import ChaosLoris.StandardDestroyer
import ChaosLoris.Terminate
import ChaosLoris.Lib.Table
import ChaosLoris.Database
import ChaosLoris.Links
import ChaosLoris.Web
import ChaosLoris.Requests
import ChaosLoris.DestructionScheduler
import ChaosLoris.Lib.Custody
import ChaosLoris.Tasks
import ChaosLoris.Lib.Mirror
import ChaosLoris.Service
import ChaosLoris.Threads
import ChaosLoris.Lib.Writers
import ChaosLoris.Convergence
import ChaosLoris.Destruction
import ChaosLoris.Recording
import ChaosLoris.Unschedulable
import ChaosLoris.Lib.Transactions
import ChaosLoris.PartialUpdates
import ChaosLoris.Lib.Constraints
import ChaosLoris.EventReaper
import ChaosLoris.StoreInvariant
import ChaosLoris.System
import ChaosLoris.Queries
import ChaosLoris.CloudFoundryPlatform
import ChaosLoris.Targets
import ChaosLoris.Deletion
import ChaosLoris.RandomFateEngine
import ChaosLoris.Reaping
import ChaosLoris.References
import ChaosLoris.Resources
import ChaosLoris.Refusals
import ChaosLoris.TakeDown
import ChaosLoris.Stopped
import ChaosLoris.Creation
import ChaosLoris.Lib.Fields
import ChaosLoris.History
import ChaosLoris.Lib.Extent
import ChaosLoris.Catalogue
import ChaosLoris.Lib.Later
import ChaosLoris.Identity
import ChaosLoris.Lib.Linearizable
import ChaosLoris.Linearizability
import ChaosLoris.Audit
import ChaosLoris.Durability
import ChaosLoris.Deployment
import ChaosLoris.Retention
import ChaosLoris.Progress
import ChaosLoris.Spared
import ChaosLoris.Retries
import ChaosLoris.Restart
import ChaosLoris.Lib.Draws
import ChaosLoris.Independence
