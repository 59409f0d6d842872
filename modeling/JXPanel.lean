import JXPanel.Dict
import JXPanel.Collect
import JXPanel.Hierarchy
import JXPanel.Runs
import JXPanel.Value
import JXPanel.Records
import JXPanel.Traversal
import JXPanel.Checks
import JXPanel.Operations
import JXPanel.Effects
import JXPanel.Links
import JXPanel.Suspension
import JXPanel.Descent
import JXPanel.Cascade
import JXPanel.Deletes
import JXPanel.Consistency
import JXPanel.Removal
import JXPanel.Totals
import JXPanel.Shrinking
import JXPanel.Room
import JXPanel.Charges
import JXPanel.Fitting
import JXPanel.Quota
import JXPanel.Halting
import JXPanel.Forest
import JXPanel.Growth
import JXPanel.Maximums
import JXPanel.AppConfig
import JXPanel.Paths
import JXPanel.FileManager
import JXPanel.Confinement
import JXPanel.Destinations
import JXPanel.Shell
import JXPanel.Scan
import JXPanel.Commands
import JXPanel.Json
import JXPanel.Spawner
import JXPanel.Ports
import JXPanel.Homes
import JXPanel.Sessions
import JXPanel.Databases
import JXPanel.NginxConf
import JXPanel.Hosts
import JXPanel.FixDatabase
import JXPanel.Reasons
import JXPanel.Terminal
import JXPanel.Starts
import JXPanel.Ftp
import JXPanel.Submit
import JXPanel.AllowList
import JXPanel.Requests
import JXPanel.Moments
import JXPanel.Rollback
import JXPanel.Refusals
import JXPanel.HostNames
import JXPanel.Flags
import JXPanel.Grants
import JXPanel.Transfers
import JXPanel.PortSettings
import JXPanel.PlanForms
import JXPanel.PlanCounts
import JXPanel.PlanUpdates
import JXPanel.EditRights
import JXPanel.AddonRemoval
import JXPanel.AddonLimits
import JXPanel.FileNames
import JXPanel.PlanDirs
import JXPanel.IpTools
import JXPanel.DiskInfo
import JXPanel.Stops
import JXPanel.Detection
import JXPanel.Precedence
import JXPanel.PlanOrder
import JXPanel.QuotaPass
import JXPanel.DiskSizes
import JXPanel.FreePorts
import JXPanel.Listings
import JXPanel.Downloads
import JXPanel.Pattern
import JXPanel.SmartSearch
import JXPanel.NginxLexer
import JXPanel.Directives
import JXPanel.NginxService
import JXPanel.Moves
import JXPanel.FormGate
import JXPanel.FormFields
import JXPanel.Saved
import JXPanel.Durable
import JXPanel.Rereads
import JXPanel.Copies
import JXPanel.Parties
import JXPanel.Exclusion
