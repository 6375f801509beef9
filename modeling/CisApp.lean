import CisApp.Atomize.Current
import CisApp.Atomize.Job
import CisApp.Atomize.Legacy
import CisApp.Audit.Chain
import CisApp.Audit.Tamper
import CisApp.Audit.Writers
import CisApp.Entitlements.Follow
import CisApp.Entitlements.Replay
import CisApp.Entitlements.Resolver
import CisApp.Entitlements.Sync
import CisApp.Erasure.Catalog
import CisApp.Erasure.Closure
import CisApp.Erasure.DryRun
import CisApp.Erasure.Executions
import CisApp.Erasure.Job
import CisApp.Erasure.Order
import CisApp.Erasure.Plan
import CisApp.Erasure.SingleUse
import CisApp.Erasure.Traveller
import CisApp.Erasure.Walk
import CisApp.Feed.Consumer
import CisApp.Feed.Cursor
import CisApp.Feed.Events
import CisApp.Gateway.BudgetedTenants
import CisApp.Gateway.Capacity
import CisApp.Gateway.Guarded
import CisApp.Gateway.HalfOpen
import CisApp.Gateway.Health
import CisApp.Gateway.Limiter
import CisApp.Gateway.Probe
import CisApp.Gateway.Recovery
import CisApp.Gateway.Representation
import CisApp.Gateway.Route
import CisApp.Gateway.RunBudget
import CisApp.Gateway.TenantBudget
import CisApp.Hygiene.Boundaries
import CisApp.Hygiene.Cover
import CisApp.Hygiene.Cta
import CisApp.Hygiene.FixedPoint
import CisApp.Hygiene.Hashtags
import CisApp.Hygiene.Restore
import CisApp.Hygiene.Rewrites
import CisApp.Hygiene.Sections
import CisApp.Hygiene.Sentences
import CisApp.Hygiene.Strip
import CisApp.Hygiene.Tags
import CisApp.Hygiene.Tidy
import CisApp.Hygiene.Trailing
import CisApp.Identity.FetchRate
import CisApp.Identity.JwksCache
import CisApp.Jobs.Attempts
import CisApp.Jobs.Backlog
import CisApp.Jobs.BulkRetry
import CisApp.Jobs.Cancel
import CisApp.Jobs.Cap
import CisApp.Jobs.Cost
import CisApp.Jobs.Execute
import CisApp.Jobs.Execution
import CisApp.Jobs.Fencing
import CisApp.Jobs.Lifecycle
import CisApp.Jobs.Queue
import CisApp.Jobs.Reap
import CisApp.Jobs.Recompute
import CisApp.Jobs.Release
import CisApp.Jobs.Row
import CisApp.Jobs.Step
import CisApp.Jobs.StoredRefusal
import CisApp.Jobs.Terminal
import CisApp.Lib.Base64
import CisApp.Lib.Calendar
import CisApp.Lib.Competition
import CisApp.Lib.Decimal
import CisApp.Lib.Dict
import CisApp.Lib.Double
import CisApp.Lib.Downstream
import CisApp.Lib.Emits
import CisApp.Lib.GroupBy
import CisApp.Lib.Grouping
import CisApp.Lib.Guarded
import CisApp.Lib.Join
import CisApp.Lib.Json
import CisApp.Lib.JsonEq
import CisApp.Lib.JsonText
import CisApp.Lib.Lines
import CisApp.Lib.Memo
import CisApp.Lib.Outcome
import CisApp.Lib.Paging
import CisApp.Lib.Phrase
import CisApp.Lib.Regex
import CisApp.Lib.Rounding
import CisApp.Lib.Run
import CisApp.Lib.Scan
import CisApp.Lib.Sorted
import CisApp.Lib.Table
import CisApp.Lib.Text
import CisApp.Lib.Tiling
import CisApp.Lib.Transaction
import CisApp.Lib.Tri
import CisApp.Lib.UnionFind
import CisApp.Lib.Window
import CisApp.Lifecycle.Alive
import CisApp.Lifecycle.Effects
import CisApp.Lifecycle.Fanout
import CisApp.Lifecycle.Perform
import CisApp.Lifecycle.Record
import CisApp.Lifecycle.Rows
import CisApp.Lifecycle.Statements
import CisApp.Lifecycle.Warnings
import CisApp.Login.Bounds
import CisApp.Login.Throttle
import CisApp.Places.Chain
import CisApp.Places.Clusters
import CisApp.Places.Dedupe
import CisApp.Places.Links
import CisApp.Places.MergePlan
import CisApp.Places.PairRules
import CisApp.Places.Plan
import CisApp.Places.PlanOrder
import CisApp.Places.Prefilter
import CisApp.Places.Simplify
import CisApp.Planning.Quarter
import CisApp.Policy.Client
import CisApp.Policy.DataPolicy
import CisApp.Policy.Paths
import CisApp.Policy.Registry
import CisApp.Publish.Limit
import CisApp.Publish.Log
import CisApp.Publish.Once
import CisApp.Rank.Sum
import CisApp.Releases.Agreement
import CisApp.Releases.Calls
import CisApp.Releases.Evidence
import CisApp.Releases.Guard
import CisApp.Releases.Row
import CisApp.Releases.Stack
import CisApp.Repair.Plan
import CisApp.Repair.Splice
import CisApp.Repair.Text
import CisApp.Replies.JsonReply
import CisApp.Replies.SchemaCheck
import CisApp.Retention.Archived
import CisApp.Retention.Attempts
import CisApp.Retention.Ceiling
import CisApp.Retention.Complete
import CisApp.Retention.Override
import CisApp.Retention.Rollups
import CisApp.RouteConfig.Config
import CisApp.RouteConfig.History
import CisApp.RouteConfig.Restore
import CisApp.Routes.Again
import CisApp.Routes.Derive
import CisApp.Routes.Detect
import CisApp.Routes.Hubs
import CisApp.Routes.Spans
import CisApp.Routes.Versions
import CisApp.Segments.Components
import CisApp.Segments.Derive
import CisApp.Segments.Given
import CisApp.Segments.Gluing
import CisApp.Segments.Ids
import CisApp.Segments.Membership
import CisApp.Segments.Moment
import CisApp.Segments.Order
import CisApp.Segments.Prefilter
import CisApp.Segments.Reconcile
import CisApp.Segments.Repeat
import CisApp.Segments.Resolve
import CisApp.Segments.Run
import CisApp.Segments.Writes
import CisApp.Staff.Directory
import CisApp.Staff.Owners
import CisApp.Staff.Pool
import CisApp.Subscriptions.AddOns
import CisApp.Subscriptions.Paid
import CisApp.Subscriptions.Writers
import CisApp.Supply.Converges
import CisApp.Supply.Pull
import CisApp.Usage.Hourly
import CisApp.ViewAs.Logged
import CisApp.ViewAs.Sessions
import CisApp.ViewAs.Single
