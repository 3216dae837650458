import EtvStation.Lib.Sessions
import EtvStation.Tz
import EtvStation.Pattern.Walk
import EtvStation.Pattern.Draws
import EtvStation.Pattern.Standing
import EtvStation.Pattern.Grouping
import EtvStation.Pattern.Tracked
import EtvStation.Pattern.Seamless
import EtvStation.Pattern.Channel
import EtvStation.Pattern.Session
import EtvStation.Lib.Passes
import EtvStation.Rotation
import EtvStation.Emit
import EtvStation.Leftover
import EtvStation.Reconcile
import EtvStation.SwapTicks
import EtvStation.Bumper.Timeline
import EtvStation.Bumper.Filled
import EtvStation.Generation
import EtvStation.Lib.Effect
import EtvStation.Heal
import EtvStation.Coverage
import EtvStation.CatchUp
import EtvStation.Pattern.Stops
import EtvStation.Resolve.Sequence
import EtvStation.Resolve.Blocks
import EtvStation.Resolve.Unaired
import EtvStation.Resolve.Ordering
import EtvStation.Resolve.Clashes
import EtvStation.Resolve.Entries
import EtvStation.Resolve.Counted
import EtvStation.Pattern.Budget
import EtvStation.Resolve.Change
import EtvStation.Restart
import EtvStation.Ticks
import EtvStation.Lib.Spans
import EtvStation.Overlay
import EtvStation.Lib.Traces
import EtvStation.Render.Interleave
import EtvStation.Ingest.Ownership
import EtvStation.Ingest.Airability
import EtvStation.Ingest.Barred
import EtvStation.Ingest.Folded
import EtvStation.Ingest.Numbering
import EtvStation.Query.Correct
import EtvStation.Bumper.Lines
import EtvStation.Undrawn
import EtvStation.Bumper.Emitted
import EtvStation.Bumper.Exact
import EtvStation.Bumper.Reach
import EtvStation.Variety.Dice
import EtvStation.Lib.Periods
import EtvStation.Variety.Periods
import EtvStation.Variety.Rollover
import EtvStation.Query.Negation
import EtvStation.Calendar.Schedule
import EtvStation.Calendar.Boundaries
import EtvStation.Pattern.Recent
import EtvStation.Pattern.Reachable
import EtvStation.Pattern.Full
import EtvStation.Pattern.Cyclic
import EtvStation.Pattern.Carry
import EtvStation.Pattern.Films
import EtvStation.Pattern.Resting
import EtvStation.Lib.Round
import EtvStation.Resolve.Turns
import EtvStation.Wipe
import EtvStation.Resolve.Repair
import EtvStation.Rewind
import EtvStation.Calendar.Lengths
import EtvStation.Durations
import EtvStation.Render.Chapter
import EtvStation.Lib.Sql.Order
import EtvStation.Query.Order
import EtvStation.Pattern.Partition
import EtvStation.Guide.Template
import EtvStation.Guide.Reading
import EtvStation.Guide.Spacing
import EtvStation.ProgramContext
import EtvStation.Render.Seams
import EtvStation.Render.Heard
import EtvStation.Fillers
import EtvStation.Simulate
import EtvStation.Lib.Dfs
import EtvStation.Calendar.Accepted
import EtvStation.Render.Cache
import EtvStation.Backfill
import EtvStation.Refresh
import EtvStation.Supervise
