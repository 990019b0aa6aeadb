import CircleFtp.Auth.Lockout
import CircleFtp.Auth.Invites
import CircleFtp.Auth.Eviction
import CircleFtp.Auth.Resets
import CircleFtp.Downloads.PlanPaths
import CircleFtp.Downloads.Activation
import CircleFtp.Downloads.Ownership
import CircleFtp.Downloads.ActiveJobs
import CircleFtp.Downloads.Resume
import CircleFtp.Downloads.Wakeups
import CircleFtp.Downloads.Completion
import CircleFtp.Downloads.Outcomes
import CircleFtp.Downloads.Deletion
import CircleFtp.Downloads.Cancels
import CircleFtp.Downloads.Counts
import CircleFtp.Downloads.Floor
import CircleFtp.Downloads.Accepted
import CircleFtp.Concurrent.Replica
import CircleFtp.Downloads.Containment
import CircleFtp.Downloads.Previewed
import CircleFtp.Titles.Selection
import CircleFtp.Titles.Numbering
import CircleFtp.Titles.Client
import CircleFtp.Titles.Search
import CircleFtp.Downloads.Ticks
import CircleFtp.Downloads.Attempts
import CircleFtp.Downloads.Shutdown
import CircleFtp.Downloads.Space
import CircleFtp.Files.Tree
import CircleFtp.Posters.Publication
import CircleFtp.Downloads.Tidying
import CircleFtp.Ranking
import CircleFtp.Downloads.Listing
import CircleFtp.Downloads.Announced
import CircleFtp.Downloads.Browsers
import CircleFtp.Downloads.Contents
import CircleFtp.Downloads.Ended
import CircleFtp.Downloads.Confinement
import CircleFtp.Http.Escalation
import CircleFtp.Http.Throttle
import CircleFtp.Titles.Probing
import CircleFtp.Titles.Enriching
