import VideoSync.Json.Datum
import VideoSync.Main
import VideoSync.Sync.Schedule
import VideoSync.Proofs.Sync.Reaction
import VideoSync.Proofs.Sync.Log
import VideoSync.Proofs.Sync.Frame
import VideoSync.Proofs.Sync.Stages
import VideoSync.Proofs.Sync.Runs
import VideoSync.Proofs.Container.Anatomy
import VideoSync.Proofs.Container.Enclosure
import VideoSync.Proofs.Container.Seeks
import VideoSync.Proofs.Sync.Detach
import VideoSync.Proofs.Sync.Shape
import VideoSync.Proofs.Sync.Course
import VideoSync.Proofs.Sync.Bracket
import VideoSync.Proofs.Sync.Cursor
import VideoSync.Proofs.Sync.Origin
import VideoSync.Proofs.Sync.Media
import VideoSync.Proofs.Sync.Turns
import VideoSync.Proofs.Sync.Reports
import VideoSync.Proofs.Sync.Loading
import VideoSync.Proofs.Settings.Updates
import VideoSync.Proofs.Settings.Normalizing
import VideoSync.Proofs.Sync.Reference
import VideoSync.Proofs.Container.Payload
import VideoSync.Proofs.Settings.Loaders
import VideoSync.Proofs.Container.EarlyEnds
import VideoSync.Proofs.Timeline.Overlap
import VideoSync.Proofs.Sync.Requests
import VideoSync.Proofs.Cli.Probe
import VideoSync.Proofs.Container.Progress
import VideoSync.Proofs.Container.Overflow
import VideoSync.Proofs.Cli.Times
