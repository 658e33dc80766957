import S3Cache.Time
import S3Cache.Index.Entry
import S3Cache.Fleet.Charge
import S3Cache.Fleet.WireLaws
import S3Cache.Fleet.InstallLaws
import S3Cache.Fleet.Donor
import S3Cache.Sync.Converge
import S3Cache.Cache.Overlap
import S3Cache.Cache.ReadRace
import S3Cache.Cache.Stop
import S3Cache.Cache.Uncertain
import S3Cache.Cache.Follower
import S3Cache.Cache.Crash
import S3Cache.Tier.Fence
import S3Cache.Tier.Fill
import S3Cache.Tier.Trust
import S3Cache.Index.ListWalk
import S3Cache.Index.ListToken
import S3Cache.Fleet.Counters
import S3Cache.Fleet.Authority
import S3Cache.Sync.Recovery
import S3Cache.Cache.ListGate
import S3Cache.Index.Rebuild
import S3Cache.Index.ScanLaws
import S3Cache.Index.ScanBound
import S3Cache.Cache.Batch
import S3Cache.Cache.HeadAnswer
import S3Cache.Cache.Completion
import S3Cache.Fleet.Totals
import S3Cache.Index.Sweep
import S3Cache.Fleet.Tally
import S3Cache.Fleet.ScanFrame
import S3Cache.Fleet.Stage
import S3Cache.Fleet.StageRun
import S3Cache.Fleet.Coverage
import S3Cache.Fleet.Canonical
import S3Cache.Fleet.DeltaCanonical
import S3Cache.Sync.Control.Replay
import S3Cache.Codec.LegacyBound
import S3Cache.Tier.Warm
import S3Cache.Tier.Range
import S3Cache.Tier.Buffer
import S3Cache.Sync.Control.Keys
import S3Cache.Sync.FleetConfig
import S3Cache.Index.Discover
import S3Cache.Sync.Control.Manifest
import S3Cache.Fleet.Captures
import S3Cache.Fleet.Transfer
import S3Cache.Fleet.Port
import S3Cache.Fleet.Session
import S3Cache.Sync.Token
import S3Cache.Sync.Lives
import S3Cache.Sync.Replica
import S3Cache.Sync.ReplicaRun
import S3Cache.Sync.Crossing
import S3Cache.Cache.Barrier
import S3Cache.Sync.Acks
