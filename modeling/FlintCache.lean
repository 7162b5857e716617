import FlintCache.Backup.Restore
import FlintCache.Backup.Scrub
import FlintCache.ControlPlane.Ha
import FlintCache.Controller.Recover
import FlintCache.Failover.Fleet
import FlintCache.Migrate.Cutover
import FlintCache.Proxy.NearCache
import FlintCache.Proxy.SharedConn
import FlintCache.Proxy.Snapshot
import FlintCache.Proxy.Split
import FlintCache.Proxy.Transparent
import FlintCache.Proxy.TxnAtomic
import FlintCache.Proxy.TxnWatch
import FlintCache.Repl.Group
import FlintCache.Repl.Lag
import FlintCache.Repl.Tailer
import FlintCache.Server.Deferral
import FlintCache.Server.KeyCeiling
import FlintCache.Server.Pipeline
import FlintCache.Server.SlotGate
import FlintCache.Server.WriteLocks
import FlintCache.Server.WriteQueue
import FlintCache.Storage.Autoclaim
import FlintCache.Storage.Bits
import FlintCache.Storage.Bloom
import FlintCache.Storage.ByteOrder
import FlintCache.Storage.Eviction
import FlintCache.Storage.Gc
import FlintCache.Storage.LazyExpiry
import FlintCache.Storage.Overlay
import FlintCache.Storage.ReadAdmission
import FlintCache.Vec.Index
