import Chickadee.Impl.Basic
import Chickadee.Impl.BloomFilter
import Chickadee.Impl.Command
import Chickadee.Impl.Compact
import Chickadee.Impl.Concrete
import Chickadee.Impl.Disk
import Chickadee.Impl.Header
import Chickadee.Impl.Log
import Chickadee.Impl.MemTable
import Chickadee.Impl.Outage
import Chickadee.Impl.Run
import Chickadee.Impl.SSTable
import Chickadee.Impl.Server
import Chickadee.Impl.Text
import Chickadee.Lemmas.Account
import Chickadee.Lemmas.Ascending
import Chickadee.Lemmas.BloomFilter
import Chickadee.Lemmas.Command
import Chickadee.Lemmas.Compact
import Chickadee.Lemmas.Concrete
import Chickadee.Lemmas.Directory
import Chickadee.Lemmas.Disk
import Chickadee.Lemmas.FileName
import Chickadee.Lemmas.Header
import Chickadee.Lemmas.Keeps
import Chickadee.Lemmas.KeyValues
import Chickadee.Lemmas.Log
import Chickadee.Lemmas.MemTable
import Chickadee.Lemmas.Merge
import Chickadee.Lemmas.Outage
import Chickadee.Lemmas.Recovery
import Chickadee.Lemmas.Run
import Chickadee.Lemmas.SSTable
import Chickadee.Lemmas.Secured
import Chickadee.Lemmas.Server
import Chickadee.Lemmas.Size
import Chickadee.Lemmas.Store
import Chickadee.Lemmas.Stream
import Chickadee.Lib.Faulty
import Chickadee.Lib.KWay
import Chickadee.Lib.Layers
import Chickadee.Lib.LittleEndian
import Chickadee.Lib.Packing
import Chickadee.Lib.Platter
import Chickadee.Lib.Resync
import Chickadee.Lib.Simulation
import Chickadee.Lib.SortedMap
import Chickadee.Properties.Account
import Chickadee.Properties.Alteration
import Chickadee.Properties.Arbitrary
import Chickadee.Properties.Cadence
import Chickadee.Properties.Compaction
import Chickadee.Properties.Damage
import Chickadee.Properties.Durability
import Chickadee.Properties.Failure
import Chickadee.Properties.Filter
import Chickadee.Properties.Flush
import Chickadee.Properties.Isolation
import Chickadee.Properties.Merging
import Chickadee.Properties.Naming
import Chickadee.Properties.Opening
import Chickadee.Properties.Outage
import Chickadee.Properties.Pace
import Chickadee.Properties.Packing
import Chickadee.Properties.Parser
import Chickadee.Properties.Records
import Chickadee.Properties.Recovery
import Chickadee.Properties.Refinement
import Chickadee.Properties.Replay
import Chickadee.Properties.Server
import Chickadee.Properties.Session
import Chickadee.Properties.Sorting
import Chickadee.Properties.Table
