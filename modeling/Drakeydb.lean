import Drakeydb.Mvcc.MergeLoad
import Drakeydb.Mvcc.Mesh
import Drakeydb.Mvcc.EpochStamps
import Drakeydb.Mvcc.LocalWrites
import Drakeydb.Journal.PeerReplication
import Drakeydb.Journal.PeerResume
import Drakeydb.Journal.RoundTrip
import Drakeydb.Dash.SegmentRun
import Drakeydb.Compact.KeyEquality
import Drakeydb.Compact.PackVariants
import Drakeydb.Json.NumberCommand
import Drakeydb.Search.AffixSearch
import Drakeydb.Search.SynonymUpdate
import Drakeydb.Search.Phrase
import Drakeydb.Zset.RankRange
import Drakeydb.Acl.RoundTrip
import Drakeydb.Search.MRMWMutex
import Drakeydb.Cuckoo.NoFalseNegatives
import Drakeydb.Bitops.BitOp
import Drakeydb.Strings.Throttle
import Drakeydb.Multi.Squasher
