import Tidb.AutoidService.Safety
import Tidb.Br.KeyAdapter
import Tidb.Br.RtreeSafety
import Tidb.Br.SpansSafety
import Tidb.Codec.ComparableVarint
import Tidb.Codec.EstimateSize
import Tidb.Codec.Safety
import Tidb.Copr.WorkerSafety
import Tidb.Ddl.TempIndexMerge
import Tidb.Executor.UnionScanSafety
import Tidb.Expression.PushDownNot
import Tidb.Memory.TrackerSafety
import Tidb.Planner.HashPrune
import Tidb.Planner.PartitionPrune
import Tidb.Privilege.EffectiveRoles
import Tidb.Privilege.SortUser
import Tidb.Ranger.Points
import Tidb.Ranger.Ranger
import Tidb.Sqlexec.EscapeSafety
import Tidb.Structure.Refinement
import Tidb.Structure.ReverseHash
import Tidb.Table.SequenceSafety
import Tidb.Tablecodec.IndexKey
import Tidb.Tablecodec.TempIndexValue
import Tidb.Ttl.ScanQuerySafety
import Tidb.Types.BinCanonical
import Tidb.Types.DecimalAdd
import Tidb.Types.HashKey
import Tidb.Types.Overflow
import Tidb.Types.TimeAdd
import Tidb.Unistore.DetectorSafety
import Tidb.Unistore.Visibility
import Tidb.Util.CollateSafety
import Tidb.Util.Like
