import FerricStore.Log.Agreement
import FerricStore.Log.TornTail
import FerricStore.Raft.CommandCodec
import FerricStore.Prob.CuckooCounts
import FerricStore.Store.CompactionSafety
import FerricStore.Store.SwapAtomic
import FerricStore.Lists.Refinement
import FerricStore.SegmentLog.WriterSafety
import FerricStore.SegmentLog.Rewrite
import FerricStore.SegmentLog.AppendFailure
import FerricStore.SegmentLog.Config
import FerricStore.SegmentLog.Sidecar
import FerricStore.Flow.HistoryCodec
import FerricStore.Flow.RecordAgreement
import FerricStore.Governance.CircuitStore
import FerricStore.Governance.Budget
import FerricStore.Governance.CreditLease
import FerricStore.Acl.Rules
import FerricStore.Transaction.WatchIndex
import FerricStore.Zset.Scan
import FerricStore.Flow.ClaimRollback
import FerricStore.Governance.AtomicRecord
import FerricStore.Query.EntryMatcher
import FerricStore.Query.ReverseRecord
import FerricStore.Hlc
