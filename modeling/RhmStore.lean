import RhmStore.Log.Walk
import RhmStore.Jrnl.DataTok
import RhmStore.Jrnl.Jcntl
import RhmStore.Lib.Serial
import RhmStore.Store.Config
import RhmStore.Store.RecordIds
import RhmStore.Writer.Enter
import RhmStore.Jrnl.EnqRec
import RhmStore.Log.Ordered
import RhmStore.Rec.Decode
import RhmStore.Tools.Agrees
import RhmStore.Tools.Offline
import RhmStore.Lib.Counts
import RhmStore.Writer.Accounted
import RhmStore.Writer.Exact
import RhmStore.Writer.Threshold
import RhmStore.Log.Locked
import RhmStore.Writer.Protects
import RhmStore.Writer.Finishes
import RhmStore.Rec.Pieces
import RhmStore.Rec.XidEncode
import RhmStore.Rec.XidDecode
import RhmStore.Rec.External
import RhmStore.Jrnl.RcvDecode
import RhmStore.Rec.RcvParts
import RhmStore.Rec.Recover
import RhmStore.Writer.Released
import RhmStore.Writer.Unchanged
import RhmStore.Ring.FileMap
import RhmStore.Ring.Counters
import RhmStore.Info.Heads
import RhmStore.Info.Restores
import RhmStore.Store.TplRuns
import RhmStore.Store.Messages
import RhmStore.Store.Txn
import RhmStore.Log.Content
import RhmStore.Store.TplOnce
import RhmStore.Store.TxnJnl
import RhmStore.Store.TxnInv
import RhmStore.Store.TxnFrame
import RhmStore.Store.TxnRun
import RhmStore.Store.Atomic
import RhmStore.Store.InDoubt
import RhmStore.Store.Asked
import RhmStore.Store.Given
import RhmStore.Store.Recovered
import RhmStore.Store.Aborted
import RhmStore.Store.Synced
import RhmStore.Store.Configured
import RhmStore.Tools.Transfer
import RhmStore.Log.Load
import RhmStore.Writer.InStep
import RhmStore.Writer.Once
import RhmStore.Writer.Spared
