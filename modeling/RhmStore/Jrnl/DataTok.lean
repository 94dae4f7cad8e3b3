import RhmStore.Jrnl.Record

/-! # Data tokens -/

namespace RhmStore

/-- `data_tok::write_state`, in its order. -/
inductive WState
  | none
  | enqCached
  | enqPart
  | enqSubm
  | enq
  | deqCached
  | deqPart
  | deqSubm
  | deq
  | abortCached
  | abortPart
  | abortSubm
  | aborted
  | commitCached
  | commitPart
  | commitSubm
  | committed
  deriving DecidableEq, Repr

/-- `wmgr::_op_type`. -/
inductive OpType
  | enqueue
  | dequeue
  | abort
  | commit
  deriving DecidableEq, Repr

namespace OpType

def part : OpType → WState
  | enqueue => .enqPart
  | dequeue => .deqPart
  | abort => .abortPart
  | commit => .commitPart

def subm : OpType → WState
  | enqueue => .enqSubm
  | dequeue => .deqSubm
  | abort => .abortSubm
  | commit => .commitSubm

def compl : OpType → WState
  | enqueue => .enq
  | dequeue => .deq
  | abort => .aborted
  | commit => .committed

end OpType

namespace WState

/-- `wstate() >= state` of `data_tok`. -/
def atLeast (w v : WState) : Bool := v.ctorIdx ≤ w.ctorIdx

def isPart (w : WState) : Bool := w = enqPart || w = deqPart || w = abortPart || w = commitPart

def submOp : WState → Option OpType
  | enqSubm => some .enqueue
  | deqSubm => some .dequeue
  | abortSubm => some .abort
  | commitSubm => some .commit
  | _ => Option.none

end WState

/-- `data_tok`: what its user sets and what the write manager keeps in it. -/
structure DataTok where
  wstate : WState := .none
  dsize : Nat := 0
  dblksWritten : Nat := 0
  pgCnt : Nat := 0
  fid : Nat := 0
  rid : Nat := 0
  xid : Xid := []
  dequeueRid : Nat := 0
  externalRid : Bool := false
  deriving DecidableEq, Repr

namespace DataTok

def isWritable (t : DataTok) : Bool := t.wstate = .none || t.wstate = .enqPart

def isDequeueable (t : DataTok) : Bool := t.wstate = .enq || t.wstate = .deqPart

end DataTok

end RhmStore
