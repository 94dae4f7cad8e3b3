import RhmStore.Jrnl.TxnMap

/-! # Journal records -/

namespace RhmStore

def jrnlDblkSize : Nat := 128

def jrnlSblkSize : Nat := 4

/-- `enq_rec`, `deq_rec` and `txn_rec` (abort and commit). An empty xid stands for none. -/
inductive JRec
  | enq (rid : Nat) (xid : Xid) (dsize : Nat) (transient external : Bool)
  | deq (rid deqRid : Nat) (xid : Xid) (txnComlCommit : Bool)
  | txa (rid : Nat) (xid : Xid)
  | txc (rid : Nat) (xid : Xid)
  deriving DecidableEq, Repr

/-- `jrec::size_blks`: whole blocks that hold `size` units. -/
def sizeBlks (size blksize : Nat) : Nat := (size + blksize - 1) / blksize

def sizeDblks (size : Nat) : Nat := sizeBlks size jrnlDblkSize

/-- `rec_tail::size()`. -/
def recTailSize : Nat := 12

/-- `enq_rec::rec_size`: external data is not stored in the journal. -/
def enqRecSize (xidsize dsize : Nat) (external : Bool) : Nat :=
  if external then 32 + xidsize + recTailSize else 32 + xidsize + dsize + recTailSize

/-- `deq_rec::rec_size`: without an xid there is no tail either. -/
def deqRecSize (xidsize : Nat) : Nat :=
  32 + if xidsize = 0 then 0 else xidsize + recTailSize

/-- `txn_rec::rec_size`. -/
def txnRecSize (xidsize : Nat) : Nat := 24 + xidsize + recTailSize

namespace JRec

def rid : JRec → Nat
  | enq rid _ _ _ _ => rid
  | deq rid _ _ _ => rid
  | txa rid _ => rid
  | txc rid _ => rid

def xid : JRec → Xid
  | enq _ xid _ _ _ => xid
  | deq _ _ xid _ => xid
  | txa _ xid => xid
  | txc _ xid => xid

def isTransient : JRec → Bool
  | enq _ _ _ transient _ => transient
  | _ => false

def recSize : JRec → Nat
  | enq _ xid dsize _ external => enqRecSize xid.length dsize external
  | deq _ _ xid _ => deqRecSize xid.length
  | txa _ xid => txnRecSize xid.length
  | txc _ xid => txnRecSize xid.length

def recSizeDblks (r : JRec) : Nat := sizeDblks r.recSize

theorem recSizeDblks_pos (r : JRec) : 0 < r.recSizeDblks := by
  have h : 0 < r.recSize := by
    cases r with
    | enq _ _ _ _ external =>
      simp only [recSize, enqRecSize]
      split <;> omega
    | deq => simp only [recSize, deqRecSize]; omega
    | txa => simp only [recSize, txnRecSize]; omega
    | txc => simp only [recSize, txnRecSize]; omega
  unfold recSizeDblks sizeDblks sizeBlks jrnlDblkSize
  omega

end JRec

end RhmStore
