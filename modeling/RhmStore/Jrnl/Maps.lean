import RhmStore.Lib.StateExcept
import RhmStore.Jrnl.Record

/-! # The effect of a complete record on the maps of a running journal -/

namespace RhmStore

/-- The codes of `jerrno` (and failed assertions) that the modelled code throws. -/
inductive JErr
  | underflow
  | fileIo
  | owiMismatch
  | fileOffsOvfl
  | cmplOffsOvfl
  | badPgState
  | badDtokState
  | enqDiscont
  | deqDiscont
  | deqRidNotEnq
  | mapDuplicate
  | mapNotFound
  | mapLocked
  | jdatEmpty
  | owiBad
  | assertFailed
  deriving DecidableEq, Repr

/-- `_emap`, `_tmap` and the enqueued records of each file: in a running journal `_rec_enqcnt` of
its `fcntl`, in a recovery its entry in `_enq_cnt_list`. -/
structure Maps where
  emap : EnqMap
  tmap : TxnMap
  enqCnt : List Nat

abbrev MapsM := EStateM JErr Maps

namespace Maps

/-- The maps of a journal of `n` files just initialised. -/
def init (n : Nat) : Maps :=
  ⟨EnqMap.empty.setNumJfiles n, TxnMap.empty.setNumJfiles n, List.replicate n 0⟩

def incrEnqcnt (fid : Nat) : MapsM Unit :=
  modify fun m => { m with enqCnt := m.enqCnt.modify fid (· + 1) }

/-- `fcntl::decr_enqcnt`. -/
def decrEnqcnt (fid : Nat) : MapsM Unit := do
  let m ← get
  if m.enqCnt.getD fid 0 = 0 then throw .underflow
  else set { m with enqCnt := m.enqCnt.modify fid (· - 1) }

def insertTxnData (xid : Xid) (td : TxnData) : MapsM Unit :=
  modify fun m => { m with tmap := m.tmap.insertTxnData xid td }

def getRemoveTdataList (xid : Xid) : MapsM (List TxnData) := do
  let m ← get
  let (tdl, tmap) := m.tmap.getRemoveTdataList xid
  set { m with tmap := tmap }
  pure tdl

/-- `enq_map::insert_pfid`, whose only error code is thrown as JERR_MAP_DUPLICATE. -/
def insertPfid (rid pfid : Nat) : MapsM Unit := do
  let m ← get
  match m.emap.insertPfid rid pfid false with
  | .ok emap => set { m with emap := emap }
  | .error _ => throw .mapDuplicate

/-- `enq_map::get_remove_pfid`, with its error codes thrown. -/
def getRemovePfid (rid : Nat) (txnFlag : Bool) : MapsM Nat := do
  let m ← get
  match m.emap.getRemovePfid rid txnFlag with
  | .ok (fid, emap) => set { m with emap := emap }; pure fid
  | .error .locked => throw .mapLocked
  | .error _ => throw .mapNotFound

/-- `enq_map::lock`, a rid not found is ignored. -/
def lock (rid : Nat) : MapsM Unit :=
  modify fun m => { m with emap := (m.emap.lock rid).toOption.getD m.emap }

/-- `enq_map::unlock`, a rid not found is ignored. -/
def unlock (rid : Nat) : MapsM Unit :=
  modify fun m => { m with emap := (m.emap.unlock rid).toOption.getD m.emap }

/-- `wmgr::enqueue` once the last dblk is encoded. -/
def enqueueComplete (rid : Nat) (xid : Xid) (fid : Nat) : MapsM Unit := do
  incrEnqcnt fid
  if xid ≠ [] then insertTxnData xid { rid := rid, drid := 0, pfid := fid, enqFlag := true }
  else insertPfid rid fid

/-- `wmgr::dequeue_check`. -/
def dequeueCheck (xid : Xid) (drid : Nat) : MapsM Unit := do
  let m ← get
  match m.emap.getPfid drid with
  | .ok _ => pure ()
  | .error .locked => throw .mapLocked
  | .error _ => if xid ≠ [] ∧ m.tmap.dataExists xid drid then pure () else throw .deqRidNotEnq

/-- `wmgr::dequeue` once the last dblk is encoded. -/
def dequeueComplete (rid drid : Nat) (xid : Xid) (fid : Nat) : MapsM Unit := do
  if xid ≠ [] then
    lock drid
    insertTxnData xid { rid := rid, drid := drid, pfid := fid, enqFlag := false }
  else
    let efid ← getRemovePfid drid false
    decrEnqcnt efid

def abortEntry (td : TxnData) : MapsM Unit := do
  if td.enqFlag then decrEnqcnt td.pfid else unlock td.drid

/-- `wmgr::abort` once the last dblk is encoded. -/
def abortComplete (xid : Xid) : MapsM Unit := do
  let tdl ← getRemoveTdataList xid
  tdl.forM abortEntry

def commitEntry (td : TxnData) : MapsM Unit := do
  if td.enqFlag then insertPfid td.rid td.pfid
  else
    let efid ← getRemovePfid td.drid true
    decrEnqcnt efid

/-- `wmgr::commit` once the last dblk is encoded. -/
def commitComplete (xid : Xid) : MapsM Unit := do
  let tdl ← getRemoveTdataList xid
  tdl.forM commitEntry

/-- The effect of a record of a running journal, its header in file `fid`. -/
def complete (fid : Nat) : JRec → MapsM Unit
  | .enq rid xid _ _ _ => enqueueComplete rid xid fid
  | .deq rid drid xid _ => dequeueComplete rid drid xid fid
  | .txa _ xid => abortComplete xid
  | .txc _ xid => commitComplete xid

end Maps

end RhmStore
