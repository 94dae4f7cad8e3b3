import RhmStore.Jrnl.Maps

/-! # The effect of a record on the maps of a recovery -/

namespace RhmStore

namespace Maps

/-- `rd._enq_cnt_list[fid]--`. -/
def decrEnqCntList (fid : Nat) : MapsM Unit :=
  modify fun m => { m with enqCnt := m.enqCnt.modify fid u32Decr }

/-- `set_aio_compl`, with its error codes thrown. -/
def setAioCompl (xid : Xid) (rid : Nat) : MapsM Unit := do
  let m ← get
  match m.tmap.setAioCompl xid rid with
  | .ok tmap => set { m with tmap := tmap }
  | .error _ => throw .mapNotFound

/-- `get_remove_pfid` for a commit or a plain dequeue, a rid not found is ignored. -/
def rcvrRemove (drid : Nat) : MapsM Unit := do
  let m ← get
  match m.emap.getRemovePfid drid true with
  | .ok (efid, emap) => do
    set { m with emap := emap }
    decrEnqCntList efid
  | .error _ => pure ()

def rcvrEnq (rid : Nat) (xid : Xid) (transient : Bool) (fid : Nat) : MapsM Unit := do
  if transient then pure ()
  else
    incrEnqcnt fid
    if xid ≠ [] then
      insertTxnData xid { rid := rid, drid := 0, pfid := fid, enqFlag := true }
      setAioCompl xid rid
    else insertPfid rid fid

def rcvrDeq (rid drid : Nat) (xid : Xid) (commit : Bool) (fid : Nat) : MapsM Unit := do
  if xid ≠ [] then
    lock drid
    insertTxnData xid
      { rid := rid, drid := drid, pfid := fid, enqFlag := false, commitFlag := commit }
    setAioCompl xid rid
  else rcvrRemove drid

def rcvrAbortEntry (td : TxnData) : MapsM Unit := do
  if td.enqFlag then decrEnqCntList td.pfid else unlock td.drid

def rcvrAbort (xid : Xid) : MapsM Unit := do
  let tdl ← getRemoveTdataList xid
  tdl.forM rcvrAbortEntry

def rcvrCommitEntry (td : TxnData) : MapsM Unit := do
  if td.enqFlag then insertPfid td.rid td.pfid else rcvrRemove td.drid

def rcvrCommit (xid : Xid) : MapsM Unit := do
  let tdl ← getRemoveTdataList xid
  tdl.forM rcvrCommitEntry

/-- The switch of `jcntl::rcvr_get_next_record` on a decoded record with its header in `fid`. -/
def rcvrRecord (fid : Nat) : JRec → MapsM Unit
  | .enq rid xid _ transient _ => rcvrEnq rid xid transient fid
  | .deq rid drid xid commit => rcvrDeq rid drid xid commit fid
  | .txa _ xid => rcvrAbort xid
  | .txc _ xid => rcvrCommit xid

def discardEntry (td : TxnData) : MapsM Unit := do
  if td.enqFlag then decrEnqCntList td.pfid
  else
    let m ← get
    if m.emap.isEnqueued td.drid true then
      match m.emap.unlock td.drid with
      | .ok emap => set { m with emap := emap }
      | .error _ => throw .mapNotFound
    else pure ()

/-- The loop of `jcntl::rcvr_janalyze` over the transactions not in the prepared list. -/
def discard (prepared : List Xid) : MapsM Unit := do
  let m ← get
  m.tmap.xidList.forM fun xid =>
    if xid ∈ prepared then pure ()
    else do
      let tdl ← getRemoveTdataList xid
      tdl.forM discardEntry

end Maps

structure Placed where
  jrec : JRec
  fid : Nat
  deriving DecidableEq, Repr

def replay (log : List Placed) : MapsM Unit := log.forM fun p => Maps.rcvrRecord p.fid p.jrec

end RhmStore
