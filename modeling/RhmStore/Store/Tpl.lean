import RhmStore.Jrnl.Replay

/-! # The transaction prepared list

The TPL is a journal of its own: an enqueue for a prepared transaction, with one byte of data that
says whether it is a two-phase one, and a dequeue with the outcome before its queues are told. -/

namespace RhmStore

open Std

/-- A record and its data. -/
structure DataRec where
  placed : Placed
  data : List UInt8
  deriving DecidableEq, Repr

def placeds (log : List DataRec) : List Placed := log.map DataRec.placed

inductive TplErr
  | assertFailed
  | aioTimeout
  | unexpectedRead
  deriving DecidableEq, Repr

/-- One call of `read_data_record`, as far as the switch over its result tells them apart. -/
inductive ReadRes
  | success (xid : Xid) (data : List UInt8)
  | pageAioWait
  | other
  deriving DecidableEq, Repr

structure TplRecoverStruct where
  rid : Nat
  deqFlag : Bool
  commitFlag : Bool
  tpcFlag : Bool
  deriving DecidableEq, Repr

/-- `std::map<std::string, TplRecoverStruct>`. -/
abbrev TplRecoverMap := ExtTreeMap Xid TplRecoverStruct

def maxAioSleeps : Nat := 100000

structure TplCount where
  rid : Nat
  enqCnt : Nat
  deqCnt : Nat
  commitFlag : Bool
  deriving DecidableEq, Repr

namespace TplCount

def start : TplCount := ⟨0, 0, 0, true⟩

def add (c : TplCount) (td : TxnData) : TplCount :=
  if td.enqFlag then { c with rid := td.rid, enqCnt := c.enqCnt + 1 }
  else { c with commitFlag := td.commitFlag, deqCnt := c.deqCnt + 1 }

end TplCount

/-- `std::map::insert` keeps an entry that exists. -/
def TplRecoverMap.insertNew (m : TplRecoverMap) (xid : Xid) (s : TplRecoverStruct) : TplRecoverMap :=
  if (m[xid]?).isSome then m else m.insert xid s

/-- The body of `readTplStore` for one record read. -/
def readTplRec (tmap : TxnMap) (m : TplRecoverMap) (e : Xid × List UInt8) : Except TplErr TplRecoverMap :=
  if e.2 = [] ∨ e.1 = [] then .error .assertFailed
  else
    let txnList := tmap.getTdataList e.1
    if txnList = [] then .ok m
    else
      let c := txnList.foldl TplCount.add TplCount.start
      if c.enqCnt = 1 ∧ c.deqCnt ≤ 1 then
        .ok (m.insertNew e.1 ⟨c.rid, c.deqCnt == 1, c.commitFlag, e.2.headD 0 != 0⟩)
      else .error .assertFailed

/-- The loop of `readTplStore` with `aio_sleep_cnt`. After the results listed comes
RHM_IORES_EMPTY. -/
def readTplLoop (tmap : TxnMap) : List ReadRes → Nat → TplRecoverMap → Except TplErr TplRecoverMap
  | [], _, m => .ok m
  | .success xid data :: rs, _, m => do readTplLoop tmap rs 0 (← readTplRec tmap m (xid, data))
  | .pageAioWait :: rs, cnt, m =>
    if maxAioSleeps < cnt + 1 then .error .aioTimeout else readTplLoop tmap rs (cnt + 1) m
  | .other :: _, _, _ => .error .unexpectedRead

def readTplStore (tmap : TxnMap) (rs : List ReadRes) : Except TplErr TplRecoverMap :=
  readTplLoop tmap rs 0 ∅

/-- The test of `rmgr::read` for an enqueue, with `ignore_pending_txns` as the TPL is read: records
of open transactions are read as well. -/
def rmgrReads (m : Maps) : JRec → Bool
  | .enq rid _ _ _ _ =>
    match m.emap.getPfid rid with
    | .ok _ => true
    | .error _ => m.tmap.isEnq rid
  | _ => false

def delivered (m : Maps) (log : List DataRec) : List (Xid × List UInt8) :=
  (log.filter fun w => rmgrReads m w.placed.jrec).map fun w => (w.placed.jrec.xid, w.data)

/-- The results of `read_data_record` deliver `es`, with fewer waits in a row than the limit. -/
inductive Delivers : Nat → List (Xid × List UInt8) → List ReadRes → Prop
  | done (cnt : Nat) : Delivers cnt [] []
  | wait {cnt : Nat} {es : List (Xid × List UInt8)} {rs : List ReadRes} :
      cnt + 1 ≤ maxAioSleeps → Delivers (cnt + 1) es rs → Delivers cnt es (.pageAioWait :: rs)
  | read {cnt : Nat} {es : List (Xid × List UInt8)} {rs : List ReadRes} (xid : Xid) (data : List UInt8) :
      Delivers 0 es rs → Delivers cnt ((xid, data) :: es) (.success xid data :: rs)

/-- The waits make no difference. -/
theorem readTplLoop_eq {cnt : Nat} {es : List (Xid × List UInt8)} {rs : List ReadRes}
    (h : Delivers cnt es rs) (tmap : TxnMap) (m : TplRecoverMap) :
    readTplLoop tmap rs cnt m = es.foldlM (readTplRec tmap) m := by
  induction h generalizing m with
  | done cnt => rfl
  | wait hle _ ih =>
    rw [readTplLoop, if_neg (Nat.not_lt.mpr hle)]
    exact ih m
  | read xid data _ ih =>
    rw [readTplLoop, List.foldlM_cons]
    cases readTplRec tmap m (xid, data) with
    | error e => rfl
    | ok m' => exact ih m'

def recoverLockedMappings (m : TplRecoverMap) : List Xid := m.keys

def collectPreparedXids (m : TplRecoverMap) : List Xid :=
  (m.toList.filter fun p => !p.2.deqFlag && p.2.tpcFlag).map (·.1)

/-- Where a transaction stands in the TPL. -/
inductive TplState
  | absent
  | enqueued (rid : Nat) (tpc : Bool)
  | dequeued (rid : Nat) (tpc commit : Bool)
  deriving DecidableEq, Repr

namespace TplState

/-- What `readTplStore` is to find out about it. -/
def recovered : TplState → Option TplRecoverStruct
  | absent => none
  | enqueued rid tpc => some ⟨rid, false, true, tpc⟩
  | dequeued rid tpc commit => some ⟨rid, true, commit, tpc⟩

def openRid : TplState → Option Nat
  | absent => none
  | enqueued rid _ => some rid
  | dequeued rid _ _ => some rid

/-- The effect of a record on the transaction `x`. -/
def next (x : Xid) (s : TplState) (w : DataRec) : TplState :=
  match w.placed.jrec with
  | .enq rid xid _ _ _ => if xid = x then .enqueued rid (w.data.headD 0 != 0) else s
  | .deq _ _ xid commit =>
    if xid = x then
      match s with
      | .enqueued rid tpc => .dequeued rid tpc commit
      | s => s
    else s
  | .txa _ xid => if xid = x then .absent else s
  | .txc _ xid => if xid = x then .absent else s

end TplState

/-- Where `x` stands after the records of a log. -/
def tplState (x : Xid) (log : List DataRec) : TplState := log.foldl (TplState.next x) .absent

theorem tplState_concat (x : Xid) (log : List DataRec) (w : DataRec) :
    tplState x (log ++ [w]) = (tplState x log).next x w := by
  simp [tplState]

def dataRids (log : List DataRec) : List Nat := log.map (·.placed.jrec.rid)

/-- A record that the store can add to its TPL: the prepare of a transaction that is not open, the
dequeue of a prepared one, the commit or abort of one that was dequeued. -/
inductive TplAdds (log : List DataRec) : DataRec → Prop
  | prepare (rid : Nat) (x : Xid) (fid : Nat) (tpc : Bool) : x ≠ [] → tplState x log = .absent →
      TplAdds log ⟨⟨.enq rid x 1 false false, fid⟩, [if tpc then 1 else 0]⟩
  | dequeue (rid erid : Nat) (x : Xid) (commit : Bool) (fid : Nat) (tpc : Bool) :
      tplState x log = .enqueued erid tpc → TplAdds log ⟨⟨.deq rid erid x commit, fid⟩, []⟩
  | commit (rid : Nat) (x : Xid) (fid erid : Nat) (tpc c : Bool) :
      tplState x log = .dequeued erid tpc c → TplAdds log ⟨⟨.txc rid x, fid⟩, []⟩
  | abort (rid : Nat) (x : Xid) (fid erid : Nat) (tpc c : Bool) :
      tplState x log = .dequeued erid tpc c → TplAdds log ⟨⟨.txa rid x, fid⟩, []⟩

/-- A history of the TPL, any number of transactions interleaved. -/
inductive TplHist : List DataRec → Prop
  | nil : TplHist []
  | concat {log : List DataRec} {w : DataRec} : TplHist log → w.placed.jrec.rid ∉ dataRids log →
      TplAdds log w → TplHist (log ++ [w])

end RhmStore
