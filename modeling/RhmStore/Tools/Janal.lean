import RhmStore.Jrnl.Replay

/-! # The offline reader of `janal.py` -/

namespace RhmStore

namespace Janal

open Std

/-- The errors of `jerr` that the maps of the reader raise. -/
inductive Err
  | duplicateRidError
  | deleteLockedRecordError
  | alreadyLockedError
  | notLockedError
  | nonExistentRecordError
  | invalidRecordTypeError
  | jWarning
  deriving DecidableEq, Repr

/-- `[fid, hdr, lock]`. -/
structure Entry where
  fid : Nat
  hdr : JRec
  lock : Bool
  deriving DecidableEq, Repr

/-- `except jerr.JWarning`: the maps stay as they were. -/
def exceptJWarning {α : Type} (x : Except Err α) (a : α) : Except Err α :=
  match x with
  | .error .jWarning => .ok a
  | y => y

/-- `EnqMap`. -/
structure EnqMap where
  map : ExtTreeMap Nat Entry

namespace EnqMap

def add (m : EnqMap) (fid : Nat) (hdr : JRec) (lock : Bool) : Except Err EnqMap :=
  match m.map[hdr.rid]? with
  | some _ => .error .duplicateRidError
  | none => .ok ⟨m.map.insert hdr.rid ⟨fid, hdr, lock⟩⟩

def contains (m : EnqMap) (rid : Nat) : Bool := (m.map[rid]?).isSome

def delete (m : EnqMap) (rid : Nat) : Except Err EnqMap :=
  match m.map[rid]? with
  | some e => if e.lock then .error .deleteLockedRecordError else .ok ⟨m.map.erase rid⟩
  | none => .error .jWarning

def setLock (m : EnqMap) (rid : Nat) (b : Bool) : EnqMap :=
  ⟨m.map.modify rid fun e => { e with lock := b }⟩

def lock (m : EnqMap) (rid : Nat) : Except Err EnqMap :=
  match m.map[rid]? with
  | some e => if e.lock then .error .alreadyLockedError else .ok (m.setLock rid true)
  | none => .error .jWarning

def unlock (m : EnqMap) (rid : Nat) : Except Err EnqMap :=
  match m.map[rid]? with
  | some e => if e.lock then .ok (m.setLock rid false) else .error .notLockedError
  | none => .error .nonExistentRecordError

end EnqMap

/-- `TxnMap`, with the `EnqMap` it is constructed with. -/
structure TxnMap where
  emap : EnqMap
  map : ExtTreeMap Xid (List Entry)

namespace TxnMap

def contains (m : TxnMap) (xid : Xid) : Bool := (m.map[xid]?).isSome

def get (m : TxnMap) (xid : Xid) : List Entry := (m.map[xid]?).getD []

/-- `find_rid`, with the xid under which the entry was found. The order in which the other xids are
searched is that of a `dict`. -/
def findRid (m : TxnMap) (rid : Nat) (xidHint : Xid) : Option (Xid × Entry) :=
  match (m.get xidHint).find? (·.hdr.rid == rid) with
  | some l => some (xidHint, l)
  | none => m.map.toList.findSome? fun p =>
      if p.1 = xidHint then none else (p.2.find? (·.hdr.rid == rid)).map (p.1, ·)

/-- `l[2] = True` on the first entry with this rid. -/
def lockEntry (rid : Nat) : List Entry → List Entry
  | [] => []
  | l :: ls => if l.hdr.rid = rid then { l with lock := true } :: ls else l :: lockEntry rid ls

/-- The end of `add`: a new entry for the xid. -/
def append (m : TxnMap) (fid : Nat) (hdr : JRec) : TxnMap :=
  { m with map := m.map.insert hdr.xid (m.get hdr.xid ++ [⟨fid, hdr, false⟩]) }

/-- The record that a dequeue names is locked, in the `EnqMap` or else where `find_rid` finds it. -/
def lockTarget (m : TxnMap) (drid : Nat) (xid : Xid) : Except Err TxnMap :=
  match m.emap.lock drid with
  | .ok emap => .ok { m with emap := emap }
  | .error .jWarning =>
    match m.findRid drid xid with
    | none => .ok m
    | some (x, l) =>
      if l.lock then .error .alreadyLockedError
      else .ok { m with map := m.map.modify x (lockEntry drid) }
  | .error e => .error e

def add (m : TxnMap) (fid : Nat) (hdr : JRec) : Except Err TxnMap :=
  match hdr with
  | .deq _ drid xid _ => do
    let m ← m.lockTarget drid xid
    pure (m.append fid hdr)
  | _ => pure (m.append fid hdr)

def abortEntry (emap : EnqMap) (l : Entry) : Except Err EnqMap :=
  match l.hdr with
  | .deq _ drid _ _ => emap.unlock drid
  | _ => pure emap

/-- `_abort`. -/
def abort (m : TxnMap) (xid : Xid) : Except Err TxnMap := do
  let emap ← (m.get xid).foldlM abortEntry m.emap
  pure ⟨emap, m.map.erase xid⟩

def commitEntry (p : EnqMap × List Nat) (l : Entry) : Except Err (EnqMap × List Nat) :=
  match l.hdr with
  | .deq _ drid _ _ =>
    if p.1.contains drid then do
      let emap ← p.1.unlock drid
      let emap ← emap.delete drid
      pure (emap, p.2)
    else pure (p.1, p.2 ++ [drid])
  | hdr => do
    let emap ← p.1.add l.fid hdr l.lock
    pure (emap, p.2)

/-- `_commit`, with the mismatch list. -/
def commit (m : TxnMap) (xid : Xid) : Except Err (TxnMap × List Nat) := do
  let p ← (m.get xid).foldlM commitEntry (m.emap, [])
  pure (⟨p.1, m.map.erase xid⟩, p.2)

def delete (m : TxnMap) (hdr : JRec) : Except Err (TxnMap × List Nat) :=
  match hdr with
  | .txc _ xid => m.commit xid
  | .txa _ xid => do
    let m ← m.abort xid
    pure (m, [])
  | _ => .error .invalidRecordTypeError

end TxnMap

/-- `JrnlReader`: the maps, the transaction objects, the counters, and the rids that commits did not
find (the warnings else are text). -/
structure JrnlReader where
  tmap : TxnMap
  txnObjList : ExtTreeMap Xid JRec
  abortCnt : Nat
  commitCnt : Nat
  msgCnt : Nat
  recCnt : Nat
  txnMsgCnt : Nat
  mismatched : List Nat

namespace JrnlReader

/-- `JrnlReader.__init__`. -/
def init : JrnlReader := ⟨⟨⟨∅⟩, ∅⟩, ∅, 0, 0, 0, 0, 0, []⟩

/-- `_handle_enq_rec` on a loaded record. -/
def handleEnqRec (r : JrnlReader) (fid : Nat) (hdr : JRec) : Except Err JrnlReader :=
  if hdr.xid = [] then do
    let emap ← r.tmap.emap.add fid hdr false
    pure { r with tmap.emap := emap, msgCnt := r.msgCnt + 1 }
  else do
    let tmap ← r.tmap.add fid hdr
    pure { r with tmap := tmap, txnMsgCnt := r.txnMsgCnt + 1, msgCnt := r.msgCnt + 1 }

/-- `_handle_deq_rec` on a loaded record. -/
def handleDeqRec (r : JrnlReader) (fid : Nat) (hdr : JRec) (drid : Nat) : Except Err JrnlReader :=
  if hdr.xid = [] then do
    let emap ← exceptJWarning (r.tmap.emap.delete drid) r.tmap.emap
    pure { r with tmap.emap := emap }
  else do
    let tmap ← exceptJWarning (r.tmap.add fid hdr) r.tmap
    pure { r with tmap := tmap }

def closeTxn (m : TxnMap) (hdr : JRec) : Except Err (TxnMap × List Nat) :=
  if m.contains hdr.xid then m.delete hdr else pure (m, [])

/-- `_handle_txn_rec` on a loaded record. -/
def handleTxnRec (r : JrnlReader) (hdr : JRec) (commit : Bool) : Except Err JrnlReader := do
  let r := if commit then { r with commitCnt := r.commitCnt + 1 }
    else { r with abortCnt := r.abortCnt + 1 }
  let p ← closeTxn r.tmap hdr
  pure { r with
    tmap := p.1
    mismatched := r.mismatched ++ p.2
    txnObjList := if commit then r.txnObjList.insert hdr.xid hdr else r.txnObjList }

/-- `_get_next_record` on a complete record of the journal that ends in file `fid`. -/
def getNextRecord (r : JrnlReader) (p : Placed) : Except Err JrnlReader :=
  let r := { r with recCnt := r.recCnt + 1 }
  match p.jrec with
  | .enq .. => r.handleEnqRec p.fid p.jrec
  | .deq _ drid _ _ => r.handleDeqRec p.fid p.jrec drid
  | .txa .. => r.handleTxnRec p.jrec false
  | .txc .. => r.handleTxnRec p.jrec true

/-- `run` over the records of the journal. -/
def run (log : List Placed) : Except Err JrnlReader := log.foldlM getNextRecord init

end JrnlReader

end Janal

end RhmStore
