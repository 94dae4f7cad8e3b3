import RhmStore.Lib.MapWeight

/-! # The map of enqueued records -/

namespace RhmStore

open Std

/-- `--` on a `u_int32_t` counter, which wraps below zero. No counter of records of one file can
reach `2 ^ 32`, so `++` is `+ 1`. -/
def u32Decr (n : Nat) : Nat := if n = 0 then 2 ^ 32 - 1 else n - 1

/-- The negative return codes of `enq_map`. -/
inductive EmapErr
  | ridNotFound
  | locked
  | dupRid
  deriving DecidableEq, Repr

/-- `emap_data_struct`: the file of the record's header and its lock. -/
structure EmapData where
  pfid : Nat
  lock : Bool
  deriving DecidableEq, Repr

/-- `enq_map`: enqueued records by rid, and a counter for each file. -/
structure EnqMap where
  map : ExtTreeMap Nat EmapData
  pfidEnqCnt : List Nat

namespace EnqMap

def empty : EnqMap := ⟨∅, []⟩

/-- `std::vector::resize(num_jfiles, 0)` on the counters. -/
def setNumJfiles (m : EnqMap) (numJfiles : Nat) : EnqMap :=
  { m with pfidEnqCnt :=
      m.pfidEnqCnt.take numJfiles ++ List.replicate (numJfiles - m.pfidEnqCnt.length) 0 }

def clear (m : EnqMap) : EnqMap := { m with map := ∅ }

def insertPfid (m : EnqMap) (rid pfid : Nat) (locked : Bool) : Except EmapErr EnqMap :=
  match m.map[rid]? with
  | some _ => .error .dupRid
  | none => .ok ⟨m.map.insert rid ⟨pfid, locked⟩, m.pfidEnqCnt.modify pfid (· + 1)⟩

def getPfid (m : EnqMap) (rid : Nat) : Except EmapErr Nat :=
  match m.map[rid]? with
  | none => .error .ridNotFound
  | some d => if d.lock then .error .locked else .ok d.pfid

/-- A locked record is removed only for a commit or an abort (`txnFlag`). -/
def getRemovePfid (m : EnqMap) (rid : Nat) (txnFlag : Bool) : Except EmapErr (Nat × EnqMap) :=
  match m.map[rid]? with
  | none => .error .ridNotFound
  | some d =>
    if d.lock && !txnFlag then .error .locked
    else .ok (d.pfid, ⟨m.map.erase rid, m.pfidEnqCnt.modify d.pfid u32Decr⟩)

def isEnqueued (m : EnqMap) (rid : Nat) (ignoreLock : Bool) : Bool :=
  match m.map[rid]? with
  | none => false
  | some d => ignoreLock || !d.lock

def setLock (m : EnqMap) (rid : Nat) (b : Bool) : EnqMap :=
  { m with map := m.map.modify rid fun d => { d with lock := b } }

def lock (m : EnqMap) (rid : Nat) : Except EmapErr EnqMap :=
  match m.map[rid]? with
  | none => .error .ridNotFound
  | some _ => .ok (m.setLock rid true)

def unlock (m : EnqMap) (rid : Nat) : Except EmapErr EnqMap :=
  match m.map[rid]? with
  | none => .error .ridNotFound
  | some _ => .ok (m.setLock rid false)

def isLocked (m : EnqMap) (rid : Nat) : Except EmapErr Bool :=
  match m.map[rid]? with
  | none => .error .ridNotFound
  | some d => .ok d.lock

end EnqMap

end RhmStore
