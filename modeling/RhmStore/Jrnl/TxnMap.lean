import RhmStore.Jrnl.EnqMap

/-! # The map of open transactions -/

namespace RhmStore

open Std

/-- A transaction id: `std::string`, bytes compared as unsigned. -/
abbrev Xid := List UInt8

instance : DecidableEq Xid := inferInstanceAs (DecidableEq (List UInt8))

instance : LawfulBEq Xid := inferInstanceAs (LawfulBEq (List UInt8))

/-- `txn_data_struct`: one operation of an open transaction. -/
structure TxnData where
  rid : Nat
  drid : Nat
  pfid : Nat
  enqFlag : Bool
  commitFlag : Bool := false
  aioCompl : Bool := false
  deriving DecidableEq, Repr

inductive TmapErr
  | xidNotFound
  | ridNotFound
  deriving DecidableEq, Repr

/-- `txn_map`: the operations of each open transaction, and a counter for each file. -/
structure TxnMap where
  map : ExtTreeMap Xid (List TxnData)
  pfidTxnCnt : List Nat

namespace TxnMap

def empty : TxnMap := ⟨∅, []⟩

def setNumJfiles (m : TxnMap) (numJfiles : Nat) : TxnMap :=
  { m with pfidTxnCnt :=
      m.pfidTxnCnt.take numJfiles ++ List.replicate (numJfiles - m.pfidTxnCnt.length) 0 }

def clear (m : TxnMap) : TxnMap := { m with map := ∅ }

def insertTxnData (m : TxnMap) (xid : Xid) (td : TxnData) : TxnMap :=
  ⟨match m.map[xid]? with
    | none => m.map.insert xid [td]
    | some _ => m.map.modify xid (· ++ [td]),
   m.pfidTxnCnt.modify td.pfid (· + 1)⟩

def getTdataList (m : TxnMap) (xid : Xid) : List TxnData := (m.map[xid]?).getD []

def getRemoveTdataList (m : TxnMap) (xid : Xid) : List TxnData × TxnMap :=
  match m.map[xid]? with
  | none => ([], m)
  | some tdl =>
    (tdl, ⟨m.map.erase xid, tdl.foldl (fun c td => c.modify td.pfid u32Decr) m.pfidTxnCnt⟩)

/-- `some true` is TMAP_SYNCED, `some false` TMAP_NOT_SYNCED, `none` TMAP_XID_NOT_FOUND. -/
def isTxnSynced (m : TxnMap) (xid : Xid) : Option Bool :=
  (m.map[xid]?).map fun tdl => tdl.all (·.aioCompl)

def markAioCompl (rid : Nat) : List TxnData → List TxnData
  | [] => []
  | td :: tdl =>
    if td.rid = rid then { td with aioCompl := true } :: tdl else td :: markAioCompl rid tdl

def setAioCompl (m : TxnMap) (xid : Xid) (rid : Nat) : Except TmapErr TxnMap :=
  match m.map[xid]? with
  | none => .error .xidNotFound
  | some tdl =>
    if tdl.any (·.rid == rid) then .ok { m with map := m.map.modify xid (markAioCompl rid) }
    else .error .ridNotFound

def dataExists (m : TxnMap) (xid : Xid) (rid : Nat) : Bool :=
  (m.getTdataList xid).any (·.rid == rid)

def isEnq (m : TxnMap) (rid : Nat) : Bool :=
  m.map.toList.any fun p => p.2.any fun td => if td.enqFlag then td.rid == rid else td.drid == rid

def xidList (m : TxnMap) : List Xid := m.map.keys

end TxnMap

end RhmStore
