import RhmStore.Lib.Invert
import RhmStore.Lib.StateExcept
import RhmStore.Store.Config

/-! # The map of logical to physical files -/

namespace RhmStore

/-- The ids of an `fcntl`. -/
structure FileIds where
  lfid : Nat
  pfid : Nat
  deriving DecidableEq, Repr

/-- What `lpmgr` throws: codes of `jerrno`, a failed assertion, or what the function that creates an
`fcntl` throws. -/
inductive LpErr
  | badAeFnumLim
  | aeDisabled
  | aeFnumLimit
  | assertFailed
  | newObj
  deriving DecidableEq, Repr

/-- `lpmgr`. A null pointer of `_fcntl_arr` is `none`. -/
structure Lpmgr where
  ae : Bool
  aeMaxJfiles : Nat
  fcntlArr : List (Option FileIds)
  deriving DecidableEq, Repr

/-- The data that `lpmgr::recover` takes from `rcvdat`. -/
structure LpRcvdat where
  njf : Nat
  ae : Bool
  aemjf : Nat
  fidList : List Nat
  deriving DecidableEq, Repr

/-- `new_obj_fn_ptr`: whether the `fcntl` with this lfid and this pfid is created; else it throws. -/
abbrev NewObj := Nat → Nat → Bool

abbrev LpM := EStateM LpErr Lpmgr

namespace Lpmgr

def numJfiles (s : Lpmgr) : Nat := s.fcntlArr.length

def empty : Lpmgr := ⟨false, 0, []⟩

def newFcntl (fp : NewObj) (lfid pfid : Nat) : LpM FileIds :=
  if fp lfid pfid then pure ⟨lfid, pfid⟩ else throw .newObj

def modArr (f : List (Option FileIds) → List (Option FileIds)) : LpM Unit :=
  modify fun s => { s with fcntlArr := f s.fcntlArr }

def finalize : LpM Unit := set empty

/-- The loop of `append` for `k` files from `i` on. -/
def appendLoop (fp : NewObj) (i : Nat) : Nat → LpM Unit
  | 0 => pure ()
  | k + 1 => do
    let p ← newFcntl fp i i
    modArr (· ++ [some p])
    appendLoop fp (i + 1) k

def append (fp : NewObj) (numJfiles : Nat) : LpM Unit := do
  let s ← get
  if s.aeMaxJfiles ≠ 0 ∧ s.aeMaxJfiles < s.numJfiles + numJfiles then throw .aeFnumLimit
  else appendLoop fp s.numJfiles numJfiles

/-- `lpmgr::initialize`. -/
def init (numJfiles : Nat) (ae : Bool) (aeMaxJfiles : Nat) (fp : NewObj) : LpM Unit := do
  finalize
  if ae ∧ 0 < aeMaxJfiles ∧ aeMaxJfiles ≤ numJfiles then throw .badAeFnumLim
  else
    modify fun s => { s with ae := ae, aeMaxJfiles := aeMaxJfiles }
    append fp numJfiles

/-- The second loop of `recover` for `k` files from `pfid` on. Files that the list does not name have
their pfid for lfid. -/
def recoverLoop (fp : NewObj) (lfidList : List Nat) (pfid : Nat) : Nat → LpM Unit
  | 0 => pure ()
  | k + 1 => do
    let lfid := (lfidList[pfid]?).getD pfid
    let p ← newFcntl fp lfid pfid
    modArr fun arr => arr.set lfid (some p)
    recoverLoop fp lfidList (pfid + 1) k

def recover (rd : LpRcvdat) (fp : NewObj) : LpM Unit := do
  finalize
  if 0 < rd.aemjf ∧ rd.aemjf ≤ rd.njf then throw .badAeFnumLim
  else
    set { ae := rd.ae, aeMaxJfiles := rd.aemjf, fcntlArr := List.replicate rd.njf none : Lpmgr }
    recoverLoop fp (invert rd.fidList) 0 rd.njf

/-- `eff_ae_max_jfiles`. -/
def effAeMaxJfiles (s : Lpmgr) : Nat :=
  if s.aeMaxJfiles ≠ 0 then s.aeMaxJfiles else Store.jrnlMaxNumFiles

/-- The first loop of `insert` for `k` files. -/
def insertLoop (fp : NewObj) (lid pfid : Nat) : Nat → LpM Unit
  | 0 => pure ()
  | k + 1 => do
    let p ← newFcntl fp lid pfid
    modArr fun arr => arr.insertIdx lid (some p)
    insertLoop fp (lid + 1) (pfid + 1) k

/-- The second loop of `insert`, over the files from `lid` on. -/
def shiftLfids (lid numJfiles : Nat) (arr : List (Option FileIds)) : List (Option FileIds) :=
  arr.take lid ++ (arr.drop lid).map fun p => p.map fun f => { f with lfid := f.lfid + numJfiles }

def insert (afterLfid : Nat) (fp : NewObj) (numJfiles : Nat) : LpM Unit := do
  let s ← get
  if ¬afterLfid < s.numJfiles then throw .assertFailed
  else if ¬s.ae then throw .aeDisabled
  else if numJfiles = 0 then pure ()
  else if s.effAeMaxJfiles < s.numJfiles + numJfiles then throw .aeFnumLimit
  else
    insertLoop fp (afterLfid + 1) s.numJfiles numJfiles
    modArr (shiftLfids (afterLfid + numJfiles + 1) numJfiles)

def setAe (ae : Bool) : LpM Unit := do
  let s ← get
  if ae ∧ 0 < s.aeMaxJfiles ∧ s.aeMaxJfiles ≤ s.numJfiles then throw .badAeFnumLim
  else set { s with ae := ae }

def setAeMaxJfiles (aeMaxJfiles : Nat) : LpM Unit := do
  let s ← get
  if s.ae ∧ 0 < aeMaxJfiles ∧ aeMaxJfiles ≤ s.numJfiles then throw .badAeFnumLim
  else set { s with aeMaxJfiles := aeMaxJfiles }

/-- `get_pfid_list`. -/
def getPfidList (s : Lpmgr) : List Nat := s.fcntlArr.filterMap fun p => p.map FileIds.pfid

/-- `get_lfid_list`. -/
def getLfidList (s : Lpmgr) : List Nat := invert s.getPfidList

end Lpmgr

end RhmStore
