import RhmStore.Jrnl.Replay
import Mathlib.Logic.Function.Basic

/-! # What the maps of a journal mean

The maps without their counters and flags of completion. A live operation and the replay of its
record have the same effect on them, `View.apply`. -/

namespace RhmStore

open Std

def TxnData.core (td : TxnData) : TxnData := { td with commitFlag := false, aioCompl := false }

/-- Enqueued records by rid and the operations of each open transaction. -/
@[ext] structure View where
  enq : Nat → Option EmapData
  opn : Xid → List TxnData

namespace View

def empty : View := ⟨fun _ => none, fun _ => []⟩

def insert (v : View) (rid fid : Nat) : View :=
  { v with enq := Function.update v.enq rid (some ⟨fid, false⟩) }

def remove (v : View) (rid : Nat) : View := { v with enq := Function.update v.enq rid none }

def setLock (v : View) (rid : Nat) (b : Bool) : View :=
  { v with enq := Function.update v.enq rid ((v.enq rid).map fun d => { d with lock := b }) }

def push (v : View) (xid : Xid) (td : TxnData) : View :=
  { v with opn := Function.update v.opn xid (v.opn xid ++ [td]) }

def close (v : View) (xid : Xid) : View := { v with opn := Function.update v.opn xid [] }

def abortEntry (v : View) (td : TxnData) : View :=
  if td.enqFlag then v else v.setLock td.drid false

def commitEntry (v : View) (td : TxnData) : View :=
  if td.enqFlag then v.insert td.rid td.pfid else v.remove td.drid

/-- The effect of a record whose header is in file `fid`. -/
def apply (v : View) (fid : Nat) : JRec → View
  | .enq rid xid _ _ _ =>
    if xid = [] then v.insert rid fid
    else v.push xid { rid := rid, drid := 0, pfid := fid, enqFlag := true }
  | .deq rid drid xid _ =>
    if xid = [] then v.remove drid
    else (v.setLock drid true).push xid { rid := rid, drid := drid, pfid := fid, enqFlag := false }
  | .txa _ xid => (v.opn xid).foldl abortEntry (v.close xid)
  | .txc _ xid => (v.opn xid).foldl commitEntry (v.close xid)

def applyAll (v : View) (log : List Placed) : View :=
  log.foldl (fun v p => v.apply p.fid p.jrec) v

@[simp] theorem applyAll_nil (v : View) : v.applyAll [] = v := rfl

theorem applyAll_concat (v : View) (l : List Placed) (p : Placed) :
    v.applyAll (l ++ [p]) = (v.applyAll l).apply p.fid p.jrec := by
  simp [applyAll]

end View

namespace Maps

def view (m : Maps) : View :=
  ⟨fun rid => m.emap.map[rid]?, fun xid => (m.tmap.getTdataList xid).map TxnData.core⟩

variable {m m' : Maps}

theorem view_incrEnqcnt (fid : Nat) (h : incrEnqcnt fid m = .ok () m') : m'.view = m.view := by
  cases h
  rfl

theorem view_decrEnqcnt (fid : Nat) (h : decrEnqcnt fid m = .ok () m') : m'.view = m.view := by
  simp only [decrEnqcnt, ok_get_bind] at h
  split at h
  · exact (ok_throw.mp h).elim
  · rw [ok_set] at h
    subst h
    rfl

theorem view_decrEnqCntList (fid : Nat) (h : decrEnqCntList fid m = .ok () m') :
    m'.view = m.view := by
  cases h
  rfl

theorem getTdataList_insertTxnData (t : TxnMap) (xid x : Xid) (td : TxnData) :
    (t.insertTxnData xid td).getTdataList x =
      if x = xid then t.getTdataList xid ++ [td] else t.getTdataList x := by
  unfold TxnMap.getTdataList TxnMap.insertTxnData
  cases h : t.map[xid]? with
  | none =>
    by_cases hx : x = xid
    · simp [hx]
    · simp [mapGet_insert, hx]
  | some tdl =>
    by_cases hx : x = xid
    · simp [hx, h]
    · simp [mapGet_modify, hx]

theorem view_insertTxnData (xid : Xid) (td : TxnData) (h : insertTxnData xid td m = .ok () m') :
    m'.view = m.view.push xid td.core := by
  cases h
  ext1
  · rfl
  · funext x
    simp only [view, View.push, getTdataList_insertTxnData]
    by_cases hx : x = xid
    · subst hx; simp
    · simp [hx]

theorem getTdataList_getRemove (t : TxnMap) (xid x : Xid) :
    (t.getRemoveTdataList xid).2.getTdataList x =
      if x = xid then [] else t.getTdataList x := by
  unfold TxnMap.getTdataList TxnMap.getRemoveTdataList
  cases h : t.map[xid]? with
  | none =>
    by_cases hx : x = xid
    · simp [hx, h]
    · simp [hx]
  | some tdl =>
    by_cases hx : x = xid
    · simp [hx]
    · simp [mapGet_erase, hx]

theorem getRemoveTdataList_fst (t : TxnMap) (xid : Xid) :
    (t.getRemoveTdataList xid).1 = t.getTdataList xid := by
  unfold TxnMap.getTdataList TxnMap.getRemoveTdataList
  cases t.map[xid]? <;> rfl

theorem ok_getRemoveTdataList (xid : Xid) {tdl : List TxnData}
    (h : getRemoveTdataList xid m = .ok tdl m') :
    tdl = m.tmap.getTdataList xid ∧ m'.view = m.view.close xid ∧ m'.enqCnt = m.enqCnt ∧
      m'.emap = m.emap ∧ m'.tmap = (m.tmap.getRemoveTdataList xid).2 := by
  simp only [getRemoveTdataList, ok_get_bind, ok_set_bind, ok_pure] at h
  obtain ⟨rfl, rfl⟩ := h
  refine ⟨getRemoveTdataList_fst _ _, ?_, rfl, rfl, rfl⟩
  ext1
  · rfl
  · funext x
    simp only [view, View.close, getTdataList_getRemove]
    by_cases hx : x = xid
    · subst hx; simp
    · simp [hx]

theorem view_insertPfid (rid pfid : Nat) (h : insertPfid rid pfid m = .ok () m') :
    m'.view = m.view.insert rid pfid := by
  simp only [insertPfid, ok_get_bind] at h
  cases hr : m.emap.map[rid]? with
  | some d =>
    simp only [EnqMap.insertPfid, hr] at h
    exact (ok_throw.mp h).elim
  | none =>
    simp only [EnqMap.insertPfid, hr, ok_set] at h
    subst h
    ext1
    · funext a
      simp only [view, View.insert, mapGet_insert]
      by_cases ha : a = rid
      · subst ha; simp
      · simp [ha]
    · rfl

theorem view_getRemovePfid (rid : Nat) (txnFlag : Bool) {fid : Nat}
    (h : getRemovePfid rid txnFlag m = .ok fid m') :
    m'.view = m.view.remove rid ∧
      ∃ d, m.emap.map[rid]? = some d ∧ d.pfid = fid ∧ (txnFlag = false → d.lock = false) := by
  simp only [getRemovePfid, ok_get_bind] at h
  cases hr : m.emap.map[rid]? with
  | none =>
    simp only [EnqMap.getRemovePfid, hr] at h
    exact (ok_throw.mp h).elim
  | some d =>
    by_cases hl : (d.lock && !txnFlag) = true
    · simp only [EnqMap.getRemovePfid, hr, hl, if_true] at h
      exact (ok_throw.mp h).elim
    · simp only [EnqMap.getRemovePfid, hr, hl, Bool.false_eq_true, if_false] at h
      rw [ok_set_bind] at h
      obtain ⟨rfl, rfl⟩ := ok_pure.mp h
      refine ⟨?_, d, rfl, rfl, ?_⟩
      · ext1
        · funext a
          simp only [view, View.remove, mapGet_erase]
          by_cases ha : a = rid
          · subst ha; simp
          · simp [ha]
        · rfl
      · intro ht
        simpa [ht] using hl

private theorem view_setLock (rid : Nat) (b : Bool) :
    ({ m with emap := m.emap.setLock rid b } : Maps).view = m.view.setLock rid b := by
  ext1
  · funext a
    simp only [view, View.setLock, EnqMap.setLock, mapGet_modify]
    by_cases ha : a = rid
    · subst ha; simp
    · simp [ha]
  · rfl

theorem setLock_of_none (v : View) (rid : Nat) (b : Bool) (h : v.enq rid = none) :
    v.setLock rid b = v := by
  ext1
  · funext a
    simp only [View.setLock]
    by_cases ha : a = rid
    · subst ha; simp [h]
    · simp [ha]
  · rfl

theorem view_lock (rid : Nat) (h : lock rid m = .ok () m') :
    m'.view = m.view.setLock rid true := by
  cases h
  cases hr : m.emap.map[rid]? with
  | none =>
    rw [setLock_of_none _ _ _ hr]
    simp [EnqMap.lock, hr, view, Except.toOption]
  | some d =>
    simp only [EnqMap.lock, hr, Except.toOption, Option.getD_some]
    exact view_setLock rid true

theorem view_unlock (rid : Nat) (h : unlock rid m = .ok () m') :
    m'.view = m.view.setLock rid false := by
  cases h
  cases hr : m.emap.map[rid]? with
  | none =>
    rw [setLock_of_none _ _ _ hr]
    simp [EnqMap.unlock, hr, view, Except.toOption]
  | some d =>
    simp only [EnqMap.unlock, hr, Except.toOption, Option.getD_some]
    exact view_setLock rid false

theorem view_abortEntry (td : TxnData) (h : abortEntry td m = .ok () m') :
    m'.view = m.view.abortEntry td.core := by
  unfold abortEntry at h
  unfold View.abortEntry TxnData.core
  by_cases he : td.enqFlag
  · simp only [he, if_true] at h ⊢
    exact view_decrEnqcnt _ h
  · simp only [he, Bool.false_eq_true, if_false] at h ⊢
    exact view_unlock _ h

theorem view_rcvrAbortEntry (td : TxnData) (h : rcvrAbortEntry td m = .ok () m') :
    m'.view = m.view.abortEntry td.core := by
  unfold rcvrAbortEntry at h
  unfold View.abortEntry TxnData.core
  by_cases he : td.enqFlag
  · simp only [he, if_true] at h ⊢
    exact view_decrEnqCntList _ h
  · simp only [he, Bool.false_eq_true, if_false] at h ⊢
    exact view_unlock _ h

theorem view_commitEntry (td : TxnData) (h : commitEntry td m = .ok () m') :
    m'.view = m.view.commitEntry td.core := by
  unfold commitEntry at h
  unfold View.commitEntry TxnData.core
  by_cases he : td.enqFlag
  · simp only [he, if_true] at h ⊢
    exact view_insertPfid _ _ h
  · simp only [he, Bool.false_eq_true, if_false] at h ⊢
    obtain ⟨fid, m₁, h₁, h₂⟩ := ok_bind.mp h
    rw [view_decrEnqcnt _ h₂]
    exact (view_getRemovePfid _ _ h₁).1

theorem remove_of_none (v : View) (rid : Nat) (h : v.enq rid = none) : v.remove rid = v := by
  ext1
  · funext a
    simp only [View.remove]
    by_cases ha : a = rid
    · subst ha; simp [h]
    · simp [ha]
  · rfl

theorem view_rcvrRemove (drid : Nat) (h : rcvrRemove drid m = .ok () m') :
    m'.view = m.view.remove drid := by
  simp only [rcvrRemove, ok_get_bind] at h
  cases hr : m.emap.map[drid]? with
  | none =>
    simp only [EnqMap.getRemovePfid, hr] at h
    obtain ⟨-, rfl⟩ := ok_pure.mp h
    exact (remove_of_none _ _ hr).symm
  | some d =>
    simp only [EnqMap.getRemovePfid, hr, Bool.not_true, Bool.and_false, Bool.false_eq_true,
      if_false] at h
    rw [ok_set_bind] at h
    rw [view_decrEnqCntList _ h]
    ext1
    · funext a
      simp only [view, View.remove, mapGet_erase]
      by_cases ha : a = drid
      · subst ha; simp
      · simp [ha]
    · rfl

theorem view_rcvrCommitEntry (td : TxnData) (h : rcvrCommitEntry td m = .ok () m') :
    m'.view = m.view.commitEntry td.core := by
  unfold rcvrCommitEntry at h
  unfold View.commitEntry TxnData.core
  by_cases he : td.enqFlag
  · simp only [he, if_true] at h ⊢
    exact view_insertPfid _ _ h
  · simp only [he, Bool.false_eq_true, if_false] at h ⊢
    exact view_rcvrRemove _ h

theorem view_forM {g : TxnData → MapsM Unit} {e : View → TxnData → View}
    (hg : ∀ td {m m' : Maps}, g td m = .ok () m' → m'.view = e m.view td.core)
    (tdl : List TxnData) (h : tdl.forM g m = .ok () m') :
    m'.view = (tdl.map TxnData.core).foldl e m.view := by
  induction tdl generalizing m with
  | nil =>
    obtain ⟨-, rfl⟩ := ok_pure.mp h
    rfl
  | cons td tdl ih =>
    obtain ⟨_, m₁, h₁, h₂⟩ := ok_bind.mp h
    rw [ih h₂, hg td h₁]
    rfl

private theorem view_closeWith {g : TxnData → MapsM Unit} {e : View → TxnData → View}
    (hg : ∀ td {m m' : Maps}, g td m = .ok () m' → m'.view = e m.view td.core) (xid : Xid)
    (h : (getRemoveTdataList xid >>= fun tdl => tdl.forM g) m = .ok () m') :
    m'.view = (m.view.opn xid).foldl e (m.view.close xid) := by
  obtain ⟨tdl, m₁, h₁, h₂⟩ := ok_bind.mp h
  obtain ⟨rfl, hv, -⟩ := ok_getRemoveTdataList xid h₁
  rw [view_forM hg _ h₂, hv]
  rfl

/-- A live operation has the effect of its record. -/
theorem view_complete (fid : Nat) (r : JRec) (h : complete fid r m = .ok () m') :
    m'.view = m.view.apply fid r := by
  cases r with
  | enq rid xid dsize transient external =>
    obtain ⟨_, m₁, h₁, h₂⟩ := ok_bind.mp h
    simp only [View.apply]
    rw [← view_incrEnqcnt fid h₁]
    by_cases hx : xid = []
    · simp only [hx, ne_eq, not_true_eq_false, if_false] at h₂
      simp only [hx, if_true]
      exact view_insertPfid _ _ h₂
    · simp only [hx, ne_eq, not_false_eq_true, if_true] at h₂
      simp only [hx, if_false]
      exact view_insertTxnData _ _ h₂
  | deq rid drid xid commit =>
    simp only [complete, dequeueComplete] at h
    simp only [View.apply]
    by_cases hx : xid = []
    · simp only [hx, ne_eq, not_true_eq_false, if_false] at h
      simp only [hx, if_true]
      obtain ⟨efid, m₁, h₁, h₂⟩ := ok_bind.mp h
      rw [view_decrEnqcnt _ h₂]
      exact (view_getRemovePfid _ _ h₁).1
    · simp only [hx, ne_eq, not_false_eq_true, if_true] at h
      simp only [hx, if_false]
      obtain ⟨_, m₁, h₁, h₂⟩ := ok_bind.mp h
      rw [view_insertTxnData _ _ h₂, view_lock _ h₁]
      rfl
  | txa rid xid => exact view_closeWith (fun td _ _ => view_abortEntry td) xid h
  | txc rid xid => exact view_closeWith (fun td _ _ => view_commitEntry td) xid h

theorem core_markAioCompl (rid : Nat) (tdl : List TxnData) :
    (TxnMap.markAioCompl rid tdl).map TxnData.core = tdl.map TxnData.core := by
  induction tdl with
  | nil => rfl
  | cons td tdl ih =>
    simp only [TxnMap.markAioCompl]
    split
    · rfl
    · simp only [List.map_cons, ih]

theorem view_setAioCompl (xid : Xid) (rid : Nat) (h : setAioCompl xid rid m = .ok () m') :
    m'.view = m.view := by
  simp only [setAioCompl, ok_get_bind] at h
  unfold TxnMap.setAioCompl at h
  cases hx : m.tmap.map[xid]? with
  | none =>
    simp only [hx] at h
    exact (ok_throw.mp h).elim
  | some tdl =>
    by_cases ha : tdl.any (·.rid == rid)
    · simp only [hx, ha, if_true, ok_set] at h
      subst h
      ext1
      · rfl
      · funext x
        simp only [view, TxnMap.getTdataList, mapGet_modify]
        by_cases hxx : x = xid
        · subst hxx
          simp [hx, core_markAioCompl]
        · simp [hxx]
    · simp only [hx, ha, Bool.false_eq_true, if_false] at h
      exact (ok_throw.mp h).elim

/-- Replay of a record has the effect of the record. -/
theorem view_rcvrRecord (fid : Nat) (r : JRec) (ht : r.isTransient = false)
    (h : rcvrRecord fid r m = .ok () m') : m'.view = m.view.apply fid r := by
  cases r with
  | enq rid xid dsize transient external =>
    simp only [JRec.isTransient] at ht
    simp only [rcvrRecord, rcvrEnq, ht, Bool.false_eq_true, if_false] at h
    obtain ⟨_, m₁, h₁, h₂⟩ := ok_bind.mp h
    simp only [View.apply]
    rw [← view_incrEnqcnt fid h₁]
    by_cases hx : xid = []
    · simp only [hx, ne_eq, not_true_eq_false, if_false] at h₂
      simp only [hx, if_true]
      exact view_insertPfid _ _ h₂
    · simp only [hx, ne_eq, not_false_eq_true, if_true] at h₂
      simp only [hx, if_false]
      obtain ⟨_, m₂, h₂, h₃⟩ := ok_bind.mp h₂
      rw [view_setAioCompl _ _ h₃]
      exact view_insertTxnData _ _ h₂
  | deq rid drid xid commit =>
    simp only [rcvrRecord, rcvrDeq] at h
    simp only [View.apply]
    by_cases hx : xid = []
    · simp only [hx, ne_eq, not_true_eq_false, if_false] at h
      simp only [hx, if_true]
      exact view_rcvrRemove _ h
    · simp only [hx, ne_eq, not_false_eq_true, if_true] at h
      simp only [hx, if_false]
      obtain ⟨_, m₁, h₁, h₂⟩ := ok_bind.mp h
      obtain ⟨_, m₂, h₂, h₃⟩ := ok_bind.mp h₂
      rw [view_setAioCompl _ _ h₃, view_insertTxnData _ _ h₂, view_lock _ h₁]
      rfl
  | txa rid xid => exact view_closeWith (fun td _ _ => view_rcvrAbortEntry td) xid h
  | txc rid xid => exact view_closeWith (fun td _ _ => view_rcvrCommitEntry td) xid h

end Maps

end RhmStore
