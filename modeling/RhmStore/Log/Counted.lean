import RhmStore.Log.View

/-! # The count of each file is the number of records it protects -/

namespace RhmStore

open Std

/-- Enqueue entries of a list with their header in file `f`. -/
def entryCnt (f : Nat) (tdl : List TxnData) : Nat :=
  tdl.countP fun td => td.enqFlag && td.pfid == f

@[simp] theorem entryCnt_nil (f : Nat) : entryCnt f [] = 0 := rfl

theorem entryCnt_cons (f : Nat) (td : TxnData) (tdl : List TxnData) :
    entryCnt f (td :: tdl) =
      (if td.enqFlag && td.pfid == f then 1 else 0) + entryCnt f tdl := by
  unfold entryCnt
  rw [List.countP_cons, Nat.add_comm]

theorem entryCnt_markAioCompl (f rid : Nat) (tdl : List TxnData) :
    entryCnt f (TxnMap.markAioCompl rid tdl) = entryCnt f tdl := by
  induction tdl with
  | nil => rfl
  | cons td tdl ih =>
    simp only [TxnMap.markAioCompl]
    split <;> simp only [entryCnt_cons, ih]

/-- Operations of open transactions that `p` holds of. -/
def TxnMap.opCnt (t : TxnMap) (p : TxnData → Bool) : Nat := mapWeight (fun _ tdl => tdl.countP p) t.map

section OpCnt

variable (t : TxnMap) (p : TxnData → Bool) (xid : Xid)

theorem opCnt_insertTxnData (td : TxnData) :
    (t.insertTxnData xid td).opCnt p = t.opCnt p + [td].countP p := by
  unfold TxnMap.insertTxnData TxnMap.opCnt
  cases h : t.map[xid]? with
  | none => simp only [mapWeight_insert _ _ _ _ h]; omega
  | some l =>
    have hw := mapWeight_modify (fun _ tdl => tdl.countP p) t.map xid (· ++ [td]) l h
    simp only [List.countP_append] at hw
    simp only
    omega

theorem opCnt_getRemove :
    (t.getTdataList xid).countP p + (t.getRemoveTdataList xid).2.opCnt p = t.opCnt p := by
  unfold TxnMap.getTdataList TxnMap.getRemoveTdataList
  cases h : t.map[xid]? with
  | none => simp
  | some l =>
    simp only [Option.getD_some]
    exact mapWeight_erase (fun _ tdl => tdl.countP p) t.map xid l h

theorem opCnt_modify (g : List TxnData → List TxnData) (hg : ∀ l, (g l).countP p = l.countP p)
    (c : List Nat) : TxnMap.opCnt ⟨t.map.modify xid g, c⟩ p = t.opCnt p := by
  unfold TxnMap.opCnt
  cases h : t.map[xid]? with
  | none =>
    have hsame : t.map.modify xid g = t.map := by
      apply ExtTreeMap.ext_getElem?
      intro a
      rw [mapGet_modify]
      by_cases ha : a = xid
      · subst ha; simp [h]
      · simp [ha]
    rw [hsame]
  | some l =>
    have hw := mapWeight_modify (fun _ tdl => tdl.countP p) t.map xid g l h
    simp only [hg] at hw
    exact Nat.add_left_cancel hw

end OpCnt

/-- Records in `enq_map` with their header in file `f`. -/
def EnqMap.held (e : EnqMap) (f : Nat) : Nat :=
  mapWeight (fun _ d => if d.pfid = f then 1 else 0) e.map

/-- Enqueues of open transactions with their header in file `f`. -/
def TxnMap.held (t : TxnMap) (f : Nat) : Nat := mapWeight (fun _ tdl => entryCnt f tdl) t.map

theorem held_pos_of_enq {e : EnqMap} {r f : Nat} {d : EmapData} (h : e.map[r]? = some d)
    (hf : d.pfid = f) : 0 < e.held f := by
  have := le_mapWeight (fun _ d => if d.pfid = f then 1 else 0) e.map r d h
  simp only [hf, if_true] at this
  exact this

theorem held_pos_of_opn {t : TxnMap} {x : Xid} {f : Nat} {td : TxnData}
    (hm : td ∈ t.getTdataList x) (he : td.enqFlag = true) (hf : td.pfid = f) : 0 < t.held f := by
  unfold TxnMap.getTdataList at hm
  cases hx : t.map[x]? with
  | none =>
    rw [hx] at hm
    cases hm
  | some l =>
    rw [hx, Option.getD_some] at hm
    have h₁ := le_mapWeight (fun _ tdl => entryCnt f tdl) t.map x l hx
    have h₂ : 0 < entryCnt f l := by
      unfold entryCnt
      rw [List.countP_pos_iff]
      exact ⟨td, hm, by simp [he, hf]⟩
    exact Nat.lt_of_lt_of_le h₂ h₁

theorem getD_modify (l : List Nat) (i f : Nat) (g : Nat → Nat) (hf : f < l.length) :
    (l.modify i g).getD f 0 = if i = f then g (l.getD f 0) else l.getD f 0 := by
  simp only [List.getD_eq_getElem?_getD, List.getElem?_modify, List.getElem?_eq_getElem hf]
  split <;> simp

namespace Maps

/-- The counts, with the enqueues of a transaction `tdl` that is just being closed. -/
def CountedWith (tdl : List TxnData) (m : Maps) : Prop :=
  ∀ f < m.enqCnt.length, m.enqCnt.getD f 0 = m.emap.held f + m.tmap.held f + entryCnt f tdl

/-- Each file's count is the number of its records in `enq_map` or enqueued by an open
transaction. -/
def Counted (m : Maps) : Prop := CountedWith [] m

theorem counted_iff (m : Maps) :
    m.Counted ↔ ∀ f < m.enqCnt.length, m.enqCnt.getD f 0 = m.emap.held f + m.tmap.held f := by
  simp [Counted, CountedWith, entryCnt]

theorem init_counted (n : Nat) : (init n).Counted := by
  intro f hf
  simp [init, EnqMap.held, TxnMap.held, EnqMap.setNumJfiles, EnqMap.empty, TxnMap.setNumJfiles,
    TxnMap.empty, entryCnt, List.getD_eq_getElem?_getD, List.getElem?_replicate] at hf ⊢
  simp [hf]

variable {m m' : Maps} {tdl : List TxnData}

theorem held_insert (e : EnqMap) (rid pfid f : Nat) (h : e.map[rid]? = none) (c : List Nat) :
    EnqMap.held ⟨e.map.insert rid ⟨pfid, false⟩, c⟩ f =
      (if pfid = f then 1 else 0) + e.held f :=
  mapWeight_insert _ _ _ _ h

theorem held_erase (e : EnqMap) (rid f : Nat) {d : EmapData} (h : e.map[rid]? = some d)
    (c : List Nat) :
    (if d.pfid = f then 1 else 0) + EnqMap.held ⟨e.map.erase rid, c⟩ f = e.held f :=
  mapWeight_erase (fun _ d => if d.pfid = f then 1 else 0) _ _ _ h

theorem held_setLock (e : EnqMap) (rid f : Nat) (b : Bool) : (e.setLock rid b).held f = e.held f := by
  cases h : e.map[rid]? with
  | none =>
    have : e.map.modify rid (fun d => { d with lock := b }) = e.map := by
      apply ExtTreeMap.ext_getElem?
      intro a
      rw [mapGet_modify]
      by_cases ha : a = rid
      · subst ha; simp [h]
      · simp [ha]
    simp only [EnqMap.setLock, EnqMap.held, this]
  | some d =>
    have := mapWeight_modify (fun _ d => if d.pfid = f then 1 else 0) e.map rid
      (fun d => { d with lock := b }) d h
    simp only at this
    simp only [EnqMap.setLock, EnqMap.held]
    omega

theorem held_insertTxnData (t : TxnMap) (xid : Xid) (td : TxnData) (f : Nat) :
    (t.insertTxnData xid td).held f = t.held f + entryCnt f [td] :=
  opCnt_insertTxnData t _ xid td

theorem held_getRemove (t : TxnMap) (xid : Xid) (f : Nat) :
    entryCnt f (t.getTdataList xid) + (t.getRemoveTdataList xid).2.held f = t.held f :=
  opCnt_getRemove t _ xid

theorem held_modify (t : TxnMap) (xid : Xid) (g : List TxnData → List TxnData) (f : Nat)
    (hg : ∀ l, entryCnt f (g l) = entryCnt f l) (c : List Nat) :
    TxnMap.held ⟨t.map.modify xid g, c⟩ f = t.held f :=
  opCnt_modify t _ xid g hg c

theorem countedWith_remove {g : Nat → Nat} (hg : ∀ n, n ≠ 0 → g n = n - 1) (rid : Nat)
    {d : EmapData} (h : CountedWith tdl m) (hd : m.emap.map[rid]? = some d) (c : List Nat) :
    CountedWith tdl
      { m with emap := ⟨m.emap.map.erase rid, c⟩, enqCnt := m.enqCnt.modify d.pfid g } := by
  intro f hf
  simp only [List.length_modify] at hf
  have he := held_erase m.emap rid f hd c
  have hc := h f hf
  simp only [getD_modify _ _ _ _ hf]
  by_cases hff : d.pfid = f
  · simp only [hff, if_true] at he ⊢
    rw [hg _ (by omega)]
    omega
  · simp only [hff, if_false] at he ⊢
    omega

theorem counted_insertEnq (fid rid : Nat) (h : m.Counted) (hn : m.emap.map[rid]? = none)
    (c : List Nat) :
    Counted { m with enqCnt := m.enqCnt.modify fid (· + 1),
                     emap := ⟨m.emap.map.insert rid ⟨fid, false⟩, c⟩ } := by
  rw [counted_iff] at h ⊢
  intro f hf
  simp only [List.length_modify] at hf
  simp only [held_insert _ _ _ _ hn, getD_modify _ _ _ _ hf, h f hf]
  by_cases hff : fid = f
  · simp only [hff, if_true]; omega
  · simp only [hff, if_false]; omega

theorem counted_insertTxnEnq (xid : Xid) (td : TxnData) (he : td.enqFlag = true) (h : m.Counted) :
    Counted { m with enqCnt := m.enqCnt.modify td.pfid (· + 1),
                     tmap := m.tmap.insertTxnData xid td } := by
  rw [counted_iff] at h ⊢
  intro f hf
  simp only [List.length_modify] at hf
  simp only [held_insertTxnData, getD_modify _ _ _ _ hf, h f hf, entryCnt_cons, he, Bool.true_and,
    beq_iff_eq]
  by_cases hff : td.pfid = f
  · simp only [hff, if_true, entryCnt_nil]; omega
  · simp only [hff, if_false, entryCnt_nil]; omega

theorem counted_insertTxnDeq (xid : Xid) (td : TxnData) (he : td.enqFlag = false) (h : m.Counted) :
    Counted { m with tmap := m.tmap.insertTxnData xid td } := by
  rw [counted_iff] at h ⊢
  intro f hf
  simp only [held_insertTxnData, h f hf, entryCnt_cons, he, Bool.false_and, Bool.false_eq_true,
    if_false, entryCnt_nil]
  omega

theorem countedWith_lock (rid : Nat) (h : CountedWith tdl m) (hm : lock rid m = .ok () m') :
    CountedWith tdl m' := by
  cases hm
  intro f hf
  have hc := h f hf
  cases hr : m.emap.map[rid]? with
  | none => simpa only [EnqMap.lock, hr, Except.toOption, Option.getD_none] using hc
  | some d =>
    simpa only [EnqMap.lock, hr, Except.toOption, Option.getD_some, held_setLock] using hc

theorem countedWith_unlock (rid : Nat) (h : CountedWith tdl m) (hm : unlock rid m = .ok () m') :
    CountedWith tdl m' := by
  cases hm
  intro f hf
  have hc := h f hf
  cases hr : m.emap.map[rid]? with
  | none => simpa only [EnqMap.unlock, hr, Except.toOption, Option.getD_none] using hc
  | some d =>
    simpa only [EnqMap.unlock, hr, Except.toOption, Option.getD_some, held_setLock] using hc

theorem counted_setAioCompl (xid : Xid) (rid : Nat) (h : m.Counted)
    (hm : setAioCompl xid rid m = .ok () m') : m'.Counted := by
  simp only [setAioCompl, ok_get_bind] at hm
  unfold TxnMap.setAioCompl at hm
  cases hx : m.tmap.map[xid]? with
  | none =>
    simp only [hx] at hm
    exact (ok_throw.mp hm).elim
  | some l =>
    by_cases ha : l.any (·.rid == rid)
    · simp only [hx, ha, if_true, ok_set] at hm
      subst hm
      rw [counted_iff] at h ⊢
      intro f hf
      rw [h f hf, held_modify _ _ _ _ (fun l => entryCnt_markAioCompl f rid l)]
    · simp only [hx, ha, Bool.false_eq_true, if_false] at hm
      exact (ok_throw.mp hm).elim

/-- A transaction taken out of the map is still counted. -/
theorem countedWith_getRemoveTdataList (xid : Xid) (h : m.Counted)
    (hm : getRemoveTdataList xid m = .ok tdl m') : CountedWith tdl m' := by
  obtain ⟨rfl, -, hc, he, ht⟩ := ok_getRemoveTdataList xid hm
  rw [counted_iff] at h
  intro f hf
  rw [hc] at hf ⊢
  have := held_getRemove m.tmap xid f
  rw [h f hf, he, ht]
  omega

private theorem pred_eq (n : Nat) (_ : n ≠ 0) : n - 1 = n - 1 := rfl

private theorem u32Decr_eq (n : Nat) (h : n ≠ 0) : u32Decr n = n - 1 := by
  simp [u32Decr, h]

private theorem countedWith_decr {g : Nat → Nat} (hg : ∀ n, n ≠ 0 → g n = n - 1) {td : TxnData}
    (he : td.enqFlag = true) (h : CountedWith (td :: tdl) m) :
    CountedWith tdl { m with enqCnt := m.enqCnt.modify td.pfid g } := by
  intro f hf
  simp only [List.length_modify] at hf
  have hc := h f hf
  simp only [entryCnt_cons, he, Bool.true_and, beq_iff_eq] at hc
  simp only [getD_modify _ _ _ _ hf]
  by_cases hff : td.pfid = f
  · simp only [hff, if_true] at hc ⊢
    rw [hg _ (by omega)]
    omega
  · simp only [hff, if_false] at hc ⊢
    omega

private theorem countedWith_tail {td : TxnData} (he : td.enqFlag = false)
    (h : CountedWith (td :: tdl) m) : CountedWith tdl m := by
  intro f hf
  have hc := h f hf
  simp only [entryCnt_cons, he, Bool.false_and, Bool.false_eq_true, if_false] at hc
  omega

theorem ok_decrEnqcnt {fid : Nat} (h : decrEnqcnt fid m = .ok () m') :
    m' = { m with enqCnt := m.enqCnt.modify fid (· - 1) } := by
  simp only [decrEnqcnt, ok_get_bind] at h
  split at h
  · exact (ok_throw.mp h).elim
  · exact ok_set.mp h

theorem ok_insertPfid {rid pfid : Nat} (h : insertPfid rid pfid m = .ok () m') :
    m.emap.map[rid]? = none ∧ m' = { m with emap :=
      ⟨m.emap.map.insert rid ⟨pfid, false⟩, m.emap.pfidEnqCnt.modify pfid (· + 1)⟩ } := by
  simp only [insertPfid, ok_get_bind] at h
  cases hr : m.emap.map[rid]? with
  | some d =>
    simp only [EnqMap.insertPfid, hr] at h
    exact (ok_throw.mp h).elim
  | none =>
    simp only [EnqMap.insertPfid, hr, ok_set] at h
    exact ⟨rfl, h⟩

theorem ok_getRemovePfid {rid fid : Nat} {txnFlag : Bool}
    (h : getRemovePfid rid txnFlag m = .ok fid m') :
    ∃ d, m.emap.map[rid]? = some d ∧ d.pfid = fid ∧ (txnFlag = false → d.lock = false) ∧
      m' = { m with emap :=
        ⟨m.emap.map.erase rid, m.emap.pfidEnqCnt.modify d.pfid u32Decr⟩ } := by
  simp only [getRemovePfid, ok_get_bind] at h
  cases hr : m.emap.map[rid]? with
  | none =>
    simp only [EnqMap.getRemovePfid, hr] at h
    exact (ok_throw.mp h).elim
  | some d =>
    by_cases hl : (d.lock && !txnFlag) = true
    · simp only [EnqMap.getRemovePfid, hr, hl, if_true] at h
      exact (ok_throw.mp h).elim
    · simp only [EnqMap.getRemovePfid, hr, hl, Bool.false_eq_true, if_false] at h
      rw [ok_set_bind] at h
      obtain ⟨rfl, rfl⟩ := ok_pure.mp h
      refine ⟨d, rfl, rfl, ?_, rfl⟩
      intro ht
      simpa [ht] using hl

theorem countedWith_abortEntry (td : TxnData) (h : CountedWith (td :: tdl) m)
    (hm : abortEntry td m = .ok () m') : CountedWith tdl m' := by
  unfold abortEntry at hm
  cases he : td.enqFlag with
  | true =>
    simp only [he, if_true] at hm
    rw [ok_decrEnqcnt hm]
    exact countedWith_decr pred_eq he h
  | false =>
    simp only [he, Bool.false_eq_true, if_false] at hm
    exact countedWith_unlock _ (countedWith_tail he h) hm

theorem countedWith_rcvrAbortEntry (td : TxnData) (h : CountedWith (td :: tdl) m)
    (hm : rcvrAbortEntry td m = .ok () m') : CountedWith tdl m' := by
  unfold rcvrAbortEntry at hm
  cases he : td.enqFlag with
  | true =>
    simp only [he, if_true] at hm
    cases hm
    exact countedWith_decr u32Decr_eq he h
  | false =>
    simp only [he, Bool.false_eq_true, if_false] at hm
    exact countedWith_unlock _ (countedWith_tail he h) hm

theorem countedWith_insertPfid {td : TxnData} (he : td.enqFlag = true)
    (h : CountedWith (td :: tdl) m) (hm : insertPfid td.rid td.pfid m = .ok () m') :
    CountedWith tdl m' := by
  obtain ⟨hn, rfl⟩ := ok_insertPfid hm
  intro f hf
  have hc := h f hf
  simp only [entryCnt_cons, he, Bool.true_and, beq_iff_eq] at hc
  simp only [held_insert _ _ _ _ hn]
  omega

theorem countedWith_commitEntry (td : TxnData) (h : CountedWith (td :: tdl) m)
    (hm : commitEntry td m = .ok () m') : CountedWith tdl m' := by
  unfold commitEntry at hm
  cases he : td.enqFlag with
  | true =>
    simp only [he, if_true] at hm
    exact countedWith_insertPfid he h hm
  | false =>
    simp only [he, Bool.false_eq_true, if_false] at hm
    obtain ⟨fid, m₁, h₁, h₂⟩ := ok_bind.mp hm
    obtain ⟨d, hd, rfl, -, rfl⟩ := ok_getRemovePfid h₁
    rw [ok_decrEnqcnt h₂]
    exact countedWith_remove pred_eq _ (countedWith_tail he h) hd _

theorem countedWith_rcvrRemove (drid : Nat) (h : CountedWith tdl m)
    (hm : rcvrRemove drid m = .ok () m') : CountedWith tdl m' := by
  simp only [rcvrRemove, ok_get_bind] at hm
  cases hr : m.emap.map[drid]? with
  | none =>
    simp only [EnqMap.getRemovePfid, hr] at hm
    obtain ⟨-, rfl⟩ := ok_pure.mp hm
    exact h
  | some d =>
    simp only [EnqMap.getRemovePfid, hr, Bool.not_true, Bool.and_false, Bool.false_eq_true,
      if_false] at hm
    rw [ok_set_bind] at hm
    cases hm
    exact countedWith_remove u32Decr_eq _ h hr _

theorem countedWith_rcvrCommitEntry (td : TxnData) (h : CountedWith (td :: tdl) m)
    (hm : rcvrCommitEntry td m = .ok () m') : CountedWith tdl m' := by
  unfold rcvrCommitEntry at hm
  cases he : td.enqFlag with
  | true =>
    simp only [he, if_true] at hm
    exact countedWith_insertPfid he h hm
  | false =>
    simp only [he, Bool.false_eq_true, if_false] at hm
    exact countedWith_rcvrRemove _ (countedWith_tail he h) hm

theorem counted_forM {g : TxnData → MapsM Unit}
    (hg : ∀ td tdl {m m' : Maps}, CountedWith (td :: tdl) m → g td m = .ok () m' →
      CountedWith tdl m') (h : CountedWith tdl m) (hm : tdl.forM g m = .ok () m') :
    m'.Counted := by
  induction tdl generalizing m with
  | nil =>
    obtain ⟨-, rfl⟩ := ok_pure.mp hm
    exact h
  | cons td tdl ih =>
    obtain ⟨_, m₁, h₁, h₂⟩ := ok_bind.mp hm
    exact ih (hg td tdl h h₁) h₂

private theorem counted_closeWith {g : TxnData → MapsM Unit}
    (hg : ∀ td tdl {m m' : Maps}, CountedWith (td :: tdl) m → g td m = .ok () m' →
      CountedWith tdl m') (xid : Xid) (h : m.Counted)
    (hm : (getRemoveTdataList xid >>= fun tdl => tdl.forM g) m = .ok () m') : m'.Counted := by
  obtain ⟨tdl, m₁, h₁, h₂⟩ := ok_bind.mp hm
  exact counted_forM hg (countedWith_getRemoveTdataList xid h h₁) h₂

/-- A live operation keeps the counts exact. -/
theorem counted_complete (fid : Nat) (r : JRec) (h : m.Counted)
    (hm : complete fid r m = .ok () m') : m'.Counted := by
  cases r with
  | enq rid xid dsize transient external =>
    obtain ⟨_, m₁, h₁, h₂⟩ := ok_bind.mp hm
    cases h₁
    by_cases hx : xid = []
    · simp only [hx, ne_eq, not_true_eq_false, if_false] at h₂
      obtain ⟨hn, rfl⟩ := ok_insertPfid h₂
      exact counted_insertEnq _ _ h hn _
    · simp only [hx, ne_eq, not_false_eq_true, if_true] at h₂
      cases h₂
      exact counted_insertTxnEnq xid { rid := rid, drid := 0, pfid := fid, enqFlag := true } rfl h
  | deq rid drid xid commit =>
    simp only [complete, dequeueComplete] at hm
    by_cases hx : xid = []
    · simp only [hx, ne_eq, not_true_eq_false, if_false] at hm
      obtain ⟨efid, m₁, h₁, h₂⟩ := ok_bind.mp hm
      obtain ⟨d, hd, rfl, -, rfl⟩ := ok_getRemovePfid h₁
      rw [ok_decrEnqcnt h₂]
      exact countedWith_remove pred_eq _ h hd _
    · simp only [hx, ne_eq, not_false_eq_true, if_true] at hm
      obtain ⟨_, m₁, h₁, h₂⟩ := ok_bind.mp hm
      cases h₂
      exact counted_insertTxnDeq _ _ rfl (countedWith_lock _ h h₁)
  | txa rid xid =>
    exact counted_closeWith (fun td _ _ _ => countedWith_abortEntry td) xid h hm
  | txc rid xid =>
    exact counted_closeWith (fun td _ _ _ => countedWith_commitEntry td) xid h hm

/-- Replay keeps the counts exact, so no entry of the list wraps below zero. -/
theorem counted_rcvrRecord (fid : Nat) (r : JRec) (h : m.Counted)
    (hm : rcvrRecord fid r m = .ok () m') : m'.Counted := by
  cases r with
  | enq rid xid dsize transient external =>
    simp only [rcvrRecord, rcvrEnq] at hm
    by_cases ht : transient = true
    · simp only [ht, if_true] at hm
      obtain ⟨-, rfl⟩ := ok_pure.mp hm
      exact h
    · simp only [ht, Bool.false_eq_true, if_false] at hm
      obtain ⟨_, m₁, h₁, h₂⟩ := ok_bind.mp hm
      cases h₁
      by_cases hx : xid = []
      · simp only [hx, ne_eq, not_true_eq_false, if_false] at h₂
        obtain ⟨hn, rfl⟩ := ok_insertPfid h₂
        exact counted_insertEnq _ _ h hn _
      · simp only [hx, ne_eq, not_false_eq_true, if_true] at h₂
        obtain ⟨_, m₂, h₂, h₃⟩ := ok_bind.mp h₂
        cases h₂
        exact counted_setAioCompl _ _ (counted_insertTxnEnq xid
          { rid := rid, drid := 0, pfid := fid, enqFlag := true } rfl h) h₃
  | deq rid drid xid commit =>
    simp only [rcvrRecord, rcvrDeq] at hm
    by_cases hx : xid = []
    · simp only [hx, ne_eq, not_true_eq_false, if_false] at hm
      exact countedWith_rcvrRemove _ h hm
    · simp only [hx, ne_eq, not_false_eq_true, if_true] at hm
      obtain ⟨_, m₁, h₁, h₂⟩ := ok_bind.mp hm
      obtain ⟨_, m₂, h₂, h₃⟩ := ok_bind.mp h₂
      cases h₂
      exact counted_setAioCompl _ _ (counted_insertTxnDeq _ _ rfl (countedWith_lock _ h h₁)) h₃
  | txa rid xid =>
    exact counted_closeWith (fun td _ _ _ => countedWith_rcvrAbortEntry td) xid h hm
  | txc rid xid =>
    exact counted_closeWith (fun td _ _ _ => countedWith_rcvrCommitEntry td) xid h hm

end Maps

end RhmStore
