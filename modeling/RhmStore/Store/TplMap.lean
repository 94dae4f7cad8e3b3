import RhmStore.Store.Tpl
import RhmStore.Log.Shaped
import RhmStore.Log.Locks

/-! # The recovery map of the TPL describes the open transactions

The entries that the replay of a TPL history leaves in the transaction map, and those that the
running store has there, say where each transaction stands; the commit flag only those of a
replay. -/

namespace RhmStore

open Std

namespace TplState

/-- The entries `tdl` of the transaction map tell the state `s`, with `flags` also the outcome. -/
def Told (flags : Bool) (s : TplState) (tdl : List TxnData) : Prop :=
  match s with
  | absent => tdl = []
  | enqueued rid _ => ∃ td, tdl = [td] ∧ td.enqFlag = true ∧ td.rid = rid
  | dequeued rid _ commit => ∃ td td', tdl = [td, td'] ∧ td.enqFlag = true ∧ td.rid = rid ∧
      td'.enqFlag = false ∧ td'.drid = rid ∧ (flags = true → td'.commitFlag = commit)

variable {flags : Bool} {s : TplState} {tdl : List TxnData}

/-- Completion marks do not matter. -/
theorem Told.mark (h : s.Told flags tdl) (rid : Nat) : s.Told flags (TxnMap.markAioCompl rid tdl) := by
  cases s with
  | absent =>
    obtain rfl : tdl = [] := h
    exact rfl
  | enqueued erid tpc =>
    obtain ⟨td, rfl, he, hr⟩ := h
    simp only [TxnMap.markAioCompl]
    split
    · exact ⟨_, rfl, he, hr⟩
    · exact ⟨td, rfl, he, hr⟩
  | dequeued erid tpc commit =>
    obtain ⟨td, td', rfl, he, hr, he', hd, hc⟩ := h
    simp only [TxnMap.markAioCompl]
    split
    · exact ⟨_, td', rfl, he, hr, he', hd, hc⟩
    · split
      · exact ⟨td, _, rfl, he, hr, he', hd, hc⟩
      · exact ⟨td, td', rfl, he, hr, he', hd, hc⟩

theorem Told.weaken (h : s.Told true tdl) : s.Told false tdl := by
  cases s with
  | absent => exact h
  | enqueued rid tpc => exact h
  | dequeued rid tpc commit =>
    obtain ⟨td, td', htdl, he, hr, he', hd, -⟩ := h
    exact ⟨td, td', htdl, he, hr, he', hd, fun hf => by cases hf⟩

/-- What the loop over the entries counts. -/
theorem Told.count (h : s.Told flags tdl) (hs : s ≠ .absent) :
    let c := tdl.foldl TplCount.add TplCount.start
    tdl ≠ [] ∧ c.enqCnt = 1 ∧ c.deqCnt ≤ 1 ∧ ∃ t, s.recovered = some t ∧ t.rid = c.rid ∧
      t.deqFlag = (c.deqCnt == 1) ∧ (flags = true → t.commitFlag = c.commitFlag) := by
  cases s with
  | absent => exact absurd rfl hs
  | enqueued erid tpc =>
    obtain ⟨td, rfl, he, hr⟩ := h
    simp only [List.foldl_cons, List.foldl_nil, TplCount.add, TplCount.start, he, if_true]
    exact ⟨List.cons_ne_nil _ _, trivial, Nat.zero_le _, _, rfl, hr.symm, rfl, fun _ => rfl⟩
  | dequeued erid tpc commit =>
    obtain ⟨td, td', rfl, he, hr, he', hd, hc⟩ := h
    simp only [List.foldl_cons, List.foldl_nil, TplCount.add, TplCount.start, he, he', if_true,
      Bool.false_eq_true, if_false]
    exact ⟨List.cons_ne_nil _ _, trivial, Nat.le_refl _, _, rfl, hr.symm, rfl, fun hf => (hc hf).symm⟩

end TplState

namespace Maps

variable {m m' : Maps} {t : TxnMap}

theorem keeps_tmap_rcvrRemove (drid : Nat) : Keeps (·.tmap = t) (rcvrRemove drid) := by
  refine Keeps.get_bind fun m h => ?_
  split
  · exact h
  · exact h

theorem keeps_tmap_insertPfid (rid pfid : Nat) : Keeps (·.tmap = t) (insertPfid rid pfid) := by
  refine Keeps.get_bind fun m h => ?_
  split
  · exact h
  · exact h

theorem keeps_tmap_getRemovePfid (rid : Nat) (b : Bool) : Keeps (·.tmap = t) (getRemovePfid rid b) := by
  refine Keeps.get_bind fun m h => ?_
  split
  · exact h
  · exact h
  · exact h

theorem keeps_tmap_decrEnqcnt (fid : Nat) : Keeps (·.tmap = t) (decrEnqcnt fid) := by
  refine Keeps.get_bind fun m h => ?_
  rw [wp_ite]
  exact ⟨fun _ => h, fun _ => h⟩

theorem keeps_tmap_rcvrAbortEntry (td : TxnData) : Keeps (·.tmap = t) (rcvrAbortEntry td) :=
  Keeps.ite _ (Keeps.modify fun _ h => h) (Keeps.modify fun _ h => h)

theorem keeps_tmap_rcvrCommitEntry (td : TxnData) : Keeps (·.tmap = t) (rcvrCommitEntry td) :=
  Keeps.ite _ (keeps_tmap_insertPfid _ _) (keeps_tmap_rcvrRemove _)

theorem keeps_tmap_abortEntry (td : TxnData) : Keeps (·.tmap = t) (abortEntry td) :=
  Keeps.ite _ (keeps_tmap_decrEnqcnt _) (Keeps.modify fun _ h => h)

theorem keeps_tmap_commitEntry (td : TxnData) : Keeps (·.tmap = t) (commitEntry td) :=
  Keeps.ite _ (keeps_tmap_insertPfid _ _)
    ((keeps_tmap_getRemovePfid _ _).bind fun _ => keeps_tmap_decrEnqcnt _)

theorem data_setAioCompl (xid : Xid) (rid : Nat) (h : setAioCompl xid rid m = .ok () m') (x : Xid) :
    m'.tmap.getTdataList x =
      if x = xid then TxnMap.markAioCompl rid (m.tmap.getTdataList x) else m.tmap.getTdataList x := by
  simp only [setAioCompl, ok_get_bind] at h
  unfold TxnMap.setAioCompl at h
  cases hx : m.tmap.map[xid]? with
  | none =>
    simp only [hx] at h
    exact (ok_throw.mp h).elim
  | some tdl =>
    by_cases ha : tdl.any (·.rid == rid)
    · simp only [hx, ha, if_true, ok_set] at h
      subst h
      simp only [TxnMap.getTdataList, mapGet_modify]
      by_cases hxx : x = xid
      · subst hxx
        simp [hx]
      · simp [hxx]
    · simp only [hx, ha, Bool.false_eq_true, if_false] at h
      exact (ok_throw.mp h).elim

/-- Closing a transaction takes its entries, whatever is done with them. -/
theorem data_closeWith {g : TxnData → MapsM Unit} (hg : ∀ t td, Keeps (·.tmap = t) (g td)) (xid : Xid)
    (h : (getRemoveTdataList xid >>= fun tdl => tdl.forM g) m = .ok () m') (x : Xid) :
    m'.tmap.getTdataList x = if x = xid then [] else m.tmap.getTdataList x := by
  obtain ⟨tdl, m₁, h₁, h₂⟩ := ok_bind.mp h
  obtain ⟨-, -, -, -, ht⟩ := ok_getRemoveTdataList xid h₁
  have hk : m'.tmap = m₁.tmap := (Keeps.forM tdl fun td => hg m₁.tmap td).of_ok rfl h₂
  rw [hk, ht, getTdataList_getRemove]

def entryOf (flags : Bool) (fid : Nat) : JRec → TxnData
  | .deq rid drid _ commit =>
    { rid := rid, drid := drid, pfid := fid, enqFlag := false, commitFlag := flags && commit }
  | r => { rid := r.rid, drid := 0, pfid := fid, enqFlag := true }

theorem data_rcvrRecord_op {fid : Nat} {r : JRec} (hx : r.xid ≠ []) (ht : r.isTransient = false)
    (hr : (∃ rid xid d t e, r = .enq rid xid d t e) ∨ ∃ rid drid xid c, r = .deq rid drid xid c)
    (h : rcvrRecord fid r m = .ok () m') (x : Xid) :
    m'.tmap.getTdataList x = if x = r.xid then
      TxnMap.markAioCompl r.rid (m.tmap.getTdataList x ++ [entryOf true fid r]) else m.tmap.getTdataList x := by
  rcases hr with ⟨rid, xid, d, t, e, rfl⟩ | ⟨rid, drid, xid, c, rfl⟩
  · simp only [JRec.isTransient] at ht
    simp only [JRec.xid] at hx
    simp only [rcvrRecord, rcvrEnq, ht, hx, Bool.false_eq_true, if_false, ne_eq, not_false_eq_true,
      if_true] at h
    obtain ⟨_, m₁, h₁, h⟩ := ok_bind.mp h
    obtain ⟨_, m₂, h₂, h₃⟩ := ok_bind.mp h
    cases h₁
    cases h₂
    rw [data_setAioCompl _ _ h₃ x]
    by_cases hxx : x = xid
    · subst hxx
      simp [getTdataList_insertTxnData, entryOf, JRec.xid, JRec.rid]
    · simp [getTdataList_insertTxnData, JRec.xid, hxx]
  · simp only [JRec.xid] at hx
    simp only [rcvrRecord, rcvrDeq, hx, ne_eq, not_false_eq_true, if_true] at h
    obtain ⟨_, m₁, h₁, h⟩ := ok_bind.mp h
    obtain ⟨_, m₂, h₂, h₃⟩ := ok_bind.mp h
    cases h₁
    cases h₂
    rw [data_setAioCompl _ _ h₃ x]
    by_cases hxx : x = xid
    · subst hxx
      simp [getTdataList_insertTxnData, entryOf, JRec.xid, JRec.rid]
    · simp [getTdataList_insertTxnData, JRec.xid, hxx]

theorem data_complete_op {fid : Nat} {r : JRec} (hx : r.xid ≠ [])
    (hr : (∃ rid xid d t e, r = .enq rid xid d t e) ∨ ∃ rid drid xid c, r = .deq rid drid xid c)
    (h : complete fid r m = .ok () m') (x : Xid) :
    m'.tmap.getTdataList x = if x = r.xid then m.tmap.getTdataList x ++ [entryOf false fid r]
      else m.tmap.getTdataList x := by
  rcases hr with ⟨rid, xid, d, t, e, rfl⟩ | ⟨rid, drid, xid, c, rfl⟩
  · simp only [JRec.xid] at hx
    simp only [complete, enqueueComplete, hx, ne_eq, not_false_eq_true, if_true] at h
    obtain ⟨_, m₁, h₁, h₂⟩ := ok_bind.mp h
    cases h₁
    cases h₂
    by_cases hxx : x = xid
    · subst hxx
      simp [getTdataList_insertTxnData, entryOf, JRec.xid, JRec.rid]
    · simp [getTdataList_insertTxnData, JRec.xid, hxx]
  · simp only [JRec.xid] at hx
    simp only [complete, dequeueComplete, hx, ne_eq, not_false_eq_true, if_true] at h
    obtain ⟨_, m₁, h₁, h₂⟩ := ok_bind.mp h
    cases h₁
    cases h₂
    by_cases hxx : x = xid
    · subst hxx
      simp [getTdataList_insertTxnData, entryOf, JRec.xid]
    · simp [getTdataList_insertTxnData, JRec.xid, hxx]

end Maps

theorem TplState.next_of_ne {w : DataRec} {x : Xid} (s : TplState) (h : w.placed.jrec.xid ≠ x) :
    s.next x w = s := by
  unfold TplState.next
  cases hj : w.placed.jrec <;> simp only [hj, JRec.xid] at h <;> simp only [h, if_false]

theorem placeds_concat (log : List DataRec) (w : DataRec) :
    placeds (log ++ [w]) = placeds log ++ [w.placed] := by
  simp [placeds]

theorem rids_placeds (log : List DataRec) : rids (placeds log) = dataRids log := by
  simp [rids, placeds, dataRids]

namespace TplHist

variable {log : List DataRec} {w : DataRec} {x : Xid}

theorem nodup (h : TplHist log) : (dataRids log).Nodup := by
  induction h with
  | nil => exact List.nodup_nil
  | concat _ hn _ ih =>
    rw [dataRids, List.map_append, List.nodup_append]
    refine ⟨ih, List.nodup_singleton _, ?_⟩
    intro a ha b hb hab
    rw [List.map_singleton, List.mem_singleton] at hb
    exact hn (by rw [← hb, ← hab]; exact ha)

theorem persistent (h : TplHist log) : ∀ w ∈ log, w.placed.jrec.isTransient = false := by
  induction h with
  | nil => exact fun _ hw => (List.not_mem_nil hw).elim
  | concat _ _ hw ih =>
    intro v hv
    rcases List.mem_append.mp hv with hv | hv
    · exact ih v hv
    · rw [List.mem_singleton.mp hv]
      cases hw <;> rfl

/-- The prepare of an open transaction is in the log, with its byte. -/
theorem prepare_mem (h : TplHist log) {rid : Nat} (hs : (tplState x log).openRid = some rid) :
    x ≠ [] ∧ ∃ w ∈ log, w.placed.jrec = .enq rid x 1 false false ∧ ∃ b : UInt8, w.data = [b] ∧
      ∀ t, (tplState x log).recovered = some t → t.tpcFlag = (b != 0) := by
  induction h with
  | nil => cases hs
  | @concat log w _ _ hw ih =>
    rw [tplState_concat] at hs ⊢
    have old : (tplState x log).openRid = some rid →
        ((tplState x log).next x w).recovered.map TplRecoverStruct.tpcFlag =
          (tplState x log).recovered.map TplRecoverStruct.tpcFlag →
        x ≠ [] ∧ ∃ v ∈ log ++ [w], v.placed.jrec = .enq rid x 1 false false ∧ ∃ b : UInt8, v.data = [b] ∧
          ∀ t, ((tplState x log).next x w).recovered = some t → t.tpcFlag = (b != 0) := by
      intro ho he
      obtain ⟨hx, v, hv, hj, b, hb, ht⟩ := ih ho
      refine ⟨hx, v, List.mem_append_left _ hv, hj, b, hb, fun t hn => ?_⟩
      rw [hn, Option.map_some] at he
      obtain ⟨t', ht', hf⟩ := Option.map_eq_some_iff.mp he.symm
      rw [← hf]
      exact ht t' ht'
    by_cases hyx : w.placed.jrec.xid = x
    · cases hw with
      | prepare rid' y fid tpc hy _ =>
        obtain rfl : y = x := hyx
        simp only [TplState.next, if_true, TplState.openRid, Option.some_inj] at hs
        subst hs
        refine ⟨hy, _, List.mem_append_right _ (List.mem_singleton_self _), rfl, _, rfl, ?_⟩
        intro t ht
        simp only [TplState.next, if_true, TplState.recovered, Option.some_inj] at ht
        subst ht
        rfl
      | dequeue rid' erid y commit fid tpc hy =>
        obtain rfl : y = x := hyx
        have hnext : (tplState y log).next y ⟨⟨.deq rid' erid y commit, fid⟩, []⟩ =
            .dequeued erid tpc commit := by simp [TplState.next, hy]
        rw [hnext] at hs old ⊢
        rw [hy] at old
        exact old hs rfl
      | commit rid' y fid erid tpc c hy =>
        obtain rfl : y = x := hyx
        simp [TplState.next, TplState.openRid] at hs
      | abort rid' y fid erid tpc c hy =>
        obtain rfl : y = x := hyx
        simp [TplState.next, TplState.openRid] at hs
    · rw [TplState.next_of_ne _ hyx] at hs old ⊢
      exact old hs rfl

end TplHist

/-- The maps that go with a TPL history, of a recovery (`flags`) or of the running store. -/
structure TplMaps (flags : Bool) (m : Maps) (log : List DataRec) : Prop where
  told : ∀ x, (tplState x log).Told flags (m.tmap.getTdataList x)
  enq : ∀ r, m.view.enq r = none

namespace TplMaps

open Maps

variable {flags : Bool} {m m' : Maps} {log : List DataRec} {w : DataRec}

theorem init (flags : Bool) (n : Nat) : TplMaps flags (Maps.init n) [] := by
  have hv := Maps.view_init n
  refine ⟨fun x => ?_, fun r => ?_⟩
  · have hopn : ((Maps.init n).tmap.getTdataList x).map TxnData.core = [] :=
      congrFun (congrArg View.opn hv) x
    exact List.map_eq_nil_iff.mp hopn
  · exact congrFun (congrArg View.enq hv) r

theorem weaken (h : TplMaps true m log) : TplMaps false m log := ⟨fun x => (h.told x).weaken, h.enq⟩

theorem setLock_none {v : View} (h : ∀ r, v.enq r = none) (rid : Nat) (b : Bool) :
    v.setLock rid b = v := setLock_of_none v rid b (h rid)

/-- The entries of a transaction that is closed: its prepare and its dequeue, or the dequeue, or none. -/
def Paired (tdl : List TxnData) : Prop :=
  tdl = [] ∨ (∃ td, tdl = [td] ∧ td.enqFlag = false) ∨
    ∃ td td', tdl = [td, td'] ∧ td.enqFlag = true ∧ td'.enqFlag = false ∧ td'.drid = td.rid

theorem enq_commitEntry {v : View} (h : ∀ r, v.enq r = none) {td : TxnData} (he : td.enqFlag = false) (r : Nat) :
    (v.commitEntry td).enq r = none := by
  rw [View.commitEntry, if_neg (by rw [he]; exact Bool.false_ne_true)]
  by_cases hr : r = td.drid
  · subst hr
    simp [View.remove]
  · simp [View.remove, hr, h r]

theorem enq_foldl_commitEntry {v : View} (h : ∀ r, v.enq r = none) {tdl : List TxnData} (hp : Paired tdl) (r : Nat) :
    ((tdl.map TxnData.core).foldl View.commitEntry v).enq r = none := by
  rcases hp with rfl | ⟨td, rfl, he⟩ | ⟨td, td', rfl, he, he', hd⟩
  · exact h r
  · have hc : td.core.enqFlag = false := he
    exact enq_commitEntry h hc r
  · simp only [List.map_cons, List.map_nil, List.foldl_cons, List.foldl_nil, View.commitEntry, TxnData.core, he,
      he', if_true, Bool.false_eq_true, if_false]
    by_cases hr : r = td'.drid
    · subst hr
      simp [View.remove]
    · have hr' : r ≠ td.rid := hd ▸ hr
      simp only [View.remove, Function.update_of_ne hr, View.insert, Function.update_of_ne hr']
      exact h r

/-- A record of the history is applied: no record of the TPL is ever enqueued outside of a
transaction. -/
theorem enq_apply (h : ∀ r, m.view.enq r = none) (hw : TplAdds log w)
    (hp : ∀ x rid tpc c, tplState x log = .dequeued rid tpc c → Paired (m.tmap.getTdataList x)) (r : Nat) :
    (m.view.apply w.placed.fid w.placed.jrec).enq r = none := by
  cases hw with
  | prepare rid x fid tpc hx _ =>
    simp only [View.apply, if_neg hx]
    exact h r
  | dequeue rid erid x commit fid tpc hs =>
    simp only [View.apply]
    split
    · by_cases hr : r = erid
      · subst hr
        simp [View.remove]
      · simp [View.remove, hr, h r]
    · rw [setLock_none h]
      exact h r
  | commit rid x fid erid tpc c hs =>
    have hclose : ∀ r, (m.view.close x).enq r = none := h
    exact enq_foldl_commitEntry hclose (hp x erid tpc c hs) r
  | abort rid x fid erid tpc c hs =>
    have hnone : ∀ (l : List TxnData) (v : View), (∀ r, v.enq r = none) →
        (l.foldl View.abortEntry v).enq r = none := by
      intro l
      induction l with
      | nil => exact fun v hv => hv r
      | cons td l ih =>
        intro v hv
        rw [List.foldl_cons]
        apply ih
        unfold View.abortEntry
        split
        · exact hv
        · rw [setLock_none hv]
          exact hv
    exact hnone _ _ h

theorem paired (h : TplMaps flags m log) {x : Xid} {rid : Nat} {tpc c : Bool}
    (hs : tplState x log = .dequeued rid tpc c) : Paired (m.tmap.getTdataList x) := by
  have ht := h.told x
  rw [hs] at ht
  obtain ⟨td, td', hl, he, hr, he', hd, -⟩ := ht
  exact .inr (.inr ⟨td, td', hl, he, he', hd.trans hr.symm⟩)

/-- One record more. `hop` and `hclose` say what became of the entries of the transactions. -/
theorem concat (h : TplMaps flags m log) (hl : TplHist log) (hw : TplAdds log w)
    (hv : m'.view = m.view.apply w.placed.fid w.placed.jrec)
    (hop : w.placed.jrec.xid ≠ [] → (∀ x, w.placed.jrec.closes x = false) → ∀ x (s : TplState),
      s.Told flags (if x = w.placed.jrec.xid then
        m.tmap.getTdataList x ++ [entryOf flags w.placed.fid w.placed.jrec] else m.tmap.getTdataList x) →
      s.Told flags (m'.tmap.getTdataList x))
    (hclose : w.placed.jrec.closes w.placed.jrec.xid = true → ∀ x, m'.tmap.getTdataList x =
      if x = w.placed.jrec.xid then [] else m.tmap.getTdataList x) :
    TplMaps flags m' (log ++ [w]) := by
  refine ⟨fun x => ?_, fun r => by rw [hv]; exact enq_apply h.enq hw (fun _ _ _ _ => h.paired) r⟩
  have ht := h.told x
  rw [tplState_concat]
  by_cases hx : w.placed.jrec.xid = x
  · cases hw with
    | prepare rid y fid tpc hy hs =>
      obtain rfl : y = x := hx
      apply hop hy (fun _ => rfl)
      rw [hs] at ht
      have hnil : m.tmap.getTdataList y = [] := ht
      simp only [JRec.xid, if_true, hnil, TplState.next]
      exact ⟨_, rfl, rfl, rfl⟩
    | dequeue rid erid y commit fid tpc hs =>
      obtain rfl : y = x := hx
      apply hop (hl.prepare_mem (x := y) (by rw [hs]; rfl)).1 (fun _ => rfl)
      rw [hs] at ht
      obtain ⟨td, hone, he, hrid⟩ := ht
      simp only [JRec.xid, if_true, hone, TplState.next, hs]
      refine ⟨td, _, rfl, he, hrid, rfl, rfl, fun hf => ?_⟩
      simp [entryOf, hf]
    | commit rid y fid erid tpc c hs =>
      obtain rfl : y = x := hx
      rw [hclose (by simp [JRec.closes, JRec.xid])]
      simp only [JRec.xid, TplState.next, if_true]
      rfl
    | abort rid y fid erid tpc c hs =>
      obtain rfl : y = x := hx
      rw [hclose (by simp [JRec.closes, JRec.xid])]
      simp only [JRec.xid, TplState.next, if_true]
      rfl
  · have hne : x ≠ w.placed.jrec.xid := fun he => hx he.symm
    rw [TplState.next_of_ne _ hx]
    cases hw with
    | prepare rid y fid tpc hy hs =>
      apply hop hy fun _ => rfl
      rw [if_neg hne]
      exact ht
    | dequeue rid erid y commit fid tpc hs =>
      apply hop (hl.prepare_mem (x := y) (by rw [hs]; rfl)).1 fun _ => rfl
      rw [if_neg hne]
      exact ht
    | commit rid y fid erid tpc c hs =>
      rw [hclose (by simp [JRec.closes, JRec.xid]), if_neg hne]
      exact ht
    | abort rid y fid erid tpc c hs =>
      rw [hclose (by simp [JRec.closes, JRec.xid]), if_neg hne]
      exact ht

theorem add_op (hw : TplAdds log w) (hc : ∀ x, w.placed.jrec.closes x = false) :
    (∃ rid xid d t e, w.placed.jrec = .enq rid xid d t e) ∨
      ∃ rid drid xid c, w.placed.jrec = .deq rid drid xid c := by
  cases hw with
  | prepare rid x fid tpc _ _ => exact .inl ⟨_, _, _, _, _, rfl⟩
  | dequeue rid erid x commit fid tpc _ => exact .inr ⟨_, _, _, _, rfl⟩
  | commit rid x fid erid tpc c _ => simp [JRec.closes] at hc
  | abort rid x fid erid tpc c _ => simp [JRec.closes] at hc

/-- A recovery replays one record more. -/
theorem rcvrRecord (h : TplMaps true m log) (hl : TplHist log) (hw : TplAdds log w)
    (ht : w.placed.jrec.isTransient = false)
    (hm : Maps.rcvrRecord w.placed.fid w.placed.jrec m = .ok () m') : TplMaps true m' (log ++ [w]) := by
  refine h.concat hl hw (view_rcvrRecord _ _ ht hm) ?_ ?_
  · intro hx hc x s hs
    rw [data_rcvrRecord_op hx ht (add_op hw hc) hm x]
    split
    · rename_i heq
      rw [if_pos heq] at hs
      exact hs.mark _
    · rename_i hne
      rwa [if_neg hne] at hs
  · intro hc x
    cases hw with
    | prepare rid y fid tpc _ _ => simp [JRec.closes] at hc
    | dequeue rid erid y commit fid tpc _ => simp [JRec.closes] at hc
    | commit rid y fid erid tpc c _ =>
      exact data_closeWith (fun _ td => keeps_tmap_rcvrCommitEntry td) y hm x
    | abort rid y fid erid tpc c _ =>
      exact data_closeWith (fun _ td => keeps_tmap_rcvrAbortEntry td) y hm x

/-- The running store writes one record more. -/
theorem perform (h : TplMaps false m log) (hl : TplHist log) (hw : TplAdds log w)
    (hm : Maps.perform w.placed.fid w.placed.jrec m = .ok () m') : TplMaps false m' (log ++ [w]) := by
  obtain ⟨-, hc⟩ := ok_perform hm
  refine h.concat hl hw (view_complete _ _ hc) ?_ ?_
  · intro hx hcl x s hs
    rw [data_complete_op hx (add_op hw hcl) hc x]
    exact hs
  · intro hcl x
    cases hw with
    | prepare rid y fid tpc _ _ => simp [JRec.closes] at hcl
    | dequeue rid erid y commit fid tpc _ => simp [JRec.closes] at hcl
    | commit rid y fid erid tpc c _ => exact data_closeWith (fun _ td => keeps_tmap_commitEntry td) y hc x
    | abort rid y fid erid tpc c _ => exact data_closeWith (fun _ td => keeps_tmap_abortEntry td) y hc x

/-- Recovery of a TPL does not throw. -/
theorem replay_isOk (n : Nat) (hl : TplHist log) :
    ∃ m, replay (placeds log) (Maps.init n) = .ok () m ∧ TplMaps true m log := by
  induction hl with
  | nil => exact ⟨Maps.init n, rfl, init true n⟩
  | @concat log w hl hn hw ih =>
    obtain ⟨m, hm, h⟩ := ih
    have hlw : TplHist (log ++ [w]) := .concat hl hn hw
    have hnodup : (rids (placeds (log ++ [w]))).Nodup := by
      rw [rids_placeds]
      exact hlw.nodup
    obtain ⟨m', hm', -⟩ := Maps.replay_isOk n hnodup (by
      intro p hp
      obtain ⟨v, hv, rfl⟩ := List.mem_map.mp hp
      exact hlw.persistent v hv)
    refine ⟨m', hm', ?_⟩
    rw [placeds, List.map_append, replay_append] at hm'
    obtain ⟨_, m₁, h₁, h₂⟩ := ok_bind.mp hm'
    rw [← placeds, hm] at h₁
    cases h₁
    obtain ⟨_, m₂, h₂, h₃⟩ := ok_bind.mp h₂
    cases h₃
    exact h.rcvrRecord hl hw (hlw.persistent w (by simp)) h₂

theorem isEnq_iff (h : TplMaps flags m log) (r : Nat) :
    m.tmap.isEnq r = true ↔ ∃ x, (tplState x log).openRid = some r := by
  have hmem : ∀ x l, (x, l) ∈ m.tmap.map.toList ↔ m.tmap.map[x]? = some l :=
    fun x l => ExtTreeMap.mem_toList_iff_getElem?_eq_some
  have hdata : ∀ x l, m.tmap.map[x]? = some l → m.tmap.getTdataList x = l := by
    intro x l hx
    simp [TxnMap.getTdataList, hx]
  unfold TxnMap.isEnq
  rw [List.any_eq_true]
  constructor
  · rintro ⟨⟨x, l⟩, hp, hl⟩
    obtain ⟨td, hm, hr⟩ := List.any_eq_true.mp hl
    have ht := h.told x
    rw [hdata x l ((hmem x l).mp hp)] at ht
    refine ⟨x, ?_⟩
    cases hs : tplState x log with
    | absent =>
      rw [hs] at ht
      obtain rfl : l = [] := ht
      cases hm
    | enqueued rid tpc =>
      rw [hs] at ht
      obtain ⟨td', rfl, he, hrid⟩ := ht
      rw [List.mem_singleton.mp hm, he, if_pos rfl, beq_iff_eq, hrid] at hr
      rw [← hr]
      rfl
    | dequeued rid tpc commit =>
      rw [hs] at ht
      obtain ⟨td₁, td₂, rfl, he, hrid, he', hd, -⟩ := ht
      have : r = rid := by
        rcases List.mem_cons.mp hm with rfl | hm
        · rw [he, if_pos rfl, beq_iff_eq, hrid] at hr
          exact hr.symm
        · rw [List.mem_singleton.mp hm, he', if_neg Bool.false_ne_true, beq_iff_eq, hd] at hr
          exact hr.symm
      rw [this]
      rfl
  · rintro ⟨x, hx⟩
    have ht := h.told x
    have hne : ∃ td l, m.tmap.getTdataList x = td :: l ∧ td.enqFlag = true ∧ td.rid = r := by
      cases hs : tplState x log with
      | absent =>
        rw [hs] at hx
        cases hx
      | enqueued rid tpc =>
        rw [hs] at ht hx
        obtain ⟨td, hl, he, hrid⟩ := ht
        exact ⟨td, [], hl, he, hrid.trans (Option.some.inj hx)⟩
      | dequeued rid tpc commit =>
        rw [hs] at ht hx
        obtain ⟨td, td', hl, he, hrid, -⟩ := ht
        exact ⟨td, [td'], hl, he, hrid.trans (Option.some.inj hx)⟩
    obtain ⟨td, l, hl, he, hrid⟩ := hne
    cases hg : m.tmap.map[x]? with
    | none =>
      simp [TxnMap.getTdataList, hg] at hl
    | some l' =>
      rw [hdata x l' hg] at hl
      subst hl
      refine ⟨(x, td :: l), (hmem _ _).mpr hg, ?_⟩
      simp [he, hrid]

theorem mem_delivered (h : TplMaps flags m log) (hl : TplHist log) {e : Xid × List UInt8}
    (he : e ∈ delivered m log) : e.1 ≠ [] ∧ tplState e.1 log ≠ .absent ∧ ∃ b, e.2 = [b] ∧
      ∀ t, (tplState e.1 log).recovered = some t → t.tpcFlag = (b != 0) := by
  obtain ⟨w, hw, rfl⟩ := List.mem_map.mp he
  obtain ⟨hw, hr⟩ := List.mem_filter.mp hw
  cases hj : w.placed.jrec with
  | enq rid xid d t ex =>
    have hpf : m.emap.getPfid rid = .error .ridNotFound := by
      have hnone : m.emap.map[rid]? = none := h.enq rid
      simp [EnqMap.getPfid, hnone]
    rw [hj] at hr
    simp only [rmgrReads, hpf] at hr
    obtain ⟨x, hx⟩ := (h.isEnq_iff rid).mp hr
    obtain ⟨hne, v, hv, hvj, b, hb, ht⟩ := hl.prepare_mem hx
    have hvw : v = w := List.inj_on_of_nodup_map hl.nodup hv hw (by rw [hvj, hj]; rfl)
    subst hvw
    rw [hvj] at hj
    cases hj
    refine ⟨hne, ?_, b, hb, ht⟩
    intro habs
    have habs' : tplState xid log = .absent := habs
    rw [habs'] at hx
    cases hx
  | deq rid drid xid c => simp [hj, rmgrReads] at hr
  | txa rid xid => simp [hj, rmgrReads] at hr
  | txc rid xid => simp [hj, rmgrReads] at hr

theorem delivered_of_open (h : TplMaps flags m log) (hl : TplHist log) {x : Xid}
    (hx : tplState x log ≠ .absent) : ∃ e ∈ delivered m log, e.1 = x := by
  obtain ⟨rid, hrid⟩ : ∃ rid, (tplState x log).openRid = some rid := by
    cases hs : tplState x log with
    | absent => exact absurd hs hx
    | enqueued rid tpc => exact ⟨rid, rfl⟩
    | dequeued rid tpc c => exact ⟨rid, rfl⟩
  obtain ⟨-, w, hw, hj, -⟩ := hl.prepare_mem hrid
  refine ⟨_, List.mem_map_of_mem (List.mem_filter.mpr ⟨hw, ?_⟩), by rw [hj]; rfl⟩
  have hnone : m.emap.map[rid]? = none := h.enq rid
  simp only [hj, rmgrReads, EnqMap.getPfid, hnone]
  exact (h.isEnq_iff rid).mpr ⟨x, hrid⟩

end TplMaps

theorem get_foldl_insertNew (f : Xid → TplRecoverStruct) (xs : List Xid) (m : TplRecoverMap)
    (hm : ∀ x t, m[x]? = some t → t = f x) (x : Xid) :
    (xs.foldl (fun m x => m.insertNew x (f x)) m)[x]? = if x ∈ xs then some (f x) else m[x]? := by
  induction xs generalizing m with
  | nil => simp
  | cons y ys ih =>
    have hget : ∀ z, (m.insertNew y (f y))[z]? = if z = y then some (f z) else m[z]? := by
      intro z
      unfold TplRecoverMap.insertNew
      by_cases hs : (m[y]?).isSome = true
      · obtain ⟨t, ht⟩ := Option.isSome_iff_exists.mp hs
        rw [if_pos hs]
        split
        · rename_i hz
          rw [hz, ht, hm y t ht]
        · rfl
      · rw [if_neg hs, mapGet_insert]
        split
        · rename_i hz
          rw [hz]
        · rfl
    rw [List.foldl_cons, ih]
    · rw [hget]
      by_cases hx : x = y
      · simp [hx]
      · simp [hx]
    · intro z t ht
      rw [hget] at ht
      split at ht
      · exact (Option.some.inj ht).symm
      · exact hm z t ht

namespace TplMaps

variable {flags : Bool} {m : Maps} {log : List DataRec}

/-- The entry without its commit flag, unless `flags`. -/
def seen (flags : Bool) (t : TplRecoverStruct) : TplRecoverStruct :=
  { t with commitFlag := !flags || t.commitFlag }

/-- The entry that `readTplStore` makes of a transaction. -/
def found (tmap : TxnMap) (tpc : Bool) (x : Xid) : TplRecoverStruct :=
  let c := (tmap.getTdataList x).foldl TplCount.add TplCount.start
  ⟨c.rid, c.deqCnt == 1, c.commitFlag, tpc⟩

/-- However long the reader waits: one entry for each open transaction, and it tells where the
transaction stands. -/
theorem readTplStore_eq (h : TplMaps flags m log) (hl : TplHist log) {rs : List ReadRes}
    (hrs : Delivers 0 (delivered m log) rs) : ∃ tm, readTplStore m.tmap rs = .ok tm ∧
      ∀ x, (tm[x]?).map (seen flags) = (tplState x log).recovered.map (seen flags) := by
  let tpc : Xid → Bool := fun x => ((tplState x log).recovered.map TplRecoverStruct.tpcFlag).getD false
  let f : Xid → TplRecoverStruct := fun x => found m.tmap (tpc x) x
  have hstep : ∀ e ∈ delivered m log, ∀ tm, readTplRec m.tmap tm e = .ok (tm.insertNew e.1 (f e.1)) := by
    intro e he tm
    obtain ⟨hne, hs, b, hb, ht⟩ := h.mem_delivered hl he
    obtain ⟨hnil, henq, hdeq, t, hr, -⟩ := (h.told e.1).count hs
    have htpc : tpc e.1 = (b != 0) := by
      simp only [tpc, hr, Option.map_some, Option.getD_some]
      exact ht t hr
    unfold readTplRec
    rw [if_neg (by simp [hb, hne]), if_neg hnil, if_pos ⟨henq, hdeq⟩, hb, List.headD_cons, ← htpc]
    rfl
  have hfold : ∀ (es : List (Xid × List UInt8)), (∀ e ∈ es, e ∈ delivered m log) → ∀ tm,
      es.foldlM (readTplRec m.tmap) tm = .ok ((es.map (·.1)).foldl (fun m x => m.insertNew x (f x)) tm) := by
    intro es
    induction es with
    | nil => exact fun _ _ => rfl
    | cons e es ih =>
      intro hes tm
      rw [List.foldlM_cons, hstep e (hes e List.mem_cons_self), List.map_cons, List.foldl_cons]
      exact ih (fun e' he' => hes e' (List.mem_cons_of_mem _ he')) _
  refine ⟨_, (readTplLoop_eq hrs _ _).trans (hfold _ (fun _ he => he) _), fun x => ?_⟩
  rw [get_foldl_insertNew f _ _ (by intro x t ht; simp at ht)]
  by_cases hs : tplState x log = .absent
  · rw [hs, if_neg]
    · simp [TplState.recovered]
    · intro hx
      obtain ⟨e, he, rfl⟩ := List.mem_map.mp hx
      exact (h.mem_delivered hl he).2.1 hs
  · obtain ⟨e, he, rfl⟩ := h.delivered_of_open hl hs
    obtain ⟨-, -, -, t, hr, hrid, hdf, hcf⟩ := (h.told e.1).count hs
    rw [if_pos (List.mem_map_of_mem he), hr, Option.map_some, Option.map_some]
    have htpc : tpc e.1 = t.tpcFlag := by simp [tpc, hr]
    have hflag : (!flags || (f e.1).commitFlag) = (!flags || t.commitFlag) := by
      cases flags with
      | false => rfl
      | true => rw [hcf rfl]; rfl
    unfold seen
    rw [hflag]
    simp only [f, found, htpc, hrid, hdf]

end TplMaps

theorem mem_collectPreparedXids {tm : TplRecoverMap} {x : Xid} :
    x ∈ collectPreparedXids tm ↔ ∃ t, tm[x]? = some t ∧ t.deqFlag = false ∧ t.tpcFlag = true := by
  unfold collectPreparedXids
  rw [List.mem_map]
  constructor
  · rintro ⟨⟨y, t⟩, hp, rfl⟩
    obtain ⟨hp, hc⟩ := List.mem_filter.mp hp
    rw [Bool.and_eq_true, Bool.not_eq_true'] at hc
    exact ⟨t, ExtTreeMap.mem_toList_iff_getElem?_eq_some.mp hp, hc⟩
  · rintro ⟨t, ht, hd, hc⟩
    refine ⟨(x, t), List.mem_filter.mpr ⟨ExtTreeMap.mem_toList_iff_getElem?_eq_some.mpr ht, ?_⟩, rfl⟩
    rw [Bool.and_eq_true, Bool.not_eq_true']
    exact ⟨hd, hc⟩

theorem collect_iff_of_seen {flags : Bool} {tm : TplRecoverMap} {log : List DataRec}
    (h : ∀ x, (tm[x]?).map (TplMaps.seen flags) = (tplState x log).recovered.map (TplMaps.seen flags))
    (x : Xid) : x ∈ collectPreparedXids tm ↔ ∃ rid, tplState x log = .enqueued rid true := by
  rw [mem_collectPreparedXids]
  have hx := h x
  constructor
  · rintro ⟨t, ht, hd, hc⟩
    rw [ht] at hx
    cases hs : tplState x log with
    | absent => simp [hs, TplState.recovered] at hx
    | enqueued rid tpc =>
      simp only [hs, TplState.recovered, TplMaps.seen, Option.map_some, Option.some_inj,
        TplRecoverStruct.mk.injEq] at hx
      exact ⟨rid, by rw [← hx.2.2.2, hc]⟩
    | dequeued rid tpc c =>
      simp only [hs, TplState.recovered, TplMaps.seen, Option.map_some, Option.some_inj,
        TplRecoverStruct.mk.injEq] at hx
      rw [hd] at hx
      exact absurd hx.2.1 Bool.false_ne_true
  · rintro ⟨rid, hs⟩
    rw [hs] at hx
    simp only [TplState.recovered, Option.map_some] at hx
    obtain ⟨t, ht, he⟩ := Option.map_eq_some_iff.mp hx
    simp only [TplMaps.seen, TplRecoverStruct.mk.injEq] at he
    exact ⟨t, ht, he.2.1, he.2.2.2⟩

end RhmStore
