import RhmStore.Log.Replayed
import Mathlib.Data.List.GetD

/-! # The shape of the maps, and replay without exceptions -/

namespace RhmStore

namespace Maps

/-- A count for each of `n` files, and no transaction without an operation. -/
structure Shaped (n : Nat) (m : Maps) : Prop where
  length : m.enqCnt.length = n
  nonempty : ∀ x : Xid, m.tmap.map[x]? ≠ some []

theorem init_shaped (n : Nat) : (init n).Shaped n := by
  refine ⟨by simp [init], ?_⟩
  intro x
  simp [init, TxnMap.setNumJfiles, TxnMap.empty]

variable {n : Nat}

private theorem shaped_cnt {m : Maps} (h : m.Shaped n) (fid : Nat) (g : Nat → Nat) (e : EnqMap) :
    Shaped n { m with emap := e, enqCnt := m.enqCnt.modify fid g } :=
  ⟨by simp [h.length], h.nonempty⟩

private theorem shaped_emap {m : Maps} (h : m.Shaped n) (e : EnqMap) :
    Shaped n { m with emap := e } := ⟨h.length, h.nonempty⟩

theorem keeps_incrEnqcnt (fid : Nat) : Keeps (Shaped n) (incrEnqcnt fid) :=
  Keeps.modify fun _ h => shaped_cnt h fid _ _

theorem keeps_decrEnqCntList (fid : Nat) : Keeps (Shaped n) (decrEnqCntList fid) :=
  Keeps.modify fun _ h => shaped_cnt h fid _ _

theorem keeps_decrEnqcnt (fid : Nat) : Keeps (Shaped n) (decrEnqcnt fid) := by
  refine Keeps.get_bind fun m h => ?_
  rw [wp_ite]
  exact ⟨fun _ => h, fun _ => shaped_cnt h fid _ _⟩

theorem keeps_insertTxnData (xid : Xid) (td : TxnData) :
    Keeps (Shaped n) (insertTxnData xid td) := by
  refine Keeps.modify fun m h => ⟨h.length, ?_⟩
  intro x
  unfold TxnMap.insertTxnData
  cases hx : m.tmap.map[xid]? with
  | none =>
    simp only [mapGet_insert]
    split
    · simp
    · exact h.nonempty x
  | some l =>
    simp only [mapGet_modify]
    split
    · rename_i hxx
      subst hxx
      simp [hx]
    · exact h.nonempty x

theorem keeps_getRemoveTdataList (xid : Xid) : Keeps (Shaped n) (getRemoveTdataList xid) := by
  refine Keeps.get_bind fun m h => ?_
  simp only [wp_bind, wp_set, wp_pure]
  refine ⟨h.length, ?_⟩
  intro x
  unfold TxnMap.getRemoveTdataList
  cases hx : m.tmap.map[xid]? with
  | none => exact h.nonempty x
  | some l =>
    simp only [mapGet_erase]
    split
    · simp
    · exact h.nonempty x

theorem keeps_insertPfid (rid pfid : Nat) : Keeps (Shaped n) (insertPfid rid pfid) := by
  refine Keeps.get_bind fun m h => ?_
  split
  · exact shaped_emap h _
  · exact h

theorem keeps_getRemovePfid (rid : Nat) (b : Bool) : Keeps (Shaped n) (getRemovePfid rid b) := by
  refine Keeps.get_bind fun m h => ?_
  split
  · exact shaped_emap h _
  · exact h
  · exact h

theorem keeps_lock (rid : Nat) : Keeps (Shaped n) (lock rid) :=
  Keeps.modify fun _ h => shaped_emap h _

theorem keeps_unlock (rid : Nat) : Keeps (Shaped n) (unlock rid) :=
  Keeps.modify fun _ h => shaped_emap h _

theorem keeps_rcvrRemove (rid : Nat) : Keeps (Shaped n) (rcvrRemove rid) := by
  refine Keeps.get_bind fun m h => ?_
  split
  · rw [wp_bind]
    exact keeps_decrEnqCntList _ _ (shaped_emap h _)
  · exact h

theorem keeps_setAioCompl (xid : Xid) (rid : Nat) : Keeps (Shaped n) (setAioCompl xid rid) := by
  refine Keeps.get_bind fun m h => ?_
  split
  · rename_i t ht
    refine ⟨h.length, ?_⟩
    intro x
    unfold TxnMap.setAioCompl at ht
    split at ht
    · cases ht
    · rename_i l hl
      split at ht
      · cases ht
        simp only [mapGet_modify]
        split
        · rename_i hx
          subst hx
          rw [hl]
          cases l with
          | nil => exact absurd hl (h.nonempty x)
          | cons td l =>
            simp only [Option.map_some, TxnMap.markAioCompl]
            split <;> simp
        · exact h.nonempty x
      · cases ht
  · exact h

private theorem keeps_closeWith {g : TxnData → MapsM Unit} (hg : ∀ td, Keeps (Shaped n) (g td))
    (xid : Xid) : Keeps (Shaped n) (getRemoveTdataList xid >>= fun tdl => tdl.forM g) :=
  (keeps_getRemoveTdataList xid).bind fun tdl => Keeps.forM tdl hg

/-- A live operation keeps the shape of the maps, even when it throws. -/
theorem keeps_complete (fid : Nat) (r : JRec) : Keeps (Shaped n) (complete fid r) := by
  cases r with
  | enq rid xid ds t e =>
    exact (keeps_incrEnqcnt fid).bind fun _ =>
      Keeps.ite _ (keeps_insertTxnData _ _) (keeps_insertPfid _ _)
  | deq rid drid xid c =>
    exact Keeps.ite _ ((keeps_lock drid).bind fun _ => keeps_insertTxnData _ _)
      ((keeps_getRemovePfid _ _).bind fun _ => keeps_decrEnqcnt _)
  | txa rid xid =>
    exact keeps_closeWith (fun td => Keeps.ite _ (keeps_decrEnqcnt _) (keeps_unlock _)) xid
  | txc rid xid =>
    refine keeps_closeWith (fun td => Keeps.ite _ (keeps_insertPfid _ _) ?_) xid
    exact (keeps_getRemovePfid _ _).bind fun _ => keeps_decrEnqcnt _

theorem keeps_rcvrRecord (fid : Nat) (r : JRec) : Keeps (Shaped n) (rcvrRecord fid r) := by
  cases r with
  | enq rid xid ds t e =>
    refine Keeps.ite _ (Keeps.pure _) ((keeps_incrEnqcnt fid).bind fun _ => ?_)
    exact Keeps.ite _ ((keeps_insertTxnData _ _).bind fun _ => keeps_setAioCompl _ _)
      (keeps_insertPfid _ _)
  | deq rid drid xid c =>
    refine Keeps.ite _ ((keeps_lock drid).bind fun _ => ?_) (keeps_rcvrRemove _)
    exact (keeps_insertTxnData _ _).bind fun _ => keeps_setAioCompl _ _
  | txa rid xid =>
    exact keeps_closeWith (fun td => Keeps.ite _ (keeps_decrEnqCntList _) (keeps_unlock _)) xid
  | txc rid xid =>
    exact keeps_closeWith (fun td => Keeps.ite _ (keeps_insertPfid _ _) (keeps_rcvrRemove _)) xid

theorem insertPfid_isOk {m : Maps} {rid : Nat} (pfid : Nat) (h : m.view.enq rid = none) :
    ∃ m', insertPfid rid pfid m = .ok () m' := by
  have h' : m.emap.map[rid]? = none := h
  simp only [insertPfid, ok_get_bind, EnqMap.insertPfid, h', ok_set]
  exact ⟨_, rfl⟩

theorem setAioCompl_isOk (m : Maps) (xid : Xid) (rid : Nat)
    (h : ∃ td ∈ m.tmap.getTdataList xid, td.rid = rid) :
    ∃ m', setAioCompl xid rid m = .ok () m' := by
  obtain ⟨td, hm, hr⟩ := h
  unfold TxnMap.getTdataList at hm
  cases hx : m.tmap.map[xid]? with
  | none =>
    rw [hx] at hm
    cases hm
  | some l =>
    rw [hx, Option.getD_some] at hm
    have ha : l.any (·.rid == rid) = true := List.any_eq_true.mpr ⟨td, hm, by simp [hr]⟩
    simp only [setAioCompl, ok_get_bind, TxnMap.setAioCompl, hx, ha, if_true, ok_set]
    exact ⟨_, rfl⟩

theorem rcvrRemove_isOk (m : Maps) (drid : Nat) : ∃ m', rcvrRemove drid m = .ok () m' := by
  simp only [rcvrRemove, ok_get_bind]
  cases hr : m.emap.map[drid]? with
  | none => exact ⟨_, by simp only [EnqMap.getRemovePfid, hr]; rfl⟩
  | some d =>
    simp only [EnqMap.getRemovePfid, hr, Bool.not_true, Bool.and_false, Bool.false_eq_true,
      if_false]
    exact ⟨_, rfl⟩

theorem rcvrCommit_isOk {tdl : List TxnData} {m : Maps} (hn : (tdl.map (·.rid)).Nodup)
    (hf : ∀ td ∈ tdl, td.enqFlag = true → m.view.enq td.rid = none) :
    ∃ m', tdl.forM rcvrCommitEntry m = .ok () m' := by
  induction tdl generalizing m with
  | nil => exact ⟨m, rfl⟩
  | cons td tdl ih =>
    rw [List.map_cons, List.nodup_cons] at hn
    have h₁ : ∃ m₁, rcvrCommitEntry td m = .ok () m₁ := by
      unfold rcvrCommitEntry
      cases he : td.enqFlag with
      | true =>
        simp only [if_true]
        exact insertPfid_isOk _ (hf td (by simp) he)
      | false =>
        simp only [Bool.false_eq_true, if_false]
        exact rcvrRemove_isOk _ _
    obtain ⟨m₁, h₁⟩ := h₁
    obtain ⟨m₂, h₂⟩ : ∃ m₂, tdl.forM rcvrCommitEntry m₁ = .ok () m₂ := by
      refine ih hn.2 ?_
      intro td' hm he
      rw [view_rcvrCommitEntry _ h₁]
      by_contra hne
      obtain ⟨d, hd⟩ := Option.ne_none_iff_exists'.mp hne
      rcases View.enq_commitEntry hd with hd | ⟨-, hr, -⟩
      · rw [hf td' (by simp [hm]) he] at hd
        cases hd
      · exact hn.1 (List.mem_map.mpr ⟨td', hm, hr⟩)
    exact ⟨m₂, ok_bind.mpr ⟨(), m₁, h₁, h₂⟩⟩

theorem rcvrAbort_isOk (tdl : List TxnData) (m : Maps) :
    ∃ m', tdl.forM rcvrAbortEntry m = .ok () m' := by
  induction tdl generalizing m with
  | nil => exact ⟨m, rfl⟩
  | cons td tdl ih =>
    have h₁ : ∃ m₁, rcvrAbortEntry td m = .ok () m₁ := by
      unfold rcvrAbortEntry
      split
      · exact ⟨_, rfl⟩
      · exact ⟨_, rfl⟩
    obtain ⟨m₁, h₁⟩ := h₁
    obtain ⟨m₂, h₂⟩ := ih m₁
    exact ⟨m₂, ok_bind.mpr ⟨(), m₁, h₁, h₂⟩⟩

private theorem close_enq (m : Maps) (xid : Xid) {m' : Maps} {tdl : List TxnData}
    (h : getRemoveTdataList xid m = .ok tdl m') :
    tdl.map TxnData.core = m.view.opn xid ∧ m'.view.enq = m.view.enq := by
  obtain ⟨rfl, hv, -⟩ := ok_getRemoveTdataList xid h
  rw [hv]
  exact ⟨rfl, rfl⟩

theorem getRemoveTdataList_isOk (m : Maps) (xid : Xid) :
    ∃ tdl m', getRemoveTdataList xid m = .ok tdl m' := ⟨_, _, rfl⟩

/-- With a new rid no branch of the switch throws. -/
theorem rcvrRecord_isOk {m : Maps} {log : List Placed} {p : Placed} (h : m.view.FromLog log)
    (hn : (rids (log ++ [p])).Nodup) : ∃ m', rcvrRecord p.fid p.jrec m = .ok () m' := by
  have hn' : (rids log).Nodup := by
    rw [rids, List.map_append] at hn
    exact hn.of_append_left
  cases hp : p.jrec with
  | enq rid xid ds t e =>
    have hfree : m.view.enq rid = none := by
      by_contra hne
      obtain ⟨d, hd⟩ := Option.ne_none_iff_exists'.mp hne
      obtain ⟨q, hq, -, _, _, _, _, hqe⟩ := h.enq _ _ hd
      rw [rids, List.map_append, List.nodup_append] at hn
      refine hn.2.2 q.jrec.rid (List.mem_map_of_mem hq) p.jrec.rid (by simp) ?_
      rw [hqe, hp]
      rfl
    simp only [rcvrRecord, rcvrEnq]
    by_cases ht : t = true
    · simp only [ht, if_true]
      exact ⟨m, rfl⟩
    · simp only [ht, Bool.false_eq_true, if_false]
      by_cases hx : xid = []
      · simp only [hx, ne_eq, not_true_eq_false, if_false]
        obtain ⟨m', hm'⟩ := insertPfid_isOk
          (m := { m with enqCnt := m.enqCnt.modify p.fid (· + 1) }) p.fid hfree
        exact ⟨m', ok_bind.mpr ⟨(), _, rfl, hm'⟩⟩
      · simp only [hx, ne_eq, not_false_eq_true, if_true]
        let td : TxnData := { rid := rid, drid := 0, pfid := p.fid, enqFlag := true }
        obtain ⟨m', hm'⟩ := setAioCompl_isOk
          { m with enqCnt := m.enqCnt.modify p.fid (· + 1),
                   tmap := m.tmap.insertTxnData xid td } xid rid
          ⟨td, by simp [getTdataList_insertTxnData], rfl⟩
        exact ⟨m', ok_bind.mpr ⟨(), _, rfl, ok_bind.mpr ⟨(), _, rfl, hm'⟩⟩⟩
  | deq rid drid xid c =>
    simp only [rcvrRecord, rcvrDeq]
    by_cases hx : xid = []
    · simp only [hx, ne_eq, not_true_eq_false, if_false]
      exact rcvrRemove_isOk m drid
    · simp only [hx, ne_eq, not_false_eq_true, if_true]
      let td : TxnData :=
        { rid := rid, drid := drid, pfid := p.fid, enqFlag := false, commitFlag := c }
      obtain ⟨m', hm'⟩ := setAioCompl_isOk
        { m with emap := (m.emap.lock drid).toOption.getD m.emap,
                 tmap := m.tmap.insertTxnData xid td } xid rid
        ⟨td, by simp [getTdataList_insertTxnData], rfl⟩
      exact ⟨m', ok_bind.mpr ⟨(), _, rfl, ok_bind.mpr ⟨(), _, rfl, hm'⟩⟩⟩
  | txa rid xid =>
    obtain ⟨tdl, m₁, h₁⟩ := getRemoveTdataList_isOk m xid
    obtain ⟨m₂, h₂⟩ := rcvrAbort_isOk tdl m₁
    exact ⟨m₂, ok_bind.mpr ⟨tdl, m₁, h₁, h₂⟩⟩
  | txc rid xid =>
    obtain ⟨tdl, m₁, h₁⟩ := getRemoveTdataList_isOk m xid
    obtain ⟨hc, he⟩ := close_enq m xid h₁
    obtain ⟨m₂, h₂⟩ : ∃ m₂, tdl.forM rcvrCommitEntry m₁ = .ok () m₂ := by
      refine rcvrCommit_isOk ?_ ?_
      · have hr : tdl.map (·.rid) = (m.view.opn xid).map (·.rid) := by
          rw [← hc, List.map_map]
          rfl
        rw [hr, h.opn]
        exact hn'.sublist (openEntries_rids xid log)
      · intro td hm hf
        rw [he]
        exact h.fresh xid td.core (hc ▸ List.mem_map_of_mem hm) hf
    exact ⟨m₂, ok_bind.mpr ⟨tdl, m₁, h₁, h₂⟩⟩

theorem view_init (n : Nat) : (init n).view = View.empty := by
  ext1
  · funext r
    simp [view, init, EnqMap.setNumJfiles, EnqMap.empty, View.empty]
  · funext x
    simp [view, init, TxnMap.getTdataList, TxnMap.setNumJfiles, TxnMap.empty, View.empty]

theorem replay_append (l l' : List Placed) :
    replay (l ++ l') = (replay l >>= fun _ => replay l') :=
  List.forM_append

/-- Replay of records with distinct rids does not throw. -/
theorem replay_isOk (n : Nat) {log : List Placed} (hn : (rids log).Nodup)
    (ht : ∀ p ∈ log, p.jrec.isTransient = false) :
    ∃ m, replay log (init n) = .ok () m ∧ m.view = View.empty.applyAll log ∧ m.Shaped n ∧
      m.Counted := by
  induction log using List.reverseRecOn with
  | nil => exact ⟨init n, rfl, view_init n, init_shaped n, init_counted n⟩
  | append_singleton log p ih =>
    have hn' : (rids log).Nodup := by
      rw [rids, List.map_append] at hn
      exact hn.of_append_left
    obtain ⟨m, hm, hv, hs, hc⟩ := ih hn' fun q hq => ht q (by simp [hq])
    obtain ⟨m', hm'⟩ := rcvrRecord_isOk (hv ▸ View.fromLog_applyAll hn') hn
    refine ⟨m', ?_, ?_, (keeps_rcvrRecord _ _).of_ok hs hm', counted_rcvrRecord _ _ hc hm'⟩
    · rw [replay_append]
      exact ok_bind.mpr ⟨(), m, hm, ok_bind.mpr ⟨(), m', hm', rfl⟩⟩
    · rw [view_rcvrRecord _ _ (ht p (by simp)) hm', hv, View.applyAll_concat]

/-- The same records in the same files with the same locks, the same operations of each open
transaction in the same order, and the same counts. -/
structure Same (m m' : Maps) : Prop where
  emap : m.emap.map = m'.emap.map
  tmap : ∀ x : Xid, (m.tmap.map[x]?).map (·.map TxnData.core) =
    (m'.tmap.map[x]?).map (·.map TxnData.core)
  enqCnt : m.enqCnt = m'.enqCnt

private theorem tmap_of_view {n : Nat} {m m' : Maps} (hv : m.view = m'.view) (hs : m.Shaped n)
    (hs' : m'.Shaped n) (x : Xid) : (m.tmap.map[x]?).map (·.map TxnData.core) =
      (m'.tmap.map[x]?).map (·.map TxnData.core) := by
  have ho := congrFun (congrArg View.opn hv) x
  have hn := hs.nonempty x
  have hn' := hs'.nonempty x
  simp only [view, TxnMap.getTdataList] at ho
  cases hx : m.tmap.map[x]? with
  | none =>
    cases hx' : m'.tmap.map[x]? with
    | none => rfl
    | some l' =>
      rw [hx, hx'] at ho
      rw [hx'] at hn'
      have hl : l' = [] := List.map_eq_nil_iff.mp ho.symm
      exact (hn' (by rw [hl])).elim
  | some l =>
    cases hx' : m'.tmap.map[x]? with
    | none =>
      rw [hx, hx'] at ho
      rw [hx] at hn
      have hl : l = [] := List.map_eq_nil_iff.mp ho
      exact (hn (by rw [hl])).elim
    | some l' =>
      rw [hx, hx'] at ho
      exact congrArg some ho

private theorem entryCnt_core (f : Nat) (l : List TxnData) :
    entryCnt f (l.map TxnData.core) = entryCnt f l := by
  unfold entryCnt
  rw [List.countP_map]
  rfl

/-- Maps that mean the same are the same, the counts included. -/
theorem same_of_view {n : Nat} {m m' : Maps} (hv : m.view = m'.view) (hs : m.Shaped n)
    (hs' : m'.Shaped n) (hc : m.Counted) (hc' : m'.Counted) : m.Same m' := by
  have he : m.emap.map = m'.emap.map := by
    apply Std.ExtTreeMap.ext_getElem?
    intro r
    exact congrFun (congrArg View.enq hv) r
  have ht : ∀ x : Xid, (m.tmap.map[x]?).map (·.map TxnData.core) =
      (m'.tmap.map[x]?).map (·.map TxnData.core) := tmap_of_view hv hs hs'
  refine ⟨he, ht, ?_⟩
  apply List.ext_getElem
  · rw [hs.length, hs'.length]
  · intro f hf hf'
    have h₁ := (counted_iff m).mp hc f hf
    have h₂ := (counted_iff m').mp hc' f hf'
    have hE : m.emap.held f = m'.emap.held f := by rw [EnqMap.held, EnqMap.held, he]
    have hT : m.tmap.held f = m'.tmap.held f := by
      have := mapWeight_congr (fun l : List TxnData => l.map TxnData.core)
        (fun _ l => entryCnt f l) m.tmap.map m'.tmap.map ht
      simp only [entryCnt_core] at this
      exact this
    rw [List.getD_eq_getElem _ _ hf] at h₁
    rw [List.getD_eq_getElem _ _ hf'] at h₂
    rw [h₁, h₂, hE, hT]

end Maps

end RhmStore
