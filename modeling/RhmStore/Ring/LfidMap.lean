import RhmStore.Ring.Lpmgr
import Mathlib.Data.List.Range

/-! # The file map as the list of its physical files

Slot `i` of the map holds the file with lfid `i`, so the pfids in order say everything. -/

namespace RhmStore

namespace Lpmgr

/-- The slots from `k` on of the files with these pfids. -/
def slotsFrom : Nat → List Nat → List (Option FileIds)
  | _, [] => []
  | k, p :: ids => some ⟨k, p⟩ :: slotsFrom (k + 1) ids

def slots (ids : List Nat) : List (Option FileIds) := slotsFrom 0 ids

variable {k : Nat} {ids : List Nat} {fp : NewObj} {s s' : Lpmgr}

@[simp] theorem length_slotsFrom (k : Nat) (ids : List Nat) : (slotsFrom k ids).length = ids.length := by
  induction ids generalizing k with
  | nil => rfl
  | cons p ids ih => rw [slotsFrom, List.length_cons, ih, List.length_cons]

@[simp] theorem length_slots (ids : List Nat) : (slots ids).length = ids.length := length_slotsFrom 0 ids

theorem slotsFrom_append (k : Nat) (ids ids' : List Nat) :
    slotsFrom k (ids ++ ids') = slotsFrom k ids ++ slotsFrom (k + ids.length) ids' := by
  induction ids generalizing k with
  | nil => rfl
  | cons p ids ih =>
    rw [List.cons_append, slotsFrom, slotsFrom, ih, List.cons_append, List.length_cons]
    congr 3
    omega

theorem getElem?_slotsFrom (k : Nat) (ids : List Nat) (i : Nat) :
    (slotsFrom k ids)[i]? = ids[i]?.map fun p => some ⟨k + i, p⟩ := by
  induction ids generalizing k i with
  | nil => rfl
  | cons p ids ih =>
    cases i with
    | zero => rfl
    | succ i =>
      rw [slotsFrom, List.getElem?_cons_succ, ih, List.getElem?_cons_succ]
      have hki : k + 1 + i = k + (i + 1) := by omega
      rw [hki]

theorem getElem?_slots (ids : List Nat) (i : Nat) :
    (slots ids)[i]? = ids[i]?.map fun p => some ⟨i, p⟩ := by
  rw [slots, getElem?_slotsFrom]
  simp only [Nat.zero_add]

theorem filterMap_slotsFrom (k : Nat) (ids : List Nat) :
    (slotsFrom k ids).filterMap (fun p => p.map FileIds.pfid) = ids := by
  induction ids generalizing k with
  | nil => rfl
  | cons p ids ih =>
    rw [slotsFrom, List.filterMap_cons, ih]
    rfl

theorem map_shift_slotsFrom (k n : Nat) (ids : List Nat) :
    (slotsFrom k ids).map (fun p => p.map fun f => { f with lfid := f.lfid + n }) =
      slotsFrom (k + n) ids := by
  induction ids generalizing k with
  | nil => rfl
  | cons p ids ih =>
    rw [slotsFrom, List.map_cons, ih, slotsFrom]
    have hk : k + 1 + n = k + n + 1 := by omega
    rw [hk]
    rfl

theorem getPfidList_eq (h : s.fcntlArr = slots ids) : s.getPfidList = ids := by
  rw [getPfidList, h, slots, filterMap_slotsFrom]

theorem numJfiles_eq (h : s.fcntlArr = slots ids) : s.numJfiles = ids.length := by
  rw [numJfiles, h, length_slots]

/-! ## The loops -/

theorem wp_newFcntl (lfid pfid : Nat) :
    wp (newFcntl fp lfid pfid) (fun f t => fp lfid pfid = true ∧ f = ⟨lfid, pfid⟩ ∧ t = s)
      (fun _ t => ¬fp lfid pfid = true ∧ t = s) s := by
  rw [newFcntl]
  by_cases h : fp lfid pfid = true
  · rw [if_pos h]
    exact ⟨h, rfl, rfl⟩
  · rw [if_neg h]
    exact ⟨h, rfl⟩

theorem wp_appendLoop (h : s.fcntlArr = slots ids) (k : Nat) :
    wp (appendLoop fp ids.length k)
      (fun _ t => t = { s with fcntlArr := slots (ids ++ List.range' ids.length k) })
      (fun _ _ => True) s := by
  induction k generalizing s ids with
  | zero =>
    rw [appendLoop, List.range'_zero, List.append_nil, ← h]
    rfl
  | succ k ih =>
    rw [appendLoop, wp_bind]
    apply wp_mono (wp_newFcntl _ _) _ fun _ _ _ => trivial
    intro f t ht
    obtain ⟨-, rfl, rfl⟩ := ht
    have harr : t.fcntlArr ++ [some ⟨ids.length, ids.length⟩] = slots (ids ++ [ids.length]) := by
      rw [h, slots, slots, slotsFrom_append, Nat.zero_add]
      rfl
    have hih := ih (s := { t with fcntlArr := t.fcntlArr ++ [some ⟨ids.length, ids.length⟩] }) harr
    rw [List.length_append, List.length_singleton, List.append_assoc] at hih
    rw [wp_bind, modArr, wp_modify]
    exact hih

theorem insertIdx_append (front back : List (Option FileIds)) (f : Option FileIds) :
    (front ++ back).insertIdx front.length f = front ++ f :: back := by
  induction front with
  | nil => rfl
  | cons g front ih =>
    rw [List.cons_append, List.length_cons, List.insertIdx_succ_cons, ih]
    rfl

theorem wp_insertLoop {front back : List (Option FileIds)} {lid pfid : Nat}
    (h : s.fcntlArr = front ++ back) (hl : front.length = lid)
    (hf : ∀ j < k, fp (lid + j) (pfid + j) = true) :
    wp (insertLoop fp lid pfid k)
      (fun _ t => t = { s with fcntlArr := front ++ slotsFrom lid (List.range' pfid k) ++ back })
      (fun _ _ => False) s := by
  induction k generalizing s front lid pfid with
  | zero =>
    rw [insertLoop, List.range'_zero, slotsFrom, List.append_nil, ← h]
    rfl
  | succ k ih =>
    rw [insertLoop, wp_bind]
    apply wp_mono (wp_newFcntl _ _)
    · intro f t ht
      obtain ⟨-, rfl, rfl⟩ := ht
      have hins : t.fcntlArr.insertIdx lid (some ⟨lid, pfid⟩) = front ++ [some ⟨lid, pfid⟩] ++ back := by
        rw [h, ← hl, insertIdx_append, List.append_assoc]
        rfl
      have hf' : ∀ j < k, fp (lid + 1 + j) (pfid + 1 + j) = true := by
        intro j hj
        have hfj := hf (j + 1) (by omega)
        rwa [← Nat.add_assoc, ← Nat.add_assoc, Nat.add_right_comm lid, Nat.add_right_comm pfid] at hfj
      have hih := ih (s := { t with fcntlArr := t.fcntlArr.insertIdx lid (some ⟨lid, pfid⟩) })
        hins (by simp [hl]) hf'
      rw [wp_bind, modArr, wp_modify]
      apply wp_mono hih _ fun _ _ he => he
      intro _ u hu
      rw [hu, List.range'_succ, slotsFrom, List.append_assoc front, List.singleton_append]
    · intro e t ht
      exact ht.1 (hf 0 (Nat.succ_pos k))

/-! ## The calls -/

/-- The limit stands where `initialize` accepts it. -/
theorem wp_init {n : Nat} {ae : Bool} {m : Nat} :
    wp (init n ae m fp)
      (fun _ t => t = ⟨ae, m, slots (List.range n)⟩ ∧ (ae = true → m = 0 ∨ n < m)) (fun _ _ => True) s := by
  rw [init, wp_bind, finalize, wp_set]
  by_cases hlim : ae ∧ 0 < m ∧ m ≤ n
  · rw [if_pos hlim]
    trivial
  · rw [if_neg hlim, wp_bind, wp_modify, append, wp_bind, wp_get]
    by_cases happ : m ≠ 0 ∧ m < 0 + n
    · exact (if_pos happ).symm ▸ trivial
    · have hnil : (⟨ae, m, []⟩ : Lpmgr).fcntlArr = slots [] := rfl
      have hloop : wp (appendLoop fp [].length n) _ _ _ := wp_appendLoop hnil n
      rw [List.nil_append, List.length_nil, ← List.range_eq_range'] at hloop
      have hpost : wp (appendLoop fp 0 n) (fun _ t => t = ⟨ae, m, slots (List.range n)⟩ ∧
          (ae = true → m = 0 ∨ n < m)) (fun _ _ => True) ⟨ae, m, []⟩ := by
        apply wp_mono hloop _ fun _ _ _ => trivial
        intro _ t ht
        refine ⟨ht, ?_⟩
        intro hae
        by_contra hor
        exact hlim ⟨hae, by omega, by omega⟩
      exact (if_neg happ).symm ▸ hpost

/-- The pfids with `k` new files behind lfid `a`. -/
def insertIds (a k : Nat) (ids : List Nat) : List Nat :=
  ids.take (a + 1) ++ List.range' ids.length k ++ ids.drop (a + 1)

theorem shiftLfids_slots {a : Nat} (ha : a < ids.length) (k : Nat) :
    shiftLfids (a + k + 1) k (slots (ids.take (a + 1)) ++
      slotsFrom (a + 1) (List.range' ids.length k) ++ slotsFrom (a + 1) (ids.drop (a + 1))) =
      slots (insertIds a k ids) := by
  have hlen : (ids.take (a + 1)).length = a + 1 := by
    rw [List.length_take, Nat.min_eq_left ha]
  have hfront : (slots (ids.take (a + 1)) ++
      slotsFrom (a + 1) (List.range' ids.length k)).length = a + k + 1 := by
    rw [List.length_append, length_slots, hlen, length_slotsFrom, List.length_range']
    omega
  rw [shiftLfids, ← hfront, List.take_left, List.drop_left, map_shift_slotsFrom]
  rw [insertIds, slots, slots, slotsFrom_append, slotsFrom_append, Nat.zero_add, List.length_append]
  rw [hlen, List.length_range', Nat.zero_add]

/-- Where an insert creates its first file, it creates all of them; and an insert of no files is not
called with more files than the limit. -/
def Completes (s : Lpmgr) (a : Nat) (fp : NewObj) (k : Nat) : Prop :=
  (fp (a + 1) s.numJfiles = true → ∀ j < k, fp (a + 1 + j) (s.numJfiles + j) = true) ∧
    (k = 0 → s.ae = true → s.numJfiles ≤ s.effAeMaxJfiles)

theorem wp_insert (h : s.fcntlArr = slots ids) {a : Nat} (hc : s.Completes a fp k) :
    wp (insert a fp k)
      (fun _ t => a < ids.length ∧ ids.length + k ≤ s.effAeMaxJfiles ∧
        t = { s with fcntlArr := slots (insertIds a k ids) })
      (fun _ t => t = s) s := by
  have hn := numJfiles_eq h
  rw [Completes, hn] at hc
  rw [insert, wp_bind, wp_get, hn]
  by_cases ha : a < ids.length
  · rw [if_neg (not_not.mpr ha)]
    by_cases hae : s.ae = true
    · rw [if_neg (not_not.mpr hae)]
      by_cases hk : k = 0
      · rw [if_pos hk]
        subst hk
        refine ⟨ha, hc.2 rfl hae, ?_⟩
        rw [insertIds, List.range'_zero, List.append_nil, List.take_append_drop, ← h]
      · rw [if_neg hk]
        by_cases hlim : s.effAeMaxJfiles < ids.length + k
        · rw [if_pos hlim]
          rfl
        · rw [if_neg hlim, wp_bind]
          by_cases hf : fp (a + 1) ids.length = true
          · have harr : s.fcntlArr = slots (ids.take (a + 1)) ++ slotsFrom (a + 1) (ids.drop (a + 1)) := by
              rw [h, slots, slots]
              conv_lhs => rw [← List.take_append_drop (a + 1) ids, slotsFrom_append]
              rw [List.length_take, Nat.min_eq_left ha, Nat.zero_add]
            have hlen : (slots (ids.take (a + 1))).length = a + 1 := by
              rw [length_slots, List.length_take, Nat.min_eq_left ha]
            apply wp_mono (wp_insertLoop harr hlen (hc.1 hf)) _ fun _ _ he => he.elim
            intro _ t ht
            rw [modArr, wp_modify, ht]
            refine ⟨ha, Nat.le_of_not_lt hlim, ?_⟩
            simp only [shiftLfids_slots ha]
          · cases k with
            | zero => exact (hk rfl).elim
            | succ k =>
              rw [insertLoop, wp_bind]
              apply wp_mono (wp_newFcntl _ _)
              · intro f t ht
                exact (hf ht.1).elim
              · intro e t ht
                exact ht.2
    · rw [if_pos hae]
      rfl
  · rw [if_pos ha]
    rfl

theorem wp_setAe (ae : Bool) :
    wp (setAe ae) (fun _ t => t = { s with ae := ae }) (fun _ t => t = s) s := by
  rw [setAe, wp_bind, wp_get]
  by_cases h : ae ∧ 0 < s.aeMaxJfiles ∧ s.aeMaxJfiles ≤ s.numJfiles
  · rw [if_pos h]
    rfl
  · rw [if_neg h]
    rfl

theorem wp_setAeMaxJfiles (n : Nat) :
    wp (setAeMaxJfiles n) (fun _ t => t = { s with aeMaxJfiles := n }) (fun _ t => t = s) s := by
  rw [setAeMaxJfiles, wp_bind, wp_get]
  by_cases h : s.ae ∧ 0 < n ∧ n ≤ s.numJfiles
  · rw [if_pos h]
    rfl
  · rw [if_neg h]
    rfl

end Lpmgr

end RhmStore
