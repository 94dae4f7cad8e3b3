import RhmStore.Log.Shaped

/-! # Replay of a log whose oldest records are gone

A file is overwritten only with all that is in it unused, but later records still name the records
that went with it. -/

namespace RhmStore

/-- The rids that records of `pre` have or dequeue. -/
def Named (pre : List Placed) (r : Nat) : Prop :=
  r ∈ rids pre ∨ ∃ p ∈ pre, ∃ rid xid c, p.jrec = .deq rid r xid c

/-- `s` lacks the records in `p` and is else as `f`. -/
def Without (p : Nat → Prop) (f s : View) : Prop :=
  ∀ r, (p r → s.enq r = none) ∧ (¬p r → s.enq r = f.enq r)

namespace Without

variable {p : Nat → Prop} {f s : View}

theorem insert (h : Without p f s) {rid : Nat} (fid : Nat) (hr : ¬p rid) :
    Without p (f.insert rid fid) (s.insert rid fid) := by
  intro r
  by_cases hrr : r = rid
  · subst hrr
    exact ⟨fun hq => (hr hq).elim, fun _ => by simp [View.insert]⟩
  · simpa only [View.insert, Function.update_of_ne hrr] using h r

theorem insert_left (h : Without p f s) {rid : Nat} (fid : Nat) (hr : p rid) :
    Without p (f.insert rid fid) s := by
  intro r
  refine ⟨(h r).1, fun hq => ?_⟩
  have hrr : r ≠ rid := fun he => hq (he ▸ hr)
  simpa only [View.insert, Function.update_of_ne hrr] using (h r).2 hq

theorem remove (h : Without p f s) (rid : Nat) : Without p (f.remove rid) (s.remove rid) := by
  intro r
  by_cases hrr : r = rid
  · subst hrr
    exact ⟨fun _ => by simp [View.remove], fun _ => by simp [View.remove]⟩
  · simpa only [View.remove, Function.update_of_ne hrr] using h r

theorem remove_left (h : Without p f s) {rid : Nat} (hr : p rid) :
    Without p (f.remove rid) s := by
  intro r
  refine ⟨(h r).1, fun hq => ?_⟩
  have hrr : r ≠ rid := fun he => hq (he ▸ hr)
  simpa only [View.remove, Function.update_of_ne hrr] using (h r).2 hq

theorem setLock (h : Without p f s) (rid : Nat) (b : Bool) :
    Without p (f.setLock rid b) (s.setLock rid b) := by
  intro r
  by_cases hrr : r = rid
  · subst hrr
    refine ⟨fun hq => ?_, fun hq => ?_⟩
    · simp [View.setLock, (h r).1 hq]
    · simp [View.setLock, (h r).2 hq]
  · simpa only [View.setLock, Function.update_of_ne hrr] using h r

theorem setLock_left (h : Without p f s) {rid : Nat} (b : Bool) (hr : p rid) :
    Without p (f.setLock rid b) s := by
  intro r
  refine ⟨(h r).1, fun hq => ?_⟩
  have hrr : r ≠ rid := fun he => hq (he ▸ hr)
  simpa only [View.setLock, Function.update_of_ne hrr] using (h r).2 hq

end Without

/-- `s` lacks the records named by `pre` and is else as `f`. -/
def Lacks (pre : List Placed) (f s : View) : Prop := Without (Named pre) f s

/-- An operation of `pre` is about records named by `pre`, another has a rid that is not. -/
def Sorted (pre : List Placed) (td : TxnData) : Prop :=
  (td.rid ∈ rids pre → td.enqFlag = false → Named pre td.drid) ∧
    (td.rid ∉ rids pre → td.enqFlag = true → ¬Named pre td.rid)

namespace Lacks

variable {pre : List Placed} {f s : View}

theorem foldl_abort (h : Lacks pre f s) (tdl : List TxnData) (ht : ∀ td ∈ tdl, Sorted pre td) :
    Lacks pre (tdl.foldl View.abortEntry f)
      ((tdl.filter fun td => td.rid ∉ rids pre).foldl View.abortEntry s) := by
  induction tdl generalizing f s with
  | nil => exact h
  | cons td tdl ih =>
    have ht' : ∀ td' ∈ tdl, Sorted pre td' := fun td' hm => ht td' (by simp [hm])
    have htd := ht td (by simp)
    by_cases hp : td.rid ∈ rids pre
    · rw [List.filter_cons_of_neg (by simpa using hp), List.foldl_cons]
      refine ih ?_ ht'
      unfold View.abortEntry
      cases he : td.enqFlag with
      | true => exact h
      | false => exact Without.setLock_left h false (htd.1 hp he)
    · rw [List.filter_cons_of_pos (by simpa using hp), List.foldl_cons, List.foldl_cons]
      refine ih ?_ ht'
      unfold View.abortEntry
      cases he : td.enqFlag with
      | true => exact h
      | false => exact Without.setLock h td.drid false

theorem foldl_commit (h : Lacks pre f s) (tdl : List TxnData) (ht : ∀ td ∈ tdl, Sorted pre td) :
    Lacks pre (tdl.foldl View.commitEntry f)
      ((tdl.filter fun td => td.rid ∉ rids pre).foldl View.commitEntry s) := by
  induction tdl generalizing f s with
  | nil => exact h
  | cons td tdl ih =>
    have ht' : ∀ td' ∈ tdl, Sorted pre td' := fun td' hm => ht td' (by simp [hm])
    have htd := ht td (by simp)
    by_cases hp : td.rid ∈ rids pre
    · rw [List.filter_cons_of_neg (by simpa using hp), List.foldl_cons]
      refine ih ?_ ht'
      unfold View.commitEntry
      cases he : td.enqFlag with
      | true => exact Without.insert_left h td.pfid (Or.inl hp)
      | false => exact Without.remove_left h (htd.1 hp he)
    · rw [List.filter_cons_of_pos (by simpa using hp), List.foldl_cons, List.foldl_cons]
      refine ih ?_ ht'
      unfold View.commitEntry
      cases he : td.enqFlag with
      | true => exact Without.insert h td.pfid (htd.2 hp he)
      | false => exact Without.remove h td.drid

end Lacks

/-- No record of `rest` is named by `pre`. -/
def Apart (pre rest : List Placed) : Prop := ∀ p ∈ rest, ¬Named pre p.jrec.rid

private theorem entry_filter {pre : List Placed} {p : Placed} (hp : ¬Named pre p.jrec.rid)
    (x : Xid) : (p.entry x).filter (fun td => td.rid ∉ rids pre) = p.entry x := by
  rw [List.filter_eq_self]
  intro td hm
  have hr := (mem_entry hm).1
  have : td.rid ∉ rids pre := fun hc => hp (Or.inl (hr ▸ hc))
  simpa using this

theorem openEntries_drop {pre rest : List Placed} (h : Apart pre rest) (x : Xid) :
    openEntries x rest = (openEntries x (pre ++ rest)).filter fun td => td.rid ∉ rids pre := by
  induction rest using List.reverseRecOn with
  | nil =>
    symm
    change _ = ([] : List TxnData)
    rw [List.append_nil, List.filter_eq_nil_iff]
    intro td hm
    have : td.rid ∈ rids pre :=
      (openEntries_rids x pre).subset (List.mem_map_of_mem hm)
    simpa using this
  | append_singleton rest p ih =>
    rw [← List.append_assoc, openEntries_concat, openEntries_concat,
      ih fun q hq => h q (by simp [hq])]
    split
    · rfl
    · rw [List.filter_append, entry_filter (h p (by simp)) x]

theorem openEntries_sorted {pre rest : List Placed} (h : Apart pre rest) {x : Xid} {td : TxnData}
    (hm : td ∈ openEntries x (pre ++ rest)) : Sorted pre td := by
  obtain ⟨p, hp, he⟩ := mem_openEntries hm
  have hpe := mem_entry he
  rcases List.mem_append.mp hp with hp | hp
  · refine ⟨fun _ hf => ?_, fun hr => ?_⟩
    · obtain ⟨c, hj⟩ := hpe.2.2.2.2.2.1 hf
      exact Or.inr ⟨p, hp, _, _, _, hj⟩
    · exact (hr (hpe.1 ▸ List.mem_map_of_mem hp)).elim
  · refine ⟨fun hr => ?_, fun _ _ => ?_⟩
    · exact (h p hp (Or.inl (hpe.1 ▸ hr))).elim
    · exact hpe.1 ▸ h p hp

/-- Replay without the prefix lacks only what the prefix names. -/
theorem lacks_drop {pre rest : List Placed} (h : Apart pre rest) :
    Lacks pre (View.empty.applyAll (pre ++ rest)) (View.empty.applyAll rest) := by
  induction rest using List.reverseRecOn with
  | nil =>
    intro r
    refine ⟨fun _ => rfl, fun hr => ?_⟩
    rw [List.append_nil]
    by_contra hne
    have hsome : ∃ d, (View.empty.applyAll pre).enq r = some d := by
      cases hd : (View.empty.applyAll pre).enq r with
      | none => exact (hne (by rw [hd]; rfl)).elim
      | some d => exact ⟨d, rfl⟩
    obtain ⟨d, hd⟩ := hsome
    exact hr (Or.inl (View.enq_applyAll hd))
  | append_singleton rest p ih =>
    have h' : Apart pre rest := fun q hq => h q (by simp [hq])
    have hp := h p (by simp)
    rw [← List.append_assoc, View.applyAll_concat, View.applyAll_concat]
    have hi := ih h'
    generalize hf : View.empty.applyAll (pre ++ rest) = f at hi
    generalize hs : View.empty.applyAll rest = s at hi
    have hop : ∀ x, s.opn x = (f.opn x).filter fun td => td.rid ∉ rids pre := by
      intro x
      rw [← hf, ← hs, View.opn_applyAll, View.opn_applyAll, openEntries_drop h']
    have hso : ∀ x, ∀ td ∈ f.opn x, Sorted pre td := by
      intro x td hm
      rw [← hf, View.opn_applyAll] at hm
      exact openEntries_sorted h' hm
    cases hj : p.jrec with
    | enq rid xid ds t e =>
      rw [hj] at hp
      simp only [View.apply]
      split
      · exact Without.insert hi p.fid hp
      · exact hi
    | deq rid drid xid c =>
      simp only [View.apply]
      split
      · exact Without.remove hi drid
      · exact Without.setLock hi drid true
    | txa rid xid =>
      simp only [View.apply]
      rw [hop]
      exact Lacks.foldl_abort (show Lacks pre (f.close xid) (s.close xid) from hi) _ (hso xid)
    | txc rid xid =>
      simp only [View.apply]
      rw [hop]
      exact Lacks.foldl_commit (show Lacks pre (f.close xid) (s.close xid) from hi) _ (hso xid)

end RhmStore
