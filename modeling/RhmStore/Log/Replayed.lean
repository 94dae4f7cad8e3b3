import RhmStore.Log.Counted
import Mathlib.Data.List.Nodup
import Mathlib.Data.List.Induction

/-! # Replay of records with distinct rids

It never throws, and leaves open exactly the operations that no later commit or abort closes. -/

namespace RhmStore

/-- The operation a record adds to the open transaction `x`. -/
def Placed.entry (p : Placed) (x : Xid) : List TxnData :=
  match p.jrec with
  | .enq rid xid _ _ _ =>
    if xid = x ∧ x ≠ [] then [{ rid := rid, drid := 0, pfid := p.fid, enqFlag := true }] else []
  | .deq rid drid xid _ =>
    if xid = x ∧ x ≠ [] then [{ rid := rid, drid := drid, pfid := p.fid, enqFlag := false }] else []
  | _ => []

/-- The record commits or aborts `x`. -/
def JRec.closes (r : JRec) (x : Xid) : Bool :=
  match r with
  | .txa _ xid => xid == x
  | .txc _ xid => xid == x
  | _ => false

/-- The operations of `x` after its last commit or abort. -/
def openEntries (x : Xid) (log : List Placed) : List TxnData :=
  log.foldl (fun l p => if p.jrec.closes x then [] else l ++ p.entry x) []

theorem openEntries_concat (x : Xid) (log : List Placed) (p : Placed) :
    openEntries x (log ++ [p]) =
      if p.jrec.closes x then [] else openEntries x log ++ p.entry x := by
  simp [openEntries]

namespace View

theorem opn_abortEntry (v : View) (td : TxnData) : (v.abortEntry td).opn = v.opn := by
  unfold abortEntry
  split <;> rfl

theorem opn_commitEntry (v : View) (td : TxnData) : (v.commitEntry td).opn = v.opn := by
  unfold commitEntry
  split <;> rfl

theorem opn_foldl {e : View → TxnData → View} (he : ∀ v td, (e v td).opn = v.opn) (v : View)
    (tdl : List TxnData) : (tdl.foldl e v).opn = v.opn := by
  induction tdl generalizing v with
  | nil => rfl
  | cons td tdl ih => rw [List.foldl_cons, ih, he]

theorem opn_apply (v : View) (p : Placed) (x : Xid) :
    (v.apply p.fid p.jrec).opn x =
      if p.jrec.closes x then [] else v.opn x ++ p.entry x := by
  cases hp : p.jrec with
  | enq rid xid dsize transient external =>
    by_cases hx : xid = []
    · subst hx
      simp [apply, JRec.closes, Placed.entry, hp, insert]
    · by_cases hxx : x = xid
      · subst hxx; simp [apply, JRec.closes, Placed.entry, hp, hx, push]
      · have : ¬(xid = x ∧ x ≠ []) := fun h => hxx h.1.symm
        simp [apply, JRec.closes, Placed.entry, hp, hx, push, hxx, this]
  | deq rid drid xid commit =>
    by_cases hx : xid = []
    · subst hx
      simp [apply, JRec.closes, Placed.entry, hp, remove]
    · by_cases hxx : x = xid
      · subst hxx; simp [apply, JRec.closes, Placed.entry, hp, hx, push, setLock]
      · have : ¬(xid = x ∧ x ≠ []) := fun h => hxx h.1.symm
        simp [apply, JRec.closes, Placed.entry, hp, hx, push, setLock, hxx, this]
  | txa rid xid =>
    simp only [apply, JRec.closes, Placed.entry, hp, opn_foldl opn_abortEntry, close]
    by_cases hxx : x = xid
    · subst hxx; simp
    · simp [hxx, Ne.symm hxx]
  | txc rid xid =>
    simp only [apply, JRec.closes, Placed.entry, hp, opn_foldl opn_commitEntry, close]
    by_cases hxx : x = xid
    · subst hxx; simp
    · simp [hxx, Ne.symm hxx]

theorem opn_applyAll (log : List Placed) (x : Xid) :
    (empty.applyAll log).opn x = openEntries x log := by
  induction log using List.reverseRecOn with
  | nil => rfl
  | append_singleton log p ih => rw [applyAll_concat, opn_apply, openEntries_concat, ih]

end View

theorem mem_entry {p : Placed} {x : Xid} {td : TxnData} (h : td ∈ p.entry x) :
    p.jrec.rid = td.rid ∧ p.jrec.xid = x ∧ p.fid = td.pfid ∧ x ≠ [] ∧
      (td.enqFlag = true → ∃ d t e, p.jrec = .enq td.rid x d t e) ∧
      (td.enqFlag = false → ∃ c, p.jrec = .deq td.rid td.drid x c) ∧ td.core = td := by
  unfold Placed.entry at h
  split at h
  · rename_i rid xid d t e hp
    split at h
    · rename_i hx
      rw [List.mem_singleton] at h
      obtain ⟨rfl, hne⟩ := hx
      subst h
      refine ⟨by rw [hp]; rfl, by rw [hp]; rfl, rfl, hne, fun _ => ⟨d, t, e, hp⟩, ?_, rfl⟩
      intro hf
      cases hf
    · cases h
  · rename_i rid drid xid c hp
    split at h
    · rename_i hx
      rw [List.mem_singleton] at h
      obtain ⟨rfl, hne⟩ := hx
      subst h
      refine ⟨by rw [hp]; rfl, by rw [hp]; rfl, rfl, hne, ?_, fun _ => ⟨c, hp⟩, rfl⟩
      intro hf
      cases hf
    · cases h
  · cases h

/-- An open operation comes from a record of the log. -/
theorem mem_openEntries {x : Xid} {log : List Placed} {td : TxnData}
    (h : td ∈ openEntries x log) : ∃ p ∈ log, td ∈ p.entry x := by
  induction log using List.reverseRecOn with
  | nil => cases h
  | append_singleton log p ih =>
    rw [openEntries_concat] at h
    split at h
    · cases h
    · rcases List.mem_append.mp h with h | h
      · obtain ⟨q, hq, hqe⟩ := ih h
        exact ⟨q, by simp [hq], hqe⟩
      · exact ⟨p, by simp, h⟩

def rids (log : List Placed) : List Nat := log.map (·.jrec.rid)

private theorem entry_rids (p : Placed) (x : Xid) :
    ((p.entry x).map (·.rid)).Sublist [p.jrec.rid] := by
  unfold Placed.entry
  split
  · rename_i hp
    split
    · simp [hp, JRec.rid]
    · simp
  · rename_i hp
    split
    · simp [hp, JRec.rid]
    · simp
  · simp

theorem openEntries_rids (x : Xid) (log : List Placed) :
    ((openEntries x log).map (·.rid)).Sublist (rids log) := by
  induction log using List.reverseRecOn with
  | nil => exact List.Sublist.refl _
  | append_singleton log p ih =>
    rw [openEntries_concat, rids, List.map_append]
    split
    · exact List.nil_sublist _
    · rw [List.map_append]
      exact ih.append (entry_rids p x)

theorem nodup_rids_eq {log : List Placed} (h : (rids log).Nodup) {p q : Placed} (hp : p ∈ log)
    (hq : q ∈ log) (he : p.jrec.rid = q.jrec.rid) : p = q :=
  List.inj_on_of_nodup_map h hp hq he

/-- Two open operations with one rid belong to one transaction and are one operation. -/
theorem openEntries_inj {log : List Placed} (h : (rids log).Nodup) {x y : Xid} {td td' : TxnData}
    (hx : td ∈ openEntries x log) (hy : td' ∈ openEntries y log) (he : td.rid = td'.rid) :
    x = y ∧ td = td' := by
  obtain ⟨p, hp, hpe⟩ := mem_openEntries hx
  obtain ⟨q, hq, hqe⟩ := mem_openEntries hy
  have h₁ := mem_entry hpe
  have h₂ := mem_entry hqe
  have hpq : p = q := nodup_rids_eq h hp hq (by rw [h₁.1, h₂.1, he])
  subst hpq
  have hxy : x = y := h₁.2.1.symm.trans h₂.2.1
  subst hxy
  refine ⟨rfl, ?_⟩
  exact List.inj_on_of_nodup_map (h.sublist (openEntries_rids x log)) hx hy he

namespace View

structure FromLog (v : View) (log : List Placed) : Prop where
  enq : ∀ r d, v.enq r = some d →
    ∃ p ∈ log, p.fid = d.pfid ∧ ∃ x ds t e, p.jrec = .enq r x ds t e
  opn : ∀ x, v.opn x = openEntries x log
  fresh : ∀ x td, td ∈ v.opn x → td.enqFlag = true → v.enq td.rid = none

theorem enq_commitEntry {v : View} {td : TxnData} {r : Nat} {d : EmapData}
    (h : (v.commitEntry td).enq r = some d) :
    v.enq r = some d ∨ td.enqFlag = true ∧ r = td.rid ∧ d.pfid = td.pfid := by
  unfold commitEntry at h
  split at h
  · rename_i he
    by_cases hr : r = td.rid
    · subst hr
      simp only [insert, Function.update_self, Option.some.injEq] at h
      exact Or.inr ⟨he, rfl, by rw [← h]⟩
    · simp only [insert, Function.update_of_ne hr] at h
      exact Or.inl h
  · by_cases hr : r = td.drid
    · subst hr
      simp [remove] at h
    · simp only [remove, Function.update_of_ne hr] at h
      exact Or.inl h

theorem enq_foldl_commitEntry {tdl : List TxnData} {v : View} {r : Nat} {d : EmapData}
    (h : (tdl.foldl commitEntry v).enq r = some d) :
    v.enq r = some d ∨ ∃ td ∈ tdl, td.enqFlag = true ∧ r = td.rid ∧ d.pfid = td.pfid := by
  induction tdl generalizing v with
  | nil => exact Or.inl h
  | cons td tdl ih =>
    rcases ih h with h | ⟨td', hm, h⟩
    · rcases enq_commitEntry h with h | h
      · exact Or.inl h
      · exact Or.inr ⟨td, by simp, h⟩
    · exact Or.inr ⟨td', by simp [hm], h⟩

theorem pfid_setLock (v : View) (rid r : Nat) (b : Bool) :
    ((v.setLock rid b).enq r).map EmapData.pfid = (v.enq r).map EmapData.pfid := by
  by_cases hr : r = rid
  · subst hr
    cases h : v.enq r <;> simp [setLock, h]
  · simp [setLock, hr]

theorem pfid_abortEntry (v : View) (td : TxnData) (r : Nat) :
    ((v.abortEntry td).enq r).map EmapData.pfid = (v.enq r).map EmapData.pfid := by
  unfold abortEntry
  split
  · rfl
  · exact pfid_setLock _ _ _ _

theorem pfid_foldl_abortEntry (tdl : List TxnData) (v : View) (r : Nat) :
    ((tdl.foldl abortEntry v).enq r).map EmapData.pfid = (v.enq r).map EmapData.pfid := by
  induction tdl generalizing v with
  | nil => rfl
  | cons td tdl ih => rw [List.foldl_cons, ih, pfid_abortEntry]

theorem some_of_pfid {o o' : Option EmapData} (h : o.map EmapData.pfid = o'.map EmapData.pfid)
    {d : EmapData} (hd : o = some d) : ∃ d', o' = some d' ∧ d'.pfid = d.pfid := by
  subst hd
  cases o' with
  | none => cases h
  | some d' => exact ⟨d', rfl, (Option.some.inj h).symm⟩

theorem none_of_pfid {o o' : Option EmapData} (h : o.map EmapData.pfid = o'.map EmapData.pfid) :
    o = none ↔ o' = none := by
  cases o <;> cases o' <;> simp at h ⊢

/-- Where a record enqueued after a step comes from. -/
theorem enq_apply {v : View} {p : Placed} {r : Nat} {d : EmapData}
    (h : (v.apply p.fid p.jrec).enq r = some d) :
    (∃ d', v.enq r = some d' ∧ d'.pfid = d.pfid) ∨
      (p.fid = d.pfid ∧ ∃ ds t e, p.jrec = .enq r [] ds t e) ∨
      ∃ x td, p.jrec.closes x = true ∧ td ∈ v.opn x ∧ td.enqFlag = true ∧ r = td.rid ∧
        d.pfid = td.pfid := by
  cases hp : p.jrec with
  | enq rid xid ds t e =>
    rw [hp] at h
    simp only [apply] at h
    split at h
    · rename_i hx
      subst hx
      by_cases hr : r = rid
      · subst hr
        simp only [insert, Function.update_self, Option.some.injEq] at h
        exact Or.inr (Or.inl ⟨by rw [← h], ds, t, e, rfl⟩)
      · simp only [insert, Function.update_of_ne hr] at h
        exact Or.inl ⟨d, h, rfl⟩
    · exact Or.inl ⟨d, h, rfl⟩
  | deq rid drid xid c =>
    rw [hp] at h
    simp only [apply] at h
    split at h
    · by_cases hr : r = drid
      · subst hr
        simp [remove] at h
      · simp only [remove, Function.update_of_ne hr] at h
        exact Or.inl ⟨d, h, rfl⟩
    · exact Or.inl (some_of_pfid (pfid_setLock v drid r true) h)
  | txa rid xid =>
    rw [hp] at h
    exact Or.inl (some_of_pfid (pfid_foldl_abortEntry (v.opn xid) (v.close xid) r) h)
  | txc rid xid =>
    rw [hp] at h
    rcases enq_foldl_commitEntry h with h | ⟨td, hm, he, hr, hd⟩
    · exact Or.inl ⟨d, h, rfl⟩
    · exact Or.inr (Or.inr ⟨xid, td, by simp [JRec.closes], hm, he, hr, hd⟩)

/-- An enqueued record is one of the log. -/
theorem enq_applyAll {log : List Placed} {r : Nat} {d : EmapData}
    (h : (empty.applyAll log).enq r = some d) : r ∈ rids log := by
  induction log using List.reverseRecOn generalizing d with
  | nil => cases h
  | append_singleton log p ih =>
    rw [rids, List.map_append, List.mem_append]
    rw [applyAll_concat] at h
    rcases enq_apply h with ⟨d', hd', -⟩ | ⟨-, ds, t, e, hp⟩ | ⟨x, td, -, hm, -, rfl, -⟩
    · exact Or.inl (ih hd')
    · exact Or.inr (by simp [hp, JRec.rid])
    · rw [opn_applyAll] at hm
      exact Or.inl ((openEntries_rids x log).subset (List.mem_map_of_mem hm))

theorem fromLog_empty : empty.FromLog [] := by
  refine ⟨?_, fun _ => rfl, ?_⟩
  · intro r d h
    cases h
  · intro x td h
    cases h

theorem fromLog_concat {v : View} {log : List Placed} {p : Placed} (h : v.FromLog log)
    (hn : (rids (log ++ [p])).Nodup) : (v.apply p.fid p.jrec).FromLog (log ++ [p]) := by
  have hop : ∀ x, (v.apply p.fid p.jrec).opn x = openEntries x (log ++ [p]) := by
    intro x
    rw [opn_apply, openEntries_concat, h.opn]
  have hn' : (rids log).Nodup := by
    rw [rids, List.map_append] at hn
    exact hn.of_append_left
  have hnew : ∀ q ∈ log, q.jrec.rid ≠ p.jrec.rid := by
    intro q hq he
    rw [rids, List.map_append, List.map_singleton, List.nodup_append] at hn
    exact hn.2.2 _ (List.mem_map_of_mem hq) _ (List.mem_singleton_self _) he
  refine ⟨?_, hop, ?_⟩
  · intro r d hd
    rcases enq_apply hd with ⟨d', hv, hpf⟩ | ⟨hf, ds, t, e, hp⟩ | ⟨x, td, -, hm, he, rfl, hpf⟩
    · obtain ⟨q, hq, hqf, hqe⟩ := h.enq r d' hv
      exact ⟨q, by simp [hq], hqf.trans hpf, hqe⟩
    · exact ⟨p, by simp, hf, [], ds, t, e, hp⟩
    · rw [h.opn] at hm
      obtain ⟨q, hq, hqe⟩ := mem_openEntries hm
      have hq' := mem_entry hqe
      obtain ⟨ds, t, e, hje⟩ := hq'.2.2.2.2.1 he
      exact ⟨q, by simp [hq], hq'.2.2.1.trans hpf.symm, x, ds, t, e, hje⟩
  · intro x td hm he
    by_contra hne
    obtain ⟨d, hd⟩ := Option.ne_none_iff_exists'.mp hne
    rw [hop] at hm
    have hm₀ := hm
    rw [openEntries_concat] at hm
    split at hm
    · cases hm
    · rename_i hc
      rcases enq_apply hd with ⟨d', hv, -⟩ | ⟨-, ds, t, e, hp⟩ | ⟨y, td', hy, hm', he', hr, -⟩
      · rcases List.mem_append.mp hm with hm | hm
        · rw [← h.opn] at hm
          rw [h.fresh x td hm he] at hv
          cases hv
        · obtain ⟨q, hq, -, _, _, _, _, hqe⟩ := h.enq _ _ hv
          refine hnew q hq ?_
          rw [(mem_entry hm).1, hqe]
          rfl
      · rcases List.mem_append.mp hm with hm | hm
        · obtain ⟨q, hq, hqe⟩ := mem_openEntries hm
          refine hnew q hq ?_
          rw [(mem_entry hqe).1, hp]
          rfl
        · have hx := (mem_entry hm).2.1
          rw [hp] at hx
          exact (mem_entry hm).2.2.2.1 hx.symm
      · rcases List.mem_append.mp hm with hm | hm
        · rw [h.opn] at hm'
          obtain ⟨rfl, rfl⟩ := openEntries_inj hn' hm hm' hr
          exact hc hy
        · rw [h.opn] at hm'
          obtain ⟨q, hq, hqe⟩ := mem_openEntries hm'
          refine hnew q hq ?_
          rw [(mem_entry hqe).1, (mem_entry hm).1, hr]

theorem fromLog_applyAll {log : List Placed} (hn : (rids log).Nodup) :
    (empty.applyAll log).FromLog log := by
  induction log using List.reverseRecOn with
  | nil => exact fromLog_empty
  | append_singleton log p ih =>
    rw [applyAll_concat]
    refine fromLog_concat (ih ?_) hn
    rw [rids, List.map_append] at hn
    exact hn.of_append_left

end View

end RhmStore
