import RhmStore.Log.Traced

/-! # Transient records

They are enqueued, dequeued and locked as others are, but replay skips them. -/

namespace RhmStore

def JRec.persisted : JRec → JRec
  | .enq rid xid dsize _ external => .enq rid xid dsize false external
  | r => r

namespace JRec

@[simp] theorem rid_persisted (r : JRec) : r.persisted.rid = r.rid := by cases r <;> rfl

theorem isTransient_persisted (r : JRec) : r.persisted.isTransient = false := by cases r <;> rfl

theorem persisted_eq {r : JRec} (h : r.isTransient = false) : r.persisted = r := by
  cases r with
  | enq rid xid ds t e =>
    simp only [isTransient] at h
    rw [h]
    rfl
  | deq => rfl
  | txa => rfl
  | txc => rfl

theorem eq_enq_of_isTransient {r : JRec} (h : r.isTransient = true) :
    ∃ rid xid ds e, r = .enq rid xid ds true e := by
  cases r with
  | enq rid xid ds t e =>
    simp only [isTransient] at h
    exact ⟨rid, xid, ds, e, by rw [h]⟩
  | deq => cases h
  | txa => cases h
  | txc => cases h

end JRec

def Placed.persisted (p : Placed) : Placed := { p with jrec := p.jrec.persisted }

theorem Maps.perform_persisted (fid : Nat) (r : JRec) :
    Maps.perform fid r.persisted = Maps.perform fid r := by cases r <;> rfl

def lasting (log : List Placed) : List Placed := log.filter fun p => !p.jrec.isTransient

def transients (log : List Placed) : List Nat :=
  (log.filter fun p => p.jrec.isTransient).map (·.jrec.rid)

theorem lasting_concat (log : List Placed) (p : Placed) :
    lasting (log ++ [p]) = if p.jrec.isTransient then lasting log else lasting log ++ [p] := by
  unfold lasting
  rw [List.filter_append]
  cases h : p.jrec.isTransient <;> simp [h]

theorem nodup_lasting {log : List Placed} (h : (rids log).Nodup) : (rids (lasting log)).Nodup :=
  h.sublist (List.filter_sublist.map _)

theorem replay_lasting (log : List Placed) (m : Maps) : replay (lasting log) m = replay log m := by
  induction log generalizing m with
  | nil => rfl
  | cons p log ih =>
    cases h : p.jrec.isTransient with
    | false =>
      have hl : lasting (p :: log) = p :: lasting log := by
        simp [lasting, h]
      rw [hl]
      change (Maps.rcvrRecord p.fid p.jrec >>= fun _ => replay (lasting log)) m =
        (Maps.rcvrRecord p.fid p.jrec >>= fun _ => replay log) m
      simp only [bind, EStateM.bind]
      cases Maps.rcvrRecord p.fid p.jrec m with
      | ok u m' => exact ih m'
      | error e m' => rfl
    | true =>
      have hl : lasting (p :: log) = lasting log := by
        simp [lasting, h]
      obtain ⟨rid, xid, ds, e, hj⟩ := p.jrec.eq_enq_of_isTransient h
      rw [hl, ih]
      change replay log m = (Maps.rcvrRecord p.fid p.jrec >>= fun _ => replay log) m
      rw [hj]
      rfl

/-! ## The maps without the transient records -/

/-- An operation other than the enqueue of a rid in `ts`. -/
def stays (ts : List Nat) (td : TxnData) : Bool := !(td.enqFlag && decide (td.rid ∈ ts))

theorem stays_of_deq (ts : List Nat) {td : TxnData} (h : td.enqFlag = false) :
    stays ts td = true := by
  simp [stays, h]

/-- `w` is `v` without the records in `ts`. -/
structure Skips (ts : List Nat) (v w : View) : Prop where
  enq : Without (· ∈ ts) v w
  opn : ∀ x, w.opn x = (v.opn x).filter (stays ts)

namespace Skips

variable {ts : List Nat} {v w : View}

theorem empty (ts : List Nat) : Skips ts View.empty View.empty :=
  ⟨fun _ => ⟨fun _ => rfl, fun _ => rfl⟩, fun _ => rfl⟩

private theorem foldl_abort (h : Without (· ∈ ts) v w) (tdl : List TxnData) :
    Without (· ∈ ts) (tdl.foldl View.abortEntry v)
      ((tdl.filter (stays ts)).foldl View.abortEntry w) := by
  induction tdl generalizing v w with
  | nil => exact h
  | cons td tdl ih =>
    cases he : td.enqFlag with
    | true =>
      have hv : ∀ u : View, u.abortEntry td = u := fun u => if_pos he
      rw [List.filter_cons, List.foldl_cons, hv]
      split
      · rw [List.foldl_cons, hv]
        exact ih h
      · exact ih h
    | false =>
      rw [List.filter_cons_of_pos (stays_of_deq ts he), List.foldl_cons, List.foldl_cons]
      have hv : ∀ u : View, u.abortEntry td = u.setLock td.drid false :=
        fun u => if_neg (Bool.eq_false_iff.mp he)
      rw [hv, hv]
      exact ih (h.setLock td.drid false)

private theorem foldl_commit (h : Without (· ∈ ts) v w) (tdl : List TxnData) :
    Without (· ∈ ts) (tdl.foldl View.commitEntry v)
      ((tdl.filter (stays ts)).foldl View.commitEntry w) := by
  induction tdl generalizing v w with
  | nil => exact h
  | cons td tdl ih =>
    cases he : td.enqFlag with
    | true =>
      have hv : ∀ u : View, u.commitEntry td = u.insert td.rid td.pfid := fun u => if_pos he
      by_cases hm : td.rid ∈ ts
      · rw [List.filter_cons_of_neg (by simp [stays, he, hm]), List.foldl_cons, hv]
        exact ih (h.insert_left td.pfid hm)
      · rw [List.filter_cons_of_pos (by simp [stays, he, hm]), List.foldl_cons, List.foldl_cons,
          hv, hv]
        exact ih (h.insert td.pfid hm)
    | false =>
      rw [List.filter_cons_of_pos (stays_of_deq ts he), List.foldl_cons, List.foldl_cons]
      have hv : ∀ u : View, u.commitEntry td = u.remove td.drid :=
        fun u => if_neg (Bool.eq_false_iff.mp he)
      rw [hv, hv]
      exact ih (h.remove td.drid)

theorem push (h : Skips ts v w) (xid : Xid) {td : TxnData} (ht : stays ts td = true) :
    Skips ts (v.push xid td) (w.push xid td) := by
  refine ⟨h.enq, fun x => ?_⟩
  by_cases hx : x = xid
  · subst hx
    simp [View.push, h.opn, ht]
  · simpa [View.push, hx] using h.opn x

private theorem close (h : Skips ts v w) (xid : Xid) {e : View → TxnData → View}
    (he : ∀ u td, (e u td).opn = u.opn)
    (hf : Without (· ∈ ts) ((v.opn xid).foldl e (v.close xid))
      (((v.opn xid).filter (stays ts)).foldl e (w.close xid))) :
    Skips ts ((v.opn xid).foldl e (v.close xid)) ((w.opn xid).foldl e (w.close xid)) := by
  rw [← h.opn] at hf
  refine ⟨hf, fun x => ?_⟩
  rw [View.opn_foldl he, View.opn_foldl he]
  by_cases hx : x = xid
  · subst hx
    simp [View.close]
  · simpa [View.close, hx] using h.opn x

theorem apply_left (h : Skips ts v w) (fid : Nat) {r : JRec} (ht : r.isTransient = true)
    (hr : r.rid ∈ ts) : Skips ts (v.apply fid r.persisted) w := by
  obtain ⟨rid, xid, ds, e, rfl⟩ := r.eq_enq_of_isTransient ht
  simp only [JRec.persisted, View.apply]
  split
  · exact ⟨h.enq.insert_left fid hr, h.opn⟩
  · refine ⟨h.enq, fun x => ?_⟩
    have hs : stays ts { rid := rid, drid := 0, pfid := fid, enqFlag := true } = false := by
      simpa [stays, JRec.rid] using hr
    by_cases hx : x = xid
    · subst hx
      simp [View.push, h.opn, hs]
    · simpa [View.push, hx] using h.opn x

theorem apply (h : Skips ts v w) (fid : Nat) {r : JRec} (hr : r.rid ∉ ts) :
    Skips ts (v.apply fid r) (w.apply fid r) := by
  cases r with
  | enq rid xid ds t e =>
    simp only [View.apply]
    split
    · exact ⟨h.enq.insert fid hr, h.opn⟩
    · apply h.push
      simp only [stays, Bool.true_and, Bool.not_eq_true', decide_eq_false_iff_not]
      exact hr
  | deq rid drid xid c =>
    simp only [View.apply]
    split
    · exact ⟨h.enq.remove drid, h.opn⟩
    · apply push
      · exact ⟨h.enq.setLock drid true, h.opn⟩
      · exact stays_of_deq ts rfl
  | txa rid xid => exact h.close xid View.opn_abortEntry (foldl_abort (v := v.close xid) (w := w.close xid) h.enq _)
  | txc rid xid => exact h.close xid View.opn_commitEntry (foldl_commit (v := v.close xid) (w := w.close xid) h.enq _)

end Skips

theorem skips_lasting {log : List Placed} {ts : List Nat}
    (hts : ∀ p ∈ log, p.jrec.rid ∈ ts ↔ p.jrec.isTransient = true) :
    Skips ts (View.empty.applyAll (log.map Placed.persisted)) (View.empty.applyAll (lasting log)) := by
  induction log using List.reverseRecOn with
  | nil => exact Skips.empty ts
  | append_singleton log p ih =>
    have hp := hts p (by simp)
    have h := ih fun q hq => hts q (by simp [hq])
    rw [List.map_append, List.map_singleton, View.applyAll_concat, lasting_concat]
    cases ht : p.jrec.isTransient with
    | true => exact h.apply_left p.fid ht (hp.mpr ht)
    | false =>
      have hn : p.jrec.rid ∉ ts := by
        intro hm
        rw [hp.mp hm] at ht
        cases ht
      rw [if_neg (by simp), View.applyAll_concat]
      simp only [Placed.persisted, JRec.persisted_eq ht]
      exact h.apply p.fid hn

theorem mem_transients {log : List Placed} (hn : (rids log).Nodup) {p : Placed} (hp : p ∈ log) :
    p.jrec.rid ∈ transients log ↔ p.jrec.isTransient = true := by
  unfold transients
  constructor
  · intro h
    obtain ⟨q, hq, hr⟩ := List.mem_map.mp h
    obtain ⟨hq, ht⟩ := List.mem_filter.mp hq
    rwa [← nodup_rids_eq hn hq hp hr]
  · intro h
    exact List.mem_map.mpr ⟨p, List.mem_filter.mpr ⟨hp, h⟩, rfl⟩

end RhmStore
