import RhmStore.Log.Traced

/-! # A replay in which every dequeue finds its record free

Dequeues may still name records that are gone, so `View.Locks` need not hold. -/

namespace RhmStore

namespace View

instance (tdl : List TxnData) (r : Nat) : Decidable (Dequeues tdl r) :=
  inferInstanceAs (Decidable (∃ td ∈ tdl, _))

/-- A dequeue finds its record unlocked, and of its own open operations names one at most once. An
abort finds every record that it unlocks. -/
def Takes (v : View) : JRec → Prop
  | .deq _ drid xid _ => (∀ d, v.enq drid = some d → d.lock = false) ∧
      (xid ≠ [] → v.enq drid = none → (∃ td ∈ v.opn xid, td.rid = drid) →
        ¬Dequeues (v.opn xid) drid)
  | .txa _ xid => ∀ td ∈ v.opn xid, td.enqFlag = false → (v.enq td.drid).isSome
  | _ => True

instance (v : View) : ∀ r, Decidable (v.Takes r)
  | .enq .. => isTrue trivial
  | .deq _ drid xid _ => inferInstanceAs (Decidable ((∀ d ∈ v.enq drid, d.lock = false) ∧
      (xid ≠ [] → v.enq drid = none → (∃ td ∈ v.opn xid, td.rid = drid) →
        ¬Dequeues (v.opn xid) drid)))
  | .txa _ xid =>
    inferInstanceAs (Decidable (∀ td ∈ v.opn xid, td.enqFlag = false → (v.enq td.drid).isSome))
  | .txc .. => isTrue trivial

/-- An enqueued record that open dequeues name is locked and named once. An open operation that one
names is an earlier one of the same transaction. -/
structure Ordered (v : View) : Prop where
  holder : ∀ x td d, td ∈ v.opn x → td.enqFlag = false → v.enq td.drid = some d → d.lock = true
  unique : ∀ x y td td', td ∈ v.opn x → td' ∈ v.opn y → td.enqFlag = false →
    td'.enqFlag = false → td.drid = td'.drid → (v.enq td.drid).isSome → x = y ∧ td = td'
  owner : ∀ x y td td', td ∈ v.opn x → td' ∈ v.opn y → td.enqFlag = false →
    td'.rid = td.drid → y = x
  order : ∀ x, (v.opn x).Pairwise fun a b => a.enqFlag = false → b.rid ≠ a.drid
  notSelf : ∀ x td, td ∈ v.opn x → td.enqFlag = false → td.rid ≠ td.drid

theorem ordered_empty : empty.Ordered := by
  refine ⟨?_, ?_, ?_, ?_, ?_⟩
  · intro x td d h
    cases h
  · intro x y td td' h
    cases h
  · intro x y td td' h
    cases h
  · intro x
    exact List.Pairwise.nil
  · intro x td h
    cases h

/-- An enqueued record is not an open operation. -/
theorem FromLog.closed {v : View} {log : List Placed} (h : v.FromLog log) (hn : (rids log).Nodup)
    {r : Nat} (hr : (v.enq r).isSome) {y : Xid} {td : TxnData} (hm : td ∈ v.opn y) :
    td.rid ≠ r := by
  intro heq
  obtain ⟨d, hd⟩ := Option.isSome_iff_exists.mp hr
  obtain ⟨p, hp, -, x, ds, t, e, hj⟩ := h.enq r d hd
  have ho := hm
  rw [h.opn] at ho
  obtain ⟨q, hq, hqe⟩ := mem_openEntries ho
  have he := mem_entry hqe
  have hpq : q = p := nodup_rids_eq hn hq hp (by rw [he.1, heq, hj]; rfl)
  cases hf : td.enqFlag with
  | true =>
    rw [← heq, h.fresh y td hm hf] at hd
    cases hd
  | false =>
    obtain ⟨c, hj'⟩ := he.2.2.2.2.2.1 hf
    rw [hpq, hj] at hj'
    cases hj'

/-- The rids of what is open in a transaction differ. -/
theorem FromLog.nodup_opn {v : View} {log : List Placed} (h : v.FromLog log)
    (hn : (rids log).Nodup) (x : Xid) : ((v.opn x).map (·.rid)).Nodup := by
  rw [h.opn]
  exact hn.sublist (openEntries_rids x log)

variable {v : View}

theorem Ordered.insert (h : v.Ordered) {rid : Nat} (fid : Nat)
    (hd : ∀ x td, td ∈ v.opn x → td.enqFlag = false → rid ≠ td.drid) : (v.insert rid fid).Ordered := by
  refine ⟨?_, ?_, h.owner, h.order, h.notSelf⟩
  · intro x td d hm he hv
    simp only [View.insert, Function.update_of_ne (hd x td hm he).symm] at hv
    exact h.holder x td d hm he hv
  · intro x y td td' hm hm' he he' heq hs
    simp only [View.insert, Function.update_of_ne (hd x td hm he).symm] at hs
    exact h.unique x y td td' hm hm' he he' heq hs

theorem Ordered.remove (h : v.Ordered) (rid : Nat) : (v.remove rid).Ordered := by
  have hold : ∀ r d, (v.remove rid).enq r = some d → v.enq r = some d := by
    intro r d hv
    by_cases hr : r = rid
    · subst hr
      simp [View.remove] at hv
    · simpa only [View.remove, Function.update_of_ne hr] using hv
  refine ⟨?_, ?_, h.owner, h.order, h.notSelf⟩
  · intro x td d hm he hv
    exact h.holder x td d hm he (hold _ _ hv)
  · intro x y td td' hm hm' he he' heq hs
    obtain ⟨d, hd⟩ := Option.isSome_iff_exists.mp hs
    apply h.unique x y td td' hm hm' he he' heq
    rw [hold _ _ hd]
    rfl

theorem pairwise_push {xid : Xid} {a : TxnData} {R : TxnData → TxnData → Prop}
    (h : ∀ x, (v.opn x).Pairwise R) (ha : ∀ td ∈ v.opn xid, R td a) (x : Xid) :
    ((v.push xid a).opn x).Pairwise R := by
  by_cases hx : x = xid
  · subst hx
    simp only [View.push, Function.update_self]
    rw [List.pairwise_append]
    refine ⟨h x, List.pairwise_singleton _ _, ?_⟩
    intro td hm b hb
    rw [List.mem_singleton] at hb
    subst hb
    exact ha td hm
  · simp only [View.push, Function.update_of_ne hx]
    exact h x

theorem Ordered.pushEnq (h : v.Ordered) (xid : Xid) {a : TxnData} (ha : a.enqFlag = true)
    (hd : ∀ x td, td ∈ v.opn x → td.enqFlag = false → a.rid ≠ td.drid) :
    (v.push xid a).Ordered := by
  have hdeq : ∀ {x td}, td ∈ (v.push xid a).opn x → td.enqFlag = false → td ∈ v.opn x := by
    intro x td hm hf
    rcases mem_push hm with hm | ⟨-, rfl⟩
    · exact hm
    · rw [ha] at hf
      cases hf
  refine ⟨?_, ?_, ?_, ?_, ?_⟩
  · intro x td d hm he hv
    exact h.holder x td d (hdeq hm he) he hv
  · intro x y td td' hm hm' he he' heq hs
    exact h.unique x y td td' (hdeq hm he) (hdeq hm' he') he he' heq hs
  · intro x y td td' hm hm' he heq
    rcases mem_push hm' with hm' | ⟨-, rfl⟩
    · exact h.owner x y td td' (hdeq hm he) hm' he heq
    · exact (hd x td (hdeq hm he) he heq).elim
  · exact pairwise_push h.order fun td hm he => hd xid td hm he
  · intro x td hm he
    exact h.notSelf x td (hdeq hm he) he

theorem Ordered.pushDeq (h : v.Ordered) (xid : Xid) {a : TxnData}
    (hfree : ∀ d, v.enq a.drid = some d → d.lock = false)
    (hown : ∀ y td, td ∈ v.opn y → td.rid = a.drid → y = xid) (hself : a.rid ≠ a.drid)
    (hd : ∀ x td, td ∈ v.opn x → td.enqFlag = false → a.rid ≠ td.drid) :
    ((v.setLock a.drid true).push xid a).Ordered := by
  let w : View := v.setLock a.drid true
  change (w.push xid a).Ordered
  have henq : ∀ r, w.enq r =
      if r = a.drid then (v.enq r).map fun d => { d with lock := true } else v.enq r := by
    intro r
    by_cases hr : r = a.drid
    · subst hr; simp [w, setLock]
    · simp [w, setLock, hr]
  have hsome : ∀ r, (w.enq r).isSome = (v.enq r).isSome := by
    intro r
    rw [henq]
    split <;> simp
  have hne : ∀ x td, td ∈ v.opn x → td.enqFlag = false → (v.enq td.drid).isSome →
      td.drid ≠ a.drid := by
    intro x td hm he hs heq
    obtain ⟨d, hv⟩ := Option.isSome_iff_exists.mp hs
    have hl := h.holder x td d hm he hv
    rw [heq] at hv
    rw [hfree d hv] at hl
    cases hl
  refine ⟨?_, ?_, ?_, ?_, ?_⟩
  · intro x td d hm he hv
    change w.enq td.drid = some d at hv
    rw [henq] at hv
    split at hv
    · obtain ⟨d', -, rfl⟩ := Option.map_eq_some_iff.mp hv
      rfl
    · rename_i hdr
      rcases mem_push hm with hm | ⟨-, rfl⟩
      · exact h.holder x td d hm he hv
      · exact (hdr rfl).elim
  · intro x y td td' hm hm' he he' heq hs
    change (w.enq td.drid).isSome at hs
    rw [hsome] at hs
    rcases mem_push hm with hold | ⟨rfl, rfl⟩
    · rcases mem_push hm' with hold' | ⟨rfl, rfl⟩
      · exact h.unique x y td td' hold hold' he he' heq hs
      · exact (hne x td hold he hs heq).elim
    · rcases mem_push hm' with hold' | ⟨rfl, rfl⟩
      · exact (hne y td' hold' he' (heq ▸ hs) heq.symm).elim
      · exact ⟨rfl, rfl⟩
  · intro x y td td' hm hm' he heq
    rcases mem_push hm with hold | ⟨rfl, rfl⟩
    · rcases mem_push hm' with hold' | ⟨rfl, rfl⟩
      · exact h.owner x y td td' hold hold' he heq
      · exact (hd x td hold he heq).elim
    · rcases mem_push hm' with hold' | ⟨rfl, -⟩
      · exact hown y td' hold' heq
      · rfl
  · exact pairwise_push h.order fun td hm he => hd xid td hm he
  · intro x td hm he
    rcases mem_push hm with hm | ⟨-, rfl⟩
    · exact h.notSelf x td hm he
    · exact hself

/-- Closing a transaction, with what it does to the enqueued records. -/
theorem Ordered.close (h : v.Ordered) (xid : Xid) {w : View} (ho : w.opn = (v.close xid).opn)
    (he : ∀ x td, x ≠ xid → td ∈ v.opn x → td.enqFlag = false → ∀ d,
      w.enq td.drid = some d → v.enq td.drid = some d) : w.Ordered := by
  have hmem : ∀ {x td}, td ∈ w.opn x → x ≠ xid ∧ td ∈ v.opn x := by
    intro x td hm
    rw [ho] at hm
    exact mem_close hm
  refine ⟨?_, ?_, ?_, ?_, ?_⟩
  · intro x td d hm hf hv
    obtain ⟨hx, hm⟩ := hmem hm
    exact h.holder x td d hm hf (he x td hx hm hf d hv)
  · intro x y td td' hm hm' hf hf' heq hs
    obtain ⟨hx, hm⟩ := hmem hm
    obtain ⟨d, hd⟩ := Option.isSome_iff_exists.mp hs
    apply h.unique x y td td' hm (hmem hm').2 hf hf' heq
    rw [he x td hx hm hf d hd]
    rfl
  · intro x y td td' hm hm' hf heq
    exact h.owner x y td td' (hmem hm).2 (hmem hm').2 hf heq
  · intro x
    rw [ho]
    by_cases hx : x = xid
    · subst hx
      simp [View.close]
    · simp only [View.close, Function.update_of_ne hx]
      exact h.order x
  · intro x td hm hf
    exact h.notSelf x td (hmem hm).2 hf

theorem Ordered.abort (h : v.Ordered) (xid : Xid) : (v.abort xid).Ordered := by
  apply h.close xid (opn_foldl opn_abortEntry _ _)
  intro x td hx hm hf d hd
  have henq := enq_foldl_abort (v.opn xid) (v.close xid) td.drid
  by_cases hq : Dequeues (v.opn xid) td.drid
  · -- the record would be named twice
    have hs : (v.enq td.drid).isSome := by
      have := henq.1 hq
      rw [show ((v.opn xid).foldl abortEntry (v.close xid)).enq td.drid = some d from hd] at this
      obtain ⟨d', hd', -⟩ := Option.map_eq_some_iff.mp this.symm
      rw [show v.enq td.drid = some d' from hd']
      rfl
    obtain ⟨td', hm', hf', hr'⟩ := hq
    exact (hx (h.unique x xid td td' hm hm' hf hf' hr'.symm hs).1).elim
  · exact (henq.2 hq).symm.trans hd

theorem Ordered.commit (h : v.Ordered) (xid : Xid) :
    ((v.opn xid).foldl commitEntry (v.close xid)).Ordered := by
  apply h.close xid (opn_foldl opn_commitEntry _ _)
  intro x td hx hm hf d hd
  rw [enq_foldl_commit] at hd
  cases hc : commitEffect (v.opn xid) td.drid with
  | none =>
    rw [hc] at hd
    exact hd
  | some o =>
    rw [hc, Option.getD_some] at hd
    subst hd
    obtain ⟨-, td', hm', -, hr'⟩ := commitEffect_some hc
    exact (hx (h.owner x xid td td' hm hm' hf hr').symm).elim

theorem ordered_concat (h : v.Ordered) {log : List Placed} {p : Placed} (hf : v.FromLog log)
    (hw : WellNamed (log ++ [p])) (ht : v.Takes p.jrec) : (v.apply p.fid p.jrec).Ordered := by
  have hd : ∀ x td, td ∈ v.opn x → td.enqFlag = false → p.jrec.rid ≠ td.drid := by
    intro x td hm he
    rw [hf.opn] at hm
    obtain ⟨q, hq, hqe⟩ := mem_openEntries hm
    obtain ⟨c, hj⟩ := (mem_entry hqe).2.2.2.2.2.1 he
    exact (allSplits_concat.mp hw.earlier).2 q hq _ _ _ _ hj
  cases hp : p.jrec with
  | enq rid xid ds t e =>
    rw [hp] at hd
    simp only [apply]
    split
    · exact h.insert p.fid hd
    · apply h.pushEnq xid
      · rfl
      · exact hd
  | deq rid drid xid c =>
    rw [hp] at hd ht
    simp only [apply]
    split
    · exact h.remove drid
    · rename_i hx
      let a : TxnData := { rid := rid, drid := drid, pfid := p.fid, enqFlag := false }
      apply h.pushDeq xid (a := a) ht.1
      · intro y td hm hr
        rw [hf.opn] at hm
        exact (allSplits_concat.mp hw.owned).2 rid drid xid c hp hx y td hm hr
      · exact (hw.notSelf p (by simp) rid drid xid c hp).symm
      · exact hd
  | txa rid xid => exact h.abort xid
  | txc rid xid => exact h.commit xid

end View

end RhmStore
