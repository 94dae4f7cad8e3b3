import RhmStore.Log.Locks

/-! # What replay finds beside what the running journal knows

Between recoveries the two differ only by the operations that recoveries have discarded from memory
and not from the log. -/

namespace RhmStore

namespace View

/-- `v` is what the running journal knows, `w` what replay of its log finds, `disc` the rids of
discarded operations. -/
structure Agree (disc : List Nat) (v w : View) : Prop where
  pfid : ∀ r, (v.enq r).map EmapData.pfid = (w.enq r).map EmapData.pfid
  opn : ∀ x, v.opn x = (w.opn x).filter fun td => td.rid ∉ disc
  lock : ∀ r d d', v.enq r = some d → w.enq r = some d' → d.lock = true → d'.lock = true
  stale : ∀ r d d', v.enq r = some d → w.enq r = some d' → d'.lock = true → d.lock = false →
    ∃ x, ∃ td ∈ w.opn x, td.rid ∈ disc ∧ td.enqFlag = false ∧ td.drid = r

variable {disc : List Nat} {v w : View}

theorem agree_empty : Agree [] empty empty := by
  refine ⟨fun _ => rfl, fun _ => rfl, ?_, ?_⟩
  · intro r d d' h
    cases h
  · intro r d d' h
    cases h

/-- With nothing discarded they are the same. -/
theorem Agree.eq (h : Agree [] v w) : v = w := by
  have ho : v.opn = w.opn := by
    funext x
    rw [h.opn x]
    simp
  ext1
  · funext r
    have hp := h.pfid r
    cases hv : v.enq r with
    | none =>
      rw [hv] at hp
      exact ((none_of_pfid hp).mp rfl).symm
    | some d =>
      rw [hv] at hp
      obtain ⟨d', hw, hf⟩ := some_of_pfid hp rfl
      rw [hw]
      have hl : d.lock = d'.lock := by
        cases hd : d.lock with
        | true => exact (h.lock r d d' hv hw hd).symm
        | false =>
          cases hd' : d'.lock with
          | false => rfl
          | true =>
            obtain ⟨x, td, -, hm, -⟩ := h.stale r d d' hv hw hd' hd
            cases hm
      cases d
      cases d'
      simp only at hf hl
      rw [hf, hl]
  · exact ho

theorem Agree.mem (h : Agree disc v w) {x : Xid} {td : TxnData} :
    td ∈ v.opn x ↔ td ∈ w.opn x ∧ td.rid ∉ disc := by
  rw [h.opn x, List.mem_filter]
  simp

theorem Agree.insert (h : Agree disc v w) (rid fid : Nat) :
    Agree disc (v.insert rid fid) (w.insert rid fid) := by
  refine ⟨?_, h.opn, ?_, ?_⟩
  · intro r
    by_cases hr : r = rid
    · subst hr; simp [View.insert]
    · simpa [View.insert, hr] using h.pfid r
  · intro r d d' hv hw hl
    by_cases hr : r = rid
    · subst hr
      simp only [View.insert, Function.update_self, Option.some.injEq] at hv
      subst hv
      cases hl
    · simp only [View.insert, Function.update_of_ne hr] at hv hw
      exact h.lock r d d' hv hw hl
  · intro r d d' hv hw hl hl'
    by_cases hr : r = rid
    · subst hr
      simp only [View.insert, Function.update_self, Option.some.injEq] at hw
      subst hw
      cases hl
    · simp only [View.insert, Function.update_of_ne hr] at hv hw
      exact h.stale r d d' hv hw hl hl'

theorem Agree.remove (h : Agree disc v w) (rid : Nat) :
    Agree disc (v.remove rid) (w.remove rid) := by
  refine ⟨?_, h.opn, ?_, ?_⟩
  · intro r
    by_cases hr : r = rid
    · subst hr; simp [View.remove]
    · simpa [View.remove, hr] using h.pfid r
  · intro r d d' hv hw hl
    by_cases hr : r = rid
    · subst hr
      simp [View.remove] at hv
    · simp only [View.remove, Function.update_of_ne hr] at hv hw
      exact h.lock r d d' hv hw hl
  · intro r d d' hv hw hl hl'
    by_cases hr : r = rid
    · subst hr
      simp [View.remove] at hv
    · simp only [View.remove, Function.update_of_ne hr] at hv hw
      exact h.stale r d d' hv hw hl hl'

theorem Agree.setLock (h : Agree disc v w) (rid : Nat) :
    Agree disc (v.setLock rid true) (w.setLock rid true) := by
  refine ⟨?_, h.opn, ?_, ?_⟩
  · intro r
    rw [pfid_setLock, pfid_setLock]
    exact h.pfid r
  · intro r d d' hv hw hl
    by_cases hr : r = rid
    · subst hr
      simp only [View.setLock, Function.update_self] at hw
      obtain ⟨_, -, rfl⟩ := Option.map_eq_some_iff.mp hw
      rfl
    · simp only [View.setLock, Function.update_of_ne hr] at hv hw
      exact h.lock r d d' hv hw hl
  · intro r d d' hv hw hl hl'
    by_cases hr : r = rid
    · subst hr
      simp only [View.setLock, Function.update_self] at hv
      obtain ⟨_, -, rfl⟩ := Option.map_eq_some_iff.mp hv
      cases hl'
    · simp only [View.setLock, Function.update_of_ne hr] at hv hw
      exact h.stale r d d' hv hw hl hl'

theorem Agree.push (h : Agree disc v w) (xid : Xid) {td : TxnData} (hd : td.rid ∉ disc) :
    Agree disc (v.push xid td) (w.push xid td) := by
  refine ⟨h.pfid, ?_, h.lock, ?_⟩
  · intro x
    by_cases hx : x = xid
    · subst hx
      simp [View.push, h.opn x, List.filter_append, hd]
    · simpa only [View.push, Function.update_of_ne hx] using h.opn x
  · intro r d d' hv hw hl hl'
    obtain ⟨x, a, ha, hda⟩ := h.stale r d d' hv hw hl hl'
    exact ⟨x, a, mem_push_of_mem ha, hda⟩

theorem opn_close_agree (h : Agree disc v w) (xid x : Xid) :
    (v.close xid).opn x = ((w.close xid).opn x).filter fun td => td.rid ∉ disc := by
  by_cases hx : x = xid
  · subst hx; simp [View.close]
  · simpa only [View.close, Function.update_of_ne hx] using h.opn x

theorem Agree.abort (h : Agree disc v w) (hl : v.Locks) (xid : Xid)
    (hc : ∀ td ∈ w.opn xid, td.rid ∈ disc → td.enqFlag = false → ∀ y, y ≠ xid →
      ¬Dequeues (v.opn y) td.drid) :
    Agree disc ((v.opn xid).foldl abortEntry (v.close xid))
      ((w.opn xid).foldl abortEntry (w.close xid)) := by
  have hv := fun r => enq_foldl_abort (v.opn xid) (v.close xid) r
  have hw := fun r => enq_foldl_abort (w.opn xid) (w.close xid) r
  have hsub : ∀ r, Dequeues (v.opn xid) r → Dequeues (w.opn xid) r := by
    rintro r ⟨td, hm, ht⟩
    exact ⟨td, (h.mem.mp hm).1, ht⟩
  refine ⟨?_, ?_, ?_, ?_⟩
  · intro r
    rw [pfid_foldl_abortEntry, pfid_foldl_abortEntry]
    exact h.pfid r
  · intro x
    rw [opn_foldl opn_abortEntry, opn_foldl opn_abortEntry]
    exact opn_close_agree h xid x
  · intro r d d' hd hd' hlk
    by_cases hdq : Dequeues (v.opn xid) r
    · rw [(hv r).1 hdq] at hd
      obtain ⟨_, -, rfl⟩ := Option.map_eq_some_iff.mp hd
      cases hlk
    · rw [(hv r).2 hdq] at hd
      by_cases hdq' : Dequeues (w.opn xid) r
      · -- a discarded operation of `xid` dequeues a record that another one has locked
        obtain ⟨td, hm, he, rfl⟩ := hdq'
        have hdisc : td.rid ∈ disc := by
          by_contra hn
          exact hdq ⟨td, h.mem.mpr ⟨hm, hn⟩, he, rfl⟩
        obtain ⟨y, hy⟩ := hl.held _ d hd hlk
        have hne : y ≠ xid := fun heq => hdq (heq ▸ hy)
        exact (hc td hm hdisc he y hne hy).elim
      · rw [(hw r).2 hdq'] at hd'
        exact h.lock r d d' hd hd' hlk
  · intro r d d' hd hd' hlk hlk'
    have hdq' : ¬Dequeues (w.opn xid) r := by
      intro hdq'
      rw [(hw r).1 hdq'] at hd'
      obtain ⟨_, -, rfl⟩ := Option.map_eq_some_iff.mp hd'
      cases hlk
    rw [(hw r).2 hdq'] at hd'
    rw [(hv r).2 fun hdq => hdq' (hsub r hdq)] at hd
    obtain ⟨x, td, hm, hr, he, ht⟩ := h.stale r d d' hd hd' hlk hlk'
    have hne : x ≠ xid := by
      intro heq
      subst heq
      exact hdq' ⟨td, hm, he, ht⟩
    refine ⟨x, td, ?_, hr, he, ht⟩
    rw [opn_foldl opn_abortEntry]
    exact mem_close_of_ne hne hm

theorem Agree.commit (h : Agree disc v w) (xid : Xid) (hc : ∀ td ∈ w.opn xid, td.rid ∉ disc) :
    Agree disc ((v.opn xid).foldl commitEntry (v.close xid))
      ((w.opn xid).foldl commitEntry (w.close xid)) := by
  have hsame : v.opn xid = w.opn xid := by
    rw [h.opn xid, List.filter_eq_self]
    intro td hm
    simpa using hc td hm
  have hv : ∀ r, ((v.opn xid).foldl commitEntry (v.close xid)).enq r =
      (commitEffect (w.opn xid) r).getD (v.enq r) := by
    intro r
    rw [enq_foldl_commit, hsame]
    rfl
  have hw : ∀ r, ((w.opn xid).foldl commitEntry (w.close xid)).enq r =
      (commitEffect (w.opn xid) r).getD (w.enq r) := fun r => enq_foldl_commit _ _ _
  refine ⟨?_, ?_, ?_, ?_⟩
  · intro r
    rw [hv, hw]
    cases commitEffect (w.opn xid) r with
    | none => exact h.pfid r
    | some o => rfl
  · intro x
    rw [opn_foldl opn_commitEntry, opn_foldl opn_commitEntry]
    exact opn_close_agree h xid x
  · intro r d d' hd hd' hlk
    rw [hv] at hd
    rw [hw] at hd'
    cases he : commitEffect (w.opn xid) r with
    | none =>
      rw [he] at hd hd'
      exact h.lock r d d' hd hd' hlk
    | some o =>
      rw [he, Option.getD_some] at hd
      subst hd
      rw [(commitEffect_some he).1] at hlk
      cases hlk
  · intro r d d' hd hd' hlk hlk'
    rw [hv] at hd
    rw [hw] at hd'
    cases he : commitEffect (w.opn xid) r with
    | none =>
      rw [he] at hd hd'
      obtain ⟨x, td, hm, hr, hf, ht⟩ := h.stale r d d' hd hd' hlk hlk'
      have hne : x ≠ xid := by
        intro heq
        subst heq
        exact hc td hm hr
      refine ⟨x, td, ?_, hr, hf, ht⟩
      rw [opn_foldl opn_commitEntry]
      exact mem_close_of_ne hne hm
    | some o =>
      rw [he, Option.getD_some] at hd'
      subst hd'
      rw [(commitEffect_some he).1] at hlk
      cases hlk

end View

end RhmStore
