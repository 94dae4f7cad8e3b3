import RhmStore.Writer.Accounted
import RhmStore.Writer.Runs

/-! # Accounts of a journal in use -/

namespace RhmStore

namespace Wmgr

variable {g : Geom} {s s' : Wmgr} {c : Call}

/-- All accounts are right, and what is cached is in a page in use. -/
structure Steady (g : Geom) (s : Wmgr) : Prop extends s.Accounted g where
  page : s.cached ≠ 0 → (s.pages s.pgIndex).state = .inUse
  sound : ∀ pg, (s.pages pg).state ≠ .aioComplete

theorem Steady.of_eq (h : s.Steady g) (hx : s'.pgIndex = s.pgIndex) (hf : s'.fcIndex = s.fcIndex)
    (hp : s'.pages = s.pages) (hc : s'.fcntls = s.fcntls) (he : s'.aioEvtRem = s.aioEvtRem)
    (hs : s'.subm = s.subm) (hq : s'.pending = s.pending) (ht : s'.toks = s.toks)
    (hn : s'.txnPending = s.txnPending) (hd : s'.cached = s.cached) : s'.Steady g where
  toAccounted := h.toAccounted.of_eq hx hf hp hc he hs hq ht hn
  page := by
    rw [hd, hp, hx]
    exact h.page
  sound := hp ▸ h.sound

theorem Steady.used (h : s.Steady g) (hp : (s.pages s.pgIndex).state = .unused) :
    s.used.Steady g where
  toAccounted := h.toAccounted.used hp
  page _ := by simp [Wmgr.used]
  sound pg := by
    by_cases hpg : pg = s.pgIndex
    · subst hpg
      simp [Wmgr.used]
    · simpa [Wmgr.used, hpg] using h.sound pg

theorem Steady.taken (h : s.Steady g) : s.taken.Steady g := by
  rw [Wmgr.taken]
  split
  · exact h.used ‹_›
  · exact h

theorem Steady.resetTo (h : s.Steady g) {b : Bool} (hr : s.ResetTo b s') : s'.Steady g := by
  have ha := h.toAccounted.resetTo hr
  cases hr with
  | held _ => exact ⟨ha, h.page, h.sound⟩
  | reset _ _ => exact ⟨ha, h.page, h.sound⟩

theorem Steady.rotatesTo (h : s.Steady g) {res : Iores} (hr : s.RotatesTo g res s') :
    s'.Steady g := by
  have ha := h.toAccounted.rotatesTo hr
  cases hr with
  | wait _ => exact ⟨ha, h.page, h.sound⟩
  | full _ => exact ⟨ha, h.page, h.sound⟩
  | reset _ _ => exact ⟨ha, h.page, h.sound⟩

theorem Steady.turnsTo (h : s.Steady g) (ht : s.TurnsTo g s') : s'.Steady g := by
  cases ht with
  | stay _ => exact h
  | turn _ hr => exact h.rotatesTo hr

theorem cached_flushed : (s.flushed g).cached = 0 := by
  rw [flushed]
  split
  · exact ‹_›
  · rw [Wmgr.taken]
    split <;> rfl

theorem Steady.flushed (h : s.Steady g) : (s.flushed g).Steady g := by
  rw [Wmgr.flushed]
  split
  · exact h
  · rename_i h0
    have hs : (s.pageSubmitted g).Steady g := by
      refine ⟨h.toAccounted.pageSubmitted (h.page h0), fun hc => (hc rfl).elim, fun pg => ?_⟩
      by_cases hpg : pg = s.pgIndex
      · subst hpg
        simp [Wmgr.pageSubmitted, Wmgr.rounded]
      · simpa [Wmgr.pageSubmitted, Wmgr.rounded, hpg] using h.sound pg
    exact hs.taken

theorem EventTo.steady {i : Nat} (ht : s.EventTo i s') (h : s.Steady g) (ha : s'.Accounted g) :
    s'.Steady g := by
  cases ht with
  | none _ => exact h
  | page hi hw hp htoks =>
    obtain ⟨t, x, m, rfl⟩ := htoks.frame
    rename_i pg out
    refine ⟨ha, fun hc => ?_, fun j => ?_⟩
    · -- the page in use is not the one that was written
      have hne : s.pgIndex ≠ pg := by
        intro he
        have h1 := h.page hc
        rw [he, (h.pending_page hi hw hp).1] at h1
        cases h1
      change (Function.update s.pages pg _ s.pgIndex).state = _
      rw [Function.update_of_ne hne]
      exact h.page hc
    · by_cases hj : j = pg
      · subst hj
        simp
      · simpa [hj] using h.sound j
  | header hi hw hp => exact ⟨ha, h.page, h.sound⟩

/-- A page only becomes free. -/
theorem EventTo.state {i : Nat} (ht : s.EventTo i s') (pg : Nat) :
    (s'.pages pg).state = (s.pages pg).state ∨ (s'.pages pg).state = .unused := by
  cases ht with
  | none _ => exact Or.inl rfl
  | page hi hw hp htoks =>
    obtain ⟨t, x, m, rfl⟩ := htoks.frame
    rename_i j out
    by_cases hj : pg = j
    · subst hj
      exact Or.inr (by simp)
    · exact Or.inl (by simp [hj])
  | header hi hw hp => exact Or.inl rfl

/-- What has returned is not outstanding any more. -/
theorem EventsTo.pending {evs : List Nat} (ht : s.EventsTo evs s') (hn : s.pending.Nodup) :
    ∀ i ∈ s'.pending, i ∈ s.pending ∧ i ∉ evs := by
  induction ht with
  | nil s => exact fun i hi => ⟨hi, List.not_mem_nil⟩
  | cons h _ ih =>
    rename_i v u _ i evs _
    have hu : u.pending.Nodup ∧ ∀ j ∈ u.pending, j ∈ v.pending ∧ j ≠ i := by
      cases h with
      | none hi => exact ⟨hn, fun j hj => ⟨hj, fun he => hi (he ▸ hj)⟩⟩
      | page hi hw hp htoks =>
        obtain ⟨t, x, m, rfl⟩ := htoks.frame
        exact ⟨hn.erase i, fun j hj => ⟨List.mem_of_mem_erase hj, fun he => hn.not_mem_erase (he ▸ hj)⟩⟩
      | header hi hw hp =>
        exact ⟨hn.erase i, fun j hj => ⟨List.mem_of_mem_erase hj, fun he => hn.not_mem_erase (he ▸ hj)⟩⟩
    intro j hj
    obtain ⟨h1, h2⟩ := ih hu.1 j hj
    obtain ⟨h3, h4⟩ := hu.2 j h1
    exact ⟨h3, List.not_mem_cons_of_ne_of_not_mem h4 h2⟩

theorem wp_getEvents_steady (h : s.Steady g) (evs : List Nat) :
    wp (getEvents evs) (fun _ t => t.Steady g ∧ s.Returned t ∧
      (∀ pg, (t.pages pg).state = (s.pages pg).state ∨ (t.pages pg).state = .unused) ∧
      ∀ i ∈ t.pending, i ∈ s.pending ∧ i ∉ evs) (fun _ _ => False) s := by
  have hI : ∀ (u : Wmgr) (i : Nat) (t : Wmgr), u.Accounted g → (u.Steady g ∧
      ∀ pg, (u.pages pg).state = (s.pages pg).state ∨ (u.pages pg).state = .unused) →
      u.EventTo i t → t.Accounted g → t.Steady g ∧
        ∀ pg, (t.pages pg).state = (s.pages pg).state ∨ (t.pages pg).state = .unused := by
    intro u i t _ hu ht ha
    refine ⟨ht.steady hu.1 ha, fun pg => ?_⟩
    rcases ht.state pg with hs | hs
    · rw [hs]
      exact hu.2 pg
    · exact Or.inr hs
  apply wp_mono (wp_and (wp_getEvents_to hI h.toAccounted ⟨h, fun _ => Or.inl rfl⟩ evs)
    (returns_getEvents evs s))
  · intro _ t ht
    exact ⟨ht.1.2.2.1, ht.2, ht.1.2.2.2, ht.1.1.pending h.pending_nodup⟩
  · intro _ _ he
    exact he.1

structure FlushedFrom (g : Geom) (s : Wmgr) (evs : List Nat) (t : Wmgr) : Prop where
  steady : t.Steady g
  returned : (s.flushed g).Returned t
  pending : ∀ i ∈ t.pending, i ∈ (s.flushed g).pending ∧ i ∉ evs

theorem wp_flushed (h : s.Steady g) (evs : List Nat) (E : JErr → Wmgr → Prop) :
    wp (getEvents evs) (fun _ => s.FlushedFrom g evs) E (s.flushed g) :=
  wp_mono (wp_getEvents_steady h.flushed evs) (fun _ _ ht => ⟨ht.1, ht.2.1, ht.2.2.2⟩)
    fun _ _ he => he.elim

theorem Steady.page_ne (h : s.Steady g) (h0 : s.cached ≠ 0) :
    (s.pages s.pgIndex).state ≠ .aioPending := by
  rw [h.page h0]
  rintro ⟨⟩

theorem wp_flush_steady (h : s.Steady g) (evs : List Nat) :
    wp (flush g evs) (fun _ s' => ∃ t, s.FlushedFrom g evs t ∧ t.taken.TurnsTo g s')
      (fun _ s' => s.cached ≠ 0 ∧ ¬s.Room g ∧ s' = s.overrun g) s :=
  wp_flush_of h.page_ne (fun h0 hn => (hn (h.page h0)).elim) (fun h0 hr => ⟨h0, hr, rfl⟩)
    (wp_flushed h evs _)

theorem wp_flushCheck_steady (h : s.Steady g) (cont done : Bool) (evs : List Nat) :
    wp (flushCheck g cont done evs) (s.ChecksTo g (s.FlushedFrom g evs) cont done)
      (fun _ s' => g.pgDblks ≤ s.pgOffset ∧ ¬s.Room g ∧ s' = s.overrun g) s :=
  wp_flushCheck_of h.page_ne (fun _ h0 hn => (hn (h.page h0)).elim)
    (fun hf _ hr => ⟨hf, hr, rfl⟩) fun _ => wp_flushed h evs _

theorem toks_taken : s.taken.toks = s.toks := by
  rw [taken]
  split <;> rfl

theorem toks_flushed : (s.flushed g).toks = s.toks := by
  rw [flushed]
  split
  · rfl
  · rw [toks_taken]
    rfl

theorem FlushedFrom.toks {evs : List Nat} {t : Wmgr} (h : s.FlushedFrom g evs t) (i : Nat) :
    (s.toks i).Returned (t.taken.toks i) := by
  have := h.returned.toks i
  rwa [toks_flushed, ← toks_taken (s := t)] at this

theorem Steady.page_taken (h : s.Steady g)
    (hw : (s.taken.pages s.taken.pgIndex).state ≠ .aioPending) :
    (s.taken.pages s.taken.pgIndex).state = .inUse := by
  cases hs : (s.taken.pages s.taken.pgIndex).state with
  | inUse => rfl
  | aioPending => exact (hw hs).elim
  | aioComplete => exact (h.taken.sound _ hs).elim
  | unused =>
    rw [Wmgr.taken] at hs
    split at hs
    · simp [Wmgr.used] at hs
    · exact (‹¬_› hs).elim

/-- What `flush_check` leaves, and what its results say of the page. -/
theorem ChecksTo.steady {cont done cont' done' : Bool} {res : Iores} {evs : List Nat}
    (hc : s.ChecksTo g (s.FlushedFrom g evs) cont done (res, cont', done') s') (h : s.Steady g)
    (hp : (s.pages s.pgIndex).state = .inUse) : s'.Steady g ∧
      (∀ i, (s.toks i).Returned (s'.toks i)) ∧
      (done' = false → done = false ∧ (s'.pages s'.pgIndex).state = .inUse) ∧
      (res = .pageAioWait → done = false ∧ (s'.pages s'.pgIndex).state = .aioPending) := by
  cases hc with
  | room _ => exact ⟨h, fun _ => .refl _, fun hd => ⟨hd, hp⟩, by rintro ⟨⟩⟩
  | stay hle ht hw hk =>
    rename_i t wait
    refine ⟨ht.steady.taken, ht.toks, fun hd => ?_, fun hr => ?_⟩
    · obtain ⟨hd, hwait⟩ := Bool.or_eq_false_iff.mp hd
      refine ⟨hd, ht.steady.page_taken fun hpend => ?_⟩
      simp [hwait, hpend, hd] at hw
    · cases wait with
      | false => cases hr
      | true => simpa [and_comm] using hw.symm
  | turn hle ht hw hk hu =>
    rename_i t wait rfres
    obtain ⟨h1, h2, h3⟩ := hu.same
    refine ⟨ht.steady.taken.turnsTo (.turn hk hu), fun i => h3 ▸ ht.toks i, fun hd => ?_, fun hr => ?_⟩
    · obtain ⟨hd, -⟩ := Bool.or_eq_false_iff.mp hd
      obtain ⟨hd, hwait⟩ := Bool.or_eq_false_iff.mp hd
      refine ⟨hd, ?_⟩
      rw [h1, h2]
      refine ht.steady.page_taken fun hpend => ?_
      simp [hwait, hpend, hd] at hw
    · rw [h1, h2]
      by_cases hs : rfres ≠ .success
      · rw [if_pos hs] at hr
        exact (hu.res_ne hr).elim
      · rw [if_neg hs] at hr
        cases wait with
        | false => cases hr
        | true => simpa [and_comm] using hw.symm

section Encode

variable {op : OpType} {r : JRec} {tok : Nat}

/-- A header changes neither pages nor tokens. -/
theorem HeaderedTo.same (h : s.HeaderedTo s') : s'.pages = s.pages ∧ s'.pgIndex = s.pgIndex ∧
    s'.toks = s.toks := by
  cases h with
  | kept _ => exact ⟨rfl, rfl, rfl⟩
  | written _ _ => exact ⟨rfl, rfl, rfl⟩

private theorem state_encoded (pg : Nat) :
    ((s.encoded g r tok).pages pg).state = (s.pages pg).state := by
  by_cases hpg : pg = s.pgIndex
  · subst hpg
    simp [encoded]
  · simp [encoded, hpg]

theorem EncodesTo.steady {done : Bool} (ht : s.EncodesTo g op r tok done s') (h : s.Steady g)
    (hp : (s.pages s.pgIndex).state = .inUse) (hs : (s.toks tok).wstate.submOp = none)
    (he : EndsAs op r (s.toks tok)) : s'.Steady g ∧ (s'.pages s'.pgIndex).state = .inUse ∧
      (s'.toks tok).xid = (s.toks tok).xid ∧
      (s'.toks tok).wstate = if done then op.subm else op.part := by
  have ha := ht.accounted h.toAccounted hs he
  cases ht with
  | part hlt hh =>
    obtain ⟨h1, h2, h3⟩ := hh.same
    have hpage : (s'.pages s'.pgIndex).state = .inUse := by
      rw [h1, h2]
      exact (state_encoded s.pgIndex).trans hp
    refine ⟨⟨ha, fun _ => hpage, fun pg => ?_⟩, hpage, ?_, ?_⟩
    · rw [h1]
      exact fun hn => h.sound pg ((state_encoded pg).symm.trans hn)
    · simp [h3, partEncoded, encoded]
    · simp [h3, partEncoded]
  | done hge hm hp' hx hh =>
    obtain ⟨h1, h2, h3⟩ := hh.same
    have hpage : (s'.pages s'.pgIndex).state = .inUse := by
      rw [h1, h2]
      exact (state_encoded s.pgIndex).trans hp
    refine ⟨⟨ha, fun _ => hpage, fun pg => ?_⟩, hpage, ?_, ?_⟩
    · rw [h1]
      exact fun hn => h.sound pg ((state_encoded pg).symm.trans hn)
    · simp [h3, completed, encoded]
    · simp [h3, completed]

theorem EncodeFails.steady (ht : s.EncodeFails g op r tok s') (h : s.Steady g)
    (hp : (s.pages s.pgIndex).state = .inUse) (hs : (s.toks tok).wstate.submOp = none)
    (he : EndsAs op r (s.toks tok))
    (hx : r.endXid ≠ none → r.recSizeDblks ≤ s.dblksAfter g r tok →
      (∃ m, Maps.complete (s.headFid tok) r s.maps = .ok () m) ∧
        ∀ xid ∈ r.endXid, xid ∉ s.txnPending) : s'.Steady g := by
  have ha := ht.accounted h.toAccounted hs he hx
  cases ht with
  | full _ => exact h
  | maps m _ _ =>
    refine ⟨ha, fun _ => (state_encoded s.pgIndex).trans hp, fun pg hn => ?_⟩
    exact h.sound pg ((state_encoded pg).symm.trans hn)

end Encode

section Enter

def Free (c : Call) (s : Wmgr) : Prop :=
  c.op = .abort ∨ c.op = .commit → (s.toks c.tok).wstate.submOp = none

theorem submOp_of_takes {t : DataTok} (h : Takes c.op t)
    (hf : c.op = .abort ∨ c.op = .commit → t.wstate.submOp = none) : t.wstate.submOp = none := by
  cases ho : c.op with
  | enqueue =>
    have hw := h.1 ho
    simp only [DataTok.isWritable, Bool.or_eq_true, decide_eq_true_eq] at hw
    rcases hw with hw | hw <;> rw [hw] <;> rfl
  | dequeue =>
    have hw := h.2 ho
    simp only [DataTok.isDequeueable, Bool.or_eq_true, decide_eq_true_eq] at hw
    rcases hw with hw | hw <;> rw [hw] <;> rfl
  | abort => exact hf (Or.inl ho)
  | commit => exact hf (Or.inr ho)

theorem unentered_steady : Unentered c fun s => s.Steady g ∧ Free c s where
  reset s b s' h _ hr := by
    refine ⟨h.1.resetTo hr, ?_⟩
    cases hr with
    | held _ => exact h.2
    | reset _ _ => exact h.2
  use s h hp := ⟨h.1.used hp, h.2⟩
  rid s n h := ⟨h.1.of_eq rfl rfl rfl rfl rfl rfl rfl rfl rfl rfl, h.2⟩
  busy s h := ⟨h.1.of_eq rfl rfl rfl rfl rfl rfl rfl rfl rfl rfl, h.2⟩
  tok s t h ht hw hp _ _ := by
    have hs := submOp_of_takes ht h.2
    refine ⟨⟨h.1.toAccounted.setTok hs hp (hw ▸ hs) fun h0 => ?_, h.1.page, h.1.sound⟩, fun hop => ?_⟩
    · rcases h.1.awaits.live c.tok (hp ▸ h0) with hl | hl
      · exact hw ▸ hl
      · exact (hl hs).elim
    · simpa [hw] using hs

end Enter

end Wmgr

end RhmStore
