import RhmStore.Writer.Appends
import RhmStore.Writer.Released

/-! # Nothing is written into a file that was not reset -/

namespace RhmStore

namespace Sys

variable {g : Geom} {s s' : Sys} {s₀ : Wmgr} {c : Call} {evs : List Nat}

def FreshAt (s : Sys) : Prop :=
  match s.ctl with
  | .encode .. => s.w.fresh = true ∧ s.w.resetOk = true ∧
      (s.w.pages s.w.pgIndex).state ≠ .aioPending
  | .check .. => (s.w.fresh = true ∧ s.w.resetOk = true ∧
      (s.w.pages s.w.pgIndex).state ≠ .aioPending) ∧ s.w.submCntDblks ≠ 0
  | .fileWait _ => s.w.fresh = false ∧ s.w.resetOk = true
  | .idle => s.w.resetOk = s.w.fresh
  | .pageWait _ => s.w.resetOk = s.w.fresh
  | .failed => s.w.resetOk = s.w.fresh

structure Appends (s : Sys) (s₀ : Wmgr) : Prop where
  w : s.w.Appends s₀
  follows : s.ctl ≠ .failed → s.w.Follows s₀
  ctl : s.FreshAt

/-- What the first write to a file has room for is taken by the maps, and no flush turns the ring to a file
with outstanding writes. -/
def Fair (g : Geom) (s : Sys) : Act → Prop
  | .step _ => match s.ctl with
    | .encode c r _ => s.w.submCntDblks = 0 → r.recSizeDblks ≤ s.w.dblksAfter g r c.tok →
        (∃ m, Maps.complete (s.w.headFid c.tok) r s.w.maps = .ok () m) ∧
          ∀ xid ∈ r.endXid, xid ∉ s.w.txnPending
    | _ => True
  | .flush evs => ¬s.w.TurnsBusy g evs
  | _ => True

instance decidableFair : (a : Act) → Decidable (s.Fair g a)
  | .flush evs => decidable_of_iff (¬s.w.TurnsBusy g evs) Iff.rfl
  | .step _ => match hc : s.ctl with
    | .idle => isTrue (by simp only [Fair, hc])
    | .encode c r _ => decidable_of_iff (s.w.submCntDblks = 0 →
        r.recSizeDblks ≤ s.w.dblksAfter g r c.tok →
        (∃ m, Maps.complete (s.w.headFid c.tok) r s.w.maps = .ok () m) ∧
          ∀ xid ∈ r.endXid, xid ∉ s.w.txnPending) (by simp only [Fair, hc])
    | .check .. => isTrue (by simp only [Fair, hc])
    | .pageWait _ => isTrue (by simp only [Fair, hc])
    | .fileWait _ => isTrue (by simp only [Fair, hc])
    | .failed => isTrue (by simp only [Fair, hc])
  | .token _ _ => isTrue trivial
  | .call _ => isTrue trivial
  | .collect _ => isTrue trivial

theorem EntersTo.appends (ht : s.EntersTo g c s')
    (h : s.w.Appends s₀ ∧ s.w.Follows s₀ ∧ s.w.resetOk = s.w.fresh) : s'.Appends s₀ := by
  have hent := Wmgr.wp_enter (g := g) (c := c) Wmgr.unentered_appends h
  cases ht with
  | encode he =>
    have ha := wp_of_ok hent he
    obtain ⟨h1, h2, h3⟩ := ha.inv
    have hok := ha.passed.resetOk
    refine ⟨h1, fun _ => h2, h3.symm.trans hok, hok, ?_⟩
    rw [ha.passed.page]
    rintro ⟨⟩
  | wait he =>
    obtain ⟨h1, h2, h3⟩ := (wp_of_ok hent he).1.inv
    exact ⟨h1, fun _ => h2, h3⟩
  | done he =>
    obtain ⟨h1, h2, h3⟩ := (wp_of_ok hent he).1.inv
    exact ⟨h1, fun _ => h2, h3⟩
  | assert he =>
    obtain ⟨h1, h2, h3⟩ := (wp_of_error hent he).inv
    exact ⟨h1, fun _ => h2, h3⟩
  | refused he =>
    obtain ⟨h1, h2, h3⟩ := (wp_of_error hent he).inv
    exact ⟨h1, fun _ => h2, h3⟩

theorem released_appends {w : Wmgr} (h : w.Appends s₀) (hf : w.Follows s₀) :
    (released c w).Appends s₀ ∧ (released c w).Follows s₀ ∧ (released c w).resetOk = w.resetOk ∧
      (released c w).fresh = w.fresh := by
  rw [released]
  split
  · exact ⟨h.of_eq rfl rfl rfl rfl rfl rfl id, hf, rfl, rfl⟩
  · exact ⟨h, hf, rfl, rfl⟩

theorem ProceedsTo.appends (ht : s.ProceedsTo g evs s') (h : s.Appends s₀) (hi : s.InOrder g)
    (hc : s.Fair g (.step evs)) : s'.Appends s₀ := by
  obtain ⟨hw, hf, hctl⟩ := h
  cases ht with
  | encoded hs he =>
    simp only [FreshAt, hs] at hctl
    obtain ⟨hfr, hok, hp⟩ := hctl
    obtain ⟨h1, h2, h3, h4, h5, h6⟩ :=
      (wp_of_ok (Wmgr.wp_encodePart_to _) he).appends hw (hf (by rw [hs]; rintro ⟨⟩)) hfr hp
    exact ⟨h1, fun _ => h2, ⟨h4, h5.trans hok, h6⟩, h3⟩
  | encodeFailed hs he =>
    simp only [FreshAt, Fair, hs] at hctl hc
    obtain ⟨hfr, hok, hp⟩ := hctl
    obtain ⟨h1, h2, h3⟩ := (wp_of_error (Wmgr.wp_encodePart_to _) he).appends hw hfr hp hc
    exact ⟨h1, fun hn => (hn rfl).elim, h2.trans (hok.trans h3.symm)⟩
  | checked hs he =>
    simp only [FreshAt, hs] at hctl
    obtain ⟨⟨hfr, hok, hp⟩, -⟩ := hctl
    obtain ⟨h1, h2, -, h4⟩ := (wp_of_ok (hw.wp_flushCheck _ _ evs) he).appends hw
      (hf (by rw [hs]; rintro ⟨⟩)) hfr hok hp
    exact ⟨h1, fun _ => h2, h4 rfl⟩
  | left hs he =>
    simp only [FreshAt, hs] at hctl
    obtain ⟨⟨hfr, hok, hp⟩, -⟩ := hctl
    obtain ⟨h1, h2, h3, -⟩ := (wp_of_ok (hw.wp_flushCheck _ _ evs) he).appends hw
      (hf (by rw [hs]; rintro ⟨⟩)) hfr hok hp
    rename_i c r cont done cont' res w
    obtain ⟨h4, h5, h6, h7⟩ := released_appends (c := c) h1 h2
    rw [← h6, ← h7] at h3
    cases res with
    | fileAioWait => exact ⟨h4, fun _ => h5, (h3.resolve_right fun hn => hn.1 rfl).2⟩
    | pageAioWait => exact ⟨h4, fun _ => h5, (h3.resolve_left (by rintro ⟨⟨⟩, -⟩)).2⟩
    | success => exact ⟨h4, fun _ => h5, (h3.resolve_left (by rintro ⟨⟨⟩, -⟩)).2⟩
    | full => exact ⟨h4, fun _ => h5, (h3.resolve_left (by rintro ⟨⟨⟩, -⟩)).2⟩
    | busy => exact ⟨h4, fun _ => h5, (h3.resolve_left (by rintro ⟨⟨⟩, -⟩)).2⟩
    | enqCapThresh => exact ⟨h4, fun _ => h5, (h3.resolve_left (by rintro ⟨⟨⟩, -⟩)).2⟩
    | notImpl => exact ⟨h4, fun _ => h5, (h3.resolve_left (by rintro ⟨⟨⟩, -⟩)).2⟩
  | checkFailed hs he =>
    simp only [FreshAt, hs] at hctl
    obtain ⟨⟨hfr, hok, -⟩, -⟩ := hctl
    obtain ⟨h1, h2, h3⟩ := (wp_of_error (hw.wp_flushCheck _ _ evs) he).appends hw
    exact ⟨h1, fun hn => (hn rfl).elim, by rw [FreshAt, h2, h3, hok, hfr]⟩
  | pageFree hs hp he =>
    simp only [FreshAt, hs] at hctl
    exact he.appends ⟨hw, hf (by rw [hs]; rintro ⟨⟩), hctl⟩
  | fileFree hs ha hr hp he =>
    simp only [FreshAt, hs] at hctl
    exact he.appends (hw.resetTo hctl.1 (wp_of_ok (Wmgr.wp_wrReset_to fun _ _ => False) hr))
  | fileDone hs ha hr hp =>
    simp only [FreshAt, hs] at hctl
    obtain ⟨h1, h2, h3⟩ := hw.resetTo hctl.1 (wp_of_ok (Wmgr.wp_wrReset_to fun _ _ => False) hr)
    exact ⟨h1, fun _ => h2, h3⟩
  | waits hs he =>
    have hr := wp_of_ok (Wmgr.returns_getEvents evs s.w) he
    refine ⟨hw.returned hr, fun hn => (hf hn).returned hr, ?_⟩
    rcases hs with ⟨hs, -⟩ | ⟨hs, -⟩
    · simp only [FreshAt, hs] at hctl ⊢
      rw [hr.resetOk, hr.fresh, hctl]
    · simp only [FreshAt, hs] at hctl ⊢
      rw [hr.resetOk, hr.fresh]
      exact hctl
  | waitFailed hs he =>
    have hne : s.ctl ≠ .failed := by
      rcases hs with hs | hs <;> rw [hs] <;> rintro ⟨⟩
    exact (wp_of_error (Wmgr.wp_getEvents_steady (hi.steady hne).w evs) he).elim

theorem StepsTo.appends {a : Act} (ht : s.StepsTo g a s') (h : s.Appends s₀) (hi : s.InOrder g)
    (hc : s.Fair g a) : s'.Appends s₀ := by
  obtain ⟨hw, hf, hctl⟩ := h
  have hrest : ∀ {u : Wmgr}, s.ctl = .idle ∨ s.ctl = .failed → u.resetOk = u.fresh →
      FreshAt { s with w := u } := by
    intro u hs hu
    rcases hs with hs | hs <;> simpa only [FreshAt, hs] using hu
  have hsame : s.ctl = .idle ∨ s.ctl = .failed → s.w.resetOk = s.w.fresh := by
    rintro (hs | hs) <;> simpa only [FreshAt, hs] using hctl
  cases ht with
  | token hs _ _ =>
    exact ⟨hw.of_eq rfl rfl rfl rfl rfl rfl id, hf, hrest (Or.inl hs) (hsame (Or.inl hs))⟩
  | call hs _ he => exact he.appends ⟨hw, hf (by rw [hs]; rintro ⟨⟩), hsame (Or.inl hs)⟩
  | step he => exact he.appends ⟨hw, hf, hctl⟩ hi hc
  | collected hs he =>
    have hr := wp_of_ok (Wmgr.returns_getEvents _ s.w) he
    exact ⟨hw.returned hr, fun hn => (hf hn).returned hr,
      hrest hs (by rw [hr.resetOk, hr.fresh, hsame hs])⟩
  | collectFailed hs he =>
    have hr := wp_of_error (Wmgr.returns_getEvents _ s.w) he
    refine ⟨hw.returned hr, fun hn => (hn rfl).elim, ?_⟩
    rw [FreshAt, hr.resetOk, hr.fresh, hsame hs]
  | flushed hs he =>
    obtain ⟨t, ht, hto⟩ := wp_of_ok (hw.wp_flush _) he
    obtain ⟨h1, h2, h3⟩ := ht.turnsTo hw (hsame hs) hc hto
    exact ⟨h1, fun hn => h2 (hf hn), hrest hs h3⟩
  | flushFailed hs he =>
    obtain ⟨h1, h2, h3⟩ := (wp_of_error (hw.wp_flush _) he).appends hw
    exact ⟨h1, fun hn => (hn rfl).elim, by rw [FreshAt, h2, h3, hsame hs]⟩

theorem appends_self {w : Wmgr} (hs : w.subm = []) (h0 : w.cached = 0) : w.Appends w ∧ w.Follows w := by
  have hw : w.writesOf w.rot = [] := by simp [Wmgr.writesOf, hs]
  refine ⟨⟨⟨Nat.le_refl _, by simp [hs], fun hf => ⟨hw, if_neg fun hn => ?_⟩, by simp [hw]⟩,
    fun hn => (hn h0).elim, fun _ => h0, fun _ => h0⟩, fun hf => ?_⟩
  · rw [hf] at hn
    cases hn.2
  · rw [hw]
    exact if_pos ⟨rfl, hf⟩

theorem Start.appends (h : s.Start g) : s.Appends s.w := by
  cases h with
  | init =>
    obtain ⟨h1, h2⟩ := appends_self (w := Wmgr.init g) rfl rfl
    exact ⟨h1, fun _ => h2, rfl⟩
  | recovered rd hrd =>
    rcases Wmgr.recovered_to g rd with he | ⟨res, hto⟩
    · obtain ⟨h1, h2⟩ := appends_self (w := Wmgr.resumed g rd) rfl rfl
      rw [show Sys.recovered g rd = ⟨Wmgr.resumed g rd, .idle, none⟩ by rw [Sys.recovered, he]]
      exact ⟨h1, fun _ => h2, rfl⟩
    · have hsame : (Wmgr.recovered g rd).subm = [] ∧ (Wmgr.recovered g rd).cached = 0 ∧
          (Wmgr.recovered g rd).resetOk = (Wmgr.recovered g rd).fresh := by
        revert hto
        generalize Wmgr.recovered g rd = w
        intro hto
        cases hto with
        | wait ha => exact (ha rfl).elim
        | full _ => exact ⟨rfl, rfl, rfl⟩
        | reset _ _ => exact ⟨rfl, rfl, rfl⟩
      obtain ⟨h1, h2⟩ := appends_self hsame.1 hsame.2.1
      exact ⟨h1, fun _ => h2, hsame.2.2⟩

/-- Where `_reset_ok` is set, the current file was reset since the ring turned to it, unless its call is just
waiting to do so. Nothing is written into it before, and then first its header, each write behind the last. -/
structure ResetFirst (s : Sys) (s₀ : Wmgr) : Prop where
  reset : s.w.resetOk = true → s.w.fresh = true ∨ ∃ c, s.ctl = .fileWait c
  loop : s.inLoop = true → s.w.fresh = true
  header : ∀ c r cont done, s.ctl = .check c r cont done → s.w.submCntDblks ≠ 0
  stale : s.w.fresh = false → s.w.writesOf s.w.rot = []
  sent : ∀ w ∈ s.w.writesOf s.w.rot, w.fid = s.w.fcIndex ∧ 0 < w.dblks ∧ (w.page = none ↔ w.offs = 0)
  follows : s.ctl ≠ .failed → s.w.fresh = true →
    Tiles Write.offs Write.dblks (s₀.base s.w.rot) (s.w.writesOf s.w.rot) s.w.submCntDblks

theorem Appends.resetFirst (h : s.Appends s₀) : s.ResetFirst s₀ := by
  have hctl := h.ctl
  constructor
  · intro hr
    cases hs : s.ctl with
    | fileWait c => exact Or.inr ⟨c, rfl⟩
    | encode c r cont =>
      simp only [FreshAt, hs] at hctl
      exact Or.inl hctl.1
    | check c r cont done =>
      simp only [FreshAt, hs] at hctl
      exact Or.inl hctl.1.1
    | idle =>
      simp only [FreshAt, hs] at hctl
      exact Or.inl (hctl ▸ hr)
    | pageWait c =>
      simp only [FreshAt, hs] at hctl
      exact Or.inl (hctl ▸ hr)
    | failed =>
      simp only [FreshAt, hs] at hctl
      exact Or.inl (hctl ▸ hr)
  · intro hl
    cases hs : s.ctl with
    | encode c r cont =>
      simp only [FreshAt, hs] at hctl
      exact hctl.1
    | check c r cont done =>
      simp only [FreshAt, hs] at hctl
      exact hctl.1.1
    | idle => simp [inLoop, hs] at hl
    | pageWait c => simp [inLoop, hs] at hl
    | fileWait c => simp [inLoop, hs] at hl
    | failed => simp [inLoop, hs] at hl
  · intro c r cont done hs
    simp only [FreshAt, hs] at hctl
    exact hctl.2
  · exact fun hf => (h.w.stale hf).1
  · exact h.w.sent
  · exact h.follows

/-- In a run without such a flush, no operation writes into a file that was not reset for it. -/
theorem run_resetFirst (hs : s.Start g) {acts : List Act} (hc : s.Along g (Fair g) acts)
    (hr : s.run g acts = some s') : s'.ResetFirst s.w := by
  have h : s'.Appends s.w ∧ s'.InOrder g := by
    apply run_preserves (J := fun t => t.Appends s.w ∧ t.InOrder g) _ ⟨hs.appends, hs.inOrder⟩ hc hr
    intro t a u ht ha hu
    exact ⟨hu.appends ht.1 ht.2 ha, hu.inOrder ht.2⟩
  exact h.1.resetFirst

theorem commitRun_resetFirst : ∃ s, (init fourFiles).run fourFiles commitRun = some s ∧
    s.ResetFirst (init fourFiles).w ∧ s.w.subm.length = 2 := by
  have hc : (init fourFiles).Along fourFiles (Fair fourFiles) commitRun := by decide +kernel
  have hr : ((init fourFiles).run fourFiles commitRun).map (fun s => s.w.subm.length) = some 2 := by
    decide +kernel
  obtain ⟨s, hs, hl⟩ := Option.map_eq_some_iff.mp hr
  exact ⟨s, hs, run_resetFirst .init hc hs, hl⟩

/-- The ring has turned to file 0, of which the header is outstanding, and a commit is in its loop. -/
def staleRun : List Act := lapRun.take 20

theorem staleRun_not_resetFirst : ¬ ∀ (g : Geom) (s s' : Sys) (acts : List Act), s.Start g →
    s.run g acts = some s' → s'.ResetFirst s.w := by
  intro h
  have hr : ((init fourFiles).run fourFiles staleRun).map (fun s => (s.inLoop, s.w.resetOk, s.w.fresh)) =
      some (true, true, false) := by decide +kernel
  obtain ⟨s, hs, he⟩ := Option.map_eq_some_iff.mp hr
  simp only [Prod.mk.injEq] at he
  have hl := (h fourFiles _ s staleRun .init hs).loop he.1
  rw [he.2.2] at hl
  cases hl

end Sys

end RhmStore
