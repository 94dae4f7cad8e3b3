import RhmStore.Jrnl.Jcntl

/-! # The steps of a journal in use -/

namespace RhmStore

namespace Sys

variable {g : Geom} {s s' : Sys}

/-- What a call of `wmgr` comes to. -/
inductive EntersTo (g : Geom) (s : Sys) (c : Call) : Sys → Prop
  | encode {r : JRec} {cont : Bool} {w : Wmgr} (h : c.enter g s.w = .ok (.encode r cont) w) :
    EntersTo g s c ⟨w, .encode c r cont, s.part⟩
  | wait {w : Wmgr} (h : c.enter g s.w = .ok (.done .pageAioWait) w) :
    EntersTo g s c ⟨w, .pageWait c, s.part⟩
  | done {res : Iores} {w : Wmgr} (h : c.enter g s.w = .ok (.done res) w) :
    EntersTo g s c ⟨w, .idle, s.part⟩
  | assert {w : Wmgr} (h : c.enter g s.w = .error .assertFailed w) :
    EntersTo g s c ⟨w, .failed, s.part⟩
  | refused {e : JErr} {w : Wmgr} (h : c.enter g s.w = .error e w) :
    EntersTo g s c ⟨w, .idle, s.part⟩

theorem entersTo (g : Geom) (s : Sys) (c : Call) : s.EntersTo g c (s.enter g c) := by
  rw [enter]
  cases h : c.enter g s.w with
  | ok e w =>
    cases e with
    | encode r cont => exact .encode h
    | done res => cases res <;> first | exact .wait h | exact .done h
  | error e w => cases e <;> first | exact .assert h | exact .refused h

/-- The write manager as the user gets it back at the end of the operation's loop. -/
def released (c : Call) (w : Wmgr) : Wmgr :=
  if (w.toks c.tok).wstate.atLeast c.op.subm then
    { w with busy := Function.update w.busy c.op false } else w

inductive ProceedsTo (g : Geom) (s : Sys) (evs : List Nat) : Sys → Prop
  | encoded {c : Call} {r : JRec} {cont done : Bool} {w : Wmgr} (hc : s.ctl = .encode c r cont)
    (h : Wmgr.encodePart g c.op r c.tok cont s.w = .ok done w) :
    ProceedsTo g s evs ⟨w, .check c r cont done, s.part⟩
  | encodeFailed {c : Call} {r : JRec} {cont : Bool} {e : JErr} {w : Wmgr}
    (hc : s.ctl = .encode c r cont)
    (h : Wmgr.encodePart g c.op r c.tok cont s.w = .error e w) :
    ProceedsTo g s evs ⟨w, .failed, s.part⟩
  | checked {c : Call} {r : JRec} {cont done cont' : Bool} {res : Iores} {w : Wmgr}
    (hc : s.ctl = .check c r cont done)
    (h : Wmgr.flushCheck g cont done evs s.w = .ok (res, cont', false) w) :
    ProceedsTo g s evs ⟨w, .encode c r cont', s.part⟩
  | left {c : Call} {r : JRec} {cont done cont' : Bool} {res : Iores} {w : Wmgr}
    (hc : s.ctl = .check c r cont done)
    (h : Wmgr.flushCheck g cont done evs s.w = .ok (res, cont', true) w) :
    ProceedsTo g s evs (handle c res (released c w))
  | checkFailed {c : Call} {r : JRec} {cont done : Bool} {e : JErr} {w : Wmgr}
    (hc : s.ctl = .check c r cont done) (h : Wmgr.flushCheck g cont done evs s.w = .error e w) :
    ProceedsTo g s evs ⟨w, .failed, s.part⟩
  | pageFree {c : Call} {s' : Sys} (hc : s.ctl = .pageWait c)
    (hp : (s.w.pages s.w.pgIndex).state = .unused) (h : s.EntersTo g c s') : ProceedsTo g s evs s'
  | fileFree {c : Call} {b : Bool} {w : Wmgr} {s' : Sys} (hc : s.ctl = .fileWait c)
    (ha : (s.w.fcntls s.w.fcIndex).aioCnt = 0) (hr : Wmgr.wrReset s.w = .ok b w)
    (hp : (w.toks c.tok).wstate.isPart = true) (h : EntersTo g ⟨w, .idle, s.part⟩ c s') :
    ProceedsTo g s evs s'
  | fileDone {c : Call} {b : Bool} {w : Wmgr} (hc : s.ctl = .fileWait c)
    (ha : (s.w.fcntls s.w.fcIndex).aioCnt = 0) (hr : Wmgr.wrReset s.w = .ok b w)
    (hp : (w.toks c.tok).wstate.isPart = false) : ProceedsTo g s evs ⟨w, .idle, s.part⟩
  | waits {c : Call} {w : Wmgr} (hc : s.ctl = .pageWait c ∧
      (s.w.pages s.w.pgIndex).state ≠ .unused ∨
      s.ctl = .fileWait c ∧ (s.w.fcntls s.w.fcIndex).aioCnt ≠ 0)
    (h : Wmgr.getEvents evs s.w = .ok () w) : ProceedsTo g s evs ⟨w, s.ctl, s.part⟩
  | waitFailed {c : Call} {e : JErr} {w : Wmgr} (hc : s.ctl = .pageWait c ∨ s.ctl = .fileWait c)
    (h : Wmgr.getEvents evs s.w = .error e w) : ProceedsTo g s evs ⟨w, .failed, s.part⟩

theorem wrReset_ok (w : Wmgr) : ∃ b w', Wmgr.wrReset w = .ok b w' := by
  by_cases h : w.maps.enqCnt.getD w.fcIndex 0 ≠ 0 ∨ (w.fcntls w.fcIndex).aioCnt ≠ 0
  · exact ⟨false, _, by simp only [Wmgr.wrReset, ok_get_bind, if_pos h]; rfl⟩
  · exact ⟨true, _, by simp only [Wmgr.wrReset, ok_get_bind, if_neg h]; rfl⟩

theorem proceedsTo {evs : List Nat} (h : s.proceed g evs = some s') : s.ProceedsTo g evs s' := by
  rw [proceed] at h
  cases hc : s.ctl with
  | idle =>
    rw [hc] at h
    cases h
  | failed =>
    rw [hc] at h
    cases h
  | encode c r cont =>
    rw [hc] at h
    simp only at h
    cases he : Wmgr.encodePart g c.op r c.tok cont s.w with
    | ok done w =>
      rw [he] at h
      cases h
      exact .encoded hc he
    | error e w =>
      rw [he] at h
      cases h
      exact .encodeFailed hc he
  | check c r cont done =>
    rw [hc] at h
    simp only at h
    cases he : Wmgr.flushCheck g cont done evs s.w with
    | ok x w =>
      obtain ⟨res, cont', done'⟩ := x
      rw [he] at h
      cases done' with
      | false =>
        cases h
        exact .checked hc he
      | true =>
        cases h
        exact .left hc he
    | error e w =>
      rw [he] at h
      cases h
      exact .checkFailed hc he
  | pageWait c =>
    rw [hc] at h
    simp only at h
    by_cases hp : (s.w.pages s.w.pgIndex).state = .unused
    · rw [if_pos hp] at h
      cases h
      exact .pageFree hc hp (entersTo g s c)
    · rw [if_neg hp] at h
      cases he : Wmgr.getEvents evs s.w with
      | ok u w =>
        rw [he] at h
        cases h
        rw [← hc]
        exact .waits (Or.inl ⟨hc, hp⟩) he
      | error e w =>
        rw [he] at h
        cases h
        exact .waitFailed (Or.inl hc) he
  | fileWait c =>
    rw [hc] at h
    simp only at h
    by_cases ha : (s.w.fcntls s.w.fcIndex).aioCnt = 0
    · rw [if_pos ha] at h
      obtain ⟨b, w, hr⟩ := wrReset_ok s.w
      rw [hr] at h
      simp only at h
      by_cases hp : (w.toks c.tok).wstate.isPart = true
      · rw [if_pos hp] at h
        cases h
        exact .fileFree hc ha hr hp (entersTo g _ c)
      · rw [if_neg hp] at h
        cases h
        exact .fileDone hc ha hr (by simpa using hp)
    · rw [if_neg ha] at h
      cases he : Wmgr.getEvents evs s.w with
      | ok u w =>
        rw [he] at h
        cases h
        rw [← hc]
        exact .waits (Or.inr ⟨hc, ha⟩) he
      | error e w =>
        rw [he] at h
        cases h
        exact .waitFailed (Or.inr hc) he

inductive StepsTo (g : Geom) (s : Sys) : Act → Sys → Prop
  | token {tok : Nat} {t : DataTok} (hi : s.ctl = .idle) (hf : free (s.w.toks tok) = true)
    (hp : pristine t = true) : StepsTo g s (.token tok t)
      { s with w := { s.w with toks := Function.update s.w.toks tok t } }
  | call {c : Call} {s' : Sys} (hi : s.ctl = .idle) (hg : s.given c = true) (h : s.EntersTo g c s') :
    StepsTo g s (.call c) s'
  | step {evs : List Nat} {s' : Sys} (h : s.ProceedsTo g evs s') : StepsTo g s (.step evs) s'
  | collected {evs : List Nat} {w : Wmgr} (hi : s.ctl = .idle ∨ s.ctl = .failed)
    (h : Wmgr.getEvents evs s.w = .ok () w) : StepsTo g s (.collect evs) { s with w := w }
  | collectFailed {evs : List Nat} {e : JErr} {w : Wmgr} (hi : s.ctl = .idle ∨ s.ctl = .failed)
    (h : Wmgr.getEvents evs s.w = .error e w) :
    StepsTo g s (.collect evs) { s with w := w, ctl := .failed }
  | flushed {evs : List Nat} {res : Iores} {w : Wmgr} (hi : s.ctl = .idle ∨ s.ctl = .failed)
    (h : Wmgr.flush g evs s.w = .ok res w) : StepsTo g s (.flush evs) { s with w := w }
  | flushFailed {evs : List Nat} {e : JErr} {w : Wmgr} (hi : s.ctl = .idle ∨ s.ctl = .failed)
    (h : Wmgr.flush g evs s.w = .error e w) :
    StepsTo g s (.flush evs) { s with w := w, ctl := .failed }

theorem stepsTo {a : Act} (h : s.step g a = some s') : s.StepsTo g a s' := by
  cases a with
  | token tok t =>
    rw [step] at h
    by_cases hi : s.ctl = .idle ∧ free (s.w.toks tok) ∧ pristine t
    · rw [if_pos hi] at h
      cases h
      exact .token hi.1 hi.2.1 hi.2.2
    · rw [if_neg hi] at h
      cases h
  | call c =>
    rw [step] at h
    by_cases hi : s.ctl = .idle ∧ s.given c
    · rw [if_pos hi] at h
      cases h
      exact .call hi.1 hi.2 (entersTo g s c)
    · rw [if_neg hi] at h
      cases h
  | step evs => exact .step (proceedsTo h)
  | collect evs =>
    rw [step] at h
    by_cases hi : s.ctl = .idle ∨ s.ctl = .failed
    · rw [if_pos hi] at h
      cases he : Wmgr.getEvents evs s.w with
      | ok u w =>
        rw [he] at h
        cases h
        exact .collected hi he
      | error e w =>
        rw [he] at h
        cases h
        exact .collectFailed hi he
    · rw [if_neg hi] at h
      cases h
  | flush evs =>
    rw [step] at h
    by_cases hi : s.ctl = .idle ∨ s.ctl = .failed
    · rw [if_pos hi] at h
      cases he : Wmgr.flush g evs s.w with
      | ok res w =>
        rw [he] at h
        cases h
        exact .flushed hi he
      | error e w =>
        rw [he] at h
        cases h
        exact .flushFailed hi he
    · rw [if_neg hi] at h
      cases h

/-- Each step of the run meets `P` in the state before it. -/
def Along (g : Geom) (P : Sys → Act → Prop) (s : Sys) : List Act → Prop
  | [] => True
  | a :: acts => P s a ∧ ∀ s' ∈ s.step g a, s'.Along g P acts

instance {P : Sys → Act → Prop} [∀ s a, Decidable (P s a)] :
    (acts : List Act) → (s : Sys) → Decidable (s.Along g P acts)
  | [], _ => isTrue trivial
  | a :: acts, s =>
    have : ∀ s', Decidable (Along g P s' acts) := fun s' => instDecidableAlong acts s'
    inferInstanceAs (Decidable (P s a ∧ ∀ s' ∈ s.step g a, s'.Along g P acts))

/-- What each step that meets `P` preserves, a run of such steps does. -/
theorem run_preserves {J : Sys → Prop} {P : Sys → Act → Prop}
    (hstep : ∀ s a s', J s → P s a → s.StepsTo g a s' → J s') {acts : List Act} (hs : J s)
    (hP : s.Along g P acts) (h : s.run g acts = some s') : J s' := by
  induction acts generalizing s with
  | nil =>
    cases h
    exact hs
  | cons a acts ih =>
    rw [run, Option.bind_eq_some_iff] at h
    obtain ⟨t, ht, h⟩ := h
    exact ih (hstep s a t hs hP.1 (stepsTo ht)) (hP.2 t ht) h

theorem along_of_step {J : Sys → Prop} {P Q : Sys → Act → Prop}
    (hstep : ∀ s a s', J s → P s a → s.StepsTo g a s' → J s') (hQ : ∀ s a, J s → P s a → Q s a)
    {acts : List Act} (hs : J s) (hP : s.Along g P acts) : s.Along g Q acts := by
  induction acts generalizing s with
  | nil => trivial
  | cons a acts ih =>
    refine ⟨hQ s a hs hP.1, ?_⟩
    intro t ht
    exact ih (hstep s a t hs hP.1 (stepsTo ht)) (hP.2 t ht)

/-- What holds along a run holds of its last step. -/
theorem Along.last {P : Sys → Act → Prop} {acts : List Act} {a : Act}
    (h : s.Along g P (acts ++ [a])) (hr : s.run g acts = some s') : P s' a := by
  induction acts generalizing s with
  | nil =>
    cases hr
    exact h.1
  | cons b acts ih =>
    rw [run, Option.bind_eq_some_iff] at hr
    obtain ⟨t, ht, hr⟩ := hr
    exact ih (h.2 t ht) hr

inductive Start (g : Geom) : Sys → Prop
  | init : Start g (init g)
  | recovered (rd : Wmgr.Rcvdat) (h : rd.lfid < g.numJfiles) : Start g (recovered g rd)

theorem along_of_all {P : Sys → Act → Prop} (hP : ∀ s a, P s a) (acts : List Act) :
    s.Along g P acts := by
  induction acts generalizing s with
  | nil => trivial
  | cons a acts ih => exact ⟨hP s a, fun _ _ => ih⟩

end Sys

end RhmStore
