import RhmStore.Writer.Exact
import Mathlib.Data.Nat.ModEq

/-! # The enqueue threshold

The window that an enqueue needs is laid from the start of the current file's data forward round the
ring. `wrfc::enq_threshold` looks for a file in use behind the current one that the window reaches. -/

namespace RhmStore

namespace Wmgr

variable {g : Geom} {s : Wmgr} {n w j : Nat} {p : Probe}

/-- The `i`-th file from the current one on round the ring has enqueued records. -/
def UsedAhead (g : Geom) (s : Wmgr) (i : Nat) : Prop :=
  s.maps.enqCnt.getD ((s.fcIndex + i) % g.numJfiles) 0 ≠ 0

instance decidableUsedAhead (i : Nat) : Decidable (s.UsedAhead g i) :=
  inferInstanceAs (Decidable (_ ≠ _))

/-- A window of `w` dblks reaches past the current file into a file in use. All the way round is the
current file again. -/
def WindowReaches (g : Geom) (s : Wmgr) (w : Nat) : Prop :=
  ∃ i, 0 < i ∧ i * g.jfsizeDblks < w ∧ s.UsedAhead g i

/-- Data submitted to the current file, the proposed size, and the capacity offset. -/
def window (g : Geom) (s : Wmgr) (n : Nat) : Nat :=
  ((s.fcntls s.fcIndex).wrSubm - jrnlSblkSize) + n + g.enqCapOffsDblks

def OnlyCurrent (g : Geom) (s : Wmgr) : Prop :=
  ∀ i, s.UsedAhead g i → (s.fcIndex + i) % g.numJfiles = s.fcIndex

/-- The file in which a window of `w` dblks ends, counted from the current one. -/
def windowEnd (g : Geom) (w : Nat) : Nat := (w - 1) / g.jfsizeDblks

theorem WindowReaches.mono {w' : Nat} (hw : w ≤ w') (h : s.WindowReaches g w) :
    s.WindowReaches g w' := by
  obtain ⟨i, hi, hlt, hu⟩ := h
  exact ⟨i, hi, Nat.lt_of_lt_of_le hlt hw, hu⟩

theorem windowEnd_eq (hw : j * g.jfsizeDblks < w) (hl : w ≤ (j + 1) * g.jfsizeDblks) :
    windowEnd g w = j := by
  rw [Nat.succ_mul] at hl
  apply Nat.div_eq_of_lt_le
  · omega
  · rw [Nat.succ_mul]
    omega

/-! ## The loop -/

theorem jfsizeDblks_pos (g : Geom) : 0 < g.jfsizeDblks :=
  Nat.mul_pos (Nat.lt_of_lt_of_le g.pgsize_pos g.pgsize_le) (by decide)

/-- The loop has come to the `j`-th file from the current one on, and none in use stopped it. -/
structure Probe.At (g : Geom) (s : Wmgr) (w j : Nat) (p : Probe) : Prop where
  fwd : p.fwdDblks = w - j * g.jfsizeDblks
  ahead : j * g.jfsizeDblks < w
  findex : p.findex = (s.fcIndex + j) % g.numJfiles
  inUse : p.inUse = true ↔ ∃ i, 0 < i ∧ i ≤ j ∧ s.UsedAhead g i
  free : ∀ i, 0 < i → i < j → s.UsedAhead g i → (s.fcIndex + i) % g.numJfiles = s.fcIndex

/-- What the loop leaves behind answers for a window of `w` dblks. -/
structure Probe.Answers (g : Geom) (s : Wmgr) (w : Nat) (p : Probe) : Prop where
  stopped : p.goesOn s = false
  iff : p.findex ≠ s.fcIndex ∧ p.inUse = true ↔
    s.WindowReaches g w ∧ ¬(s.OnlyCurrent g ∧ g.numJfiles ∣ windowEnd g w)

theorem goesOn_iff : p.goesOn s = true ↔
    p.fwdDblks ≠ 0 ∧ (p.findex ≠ s.fcIndex → s.maps.enqCnt.getD p.findex 0 = 0) := by
  simp [Probe.goesOn]
  tauto

theorem ring_succ (c : Nat) (hN : 0 < g.numJfiles) :
    (if c % g.numJfiles + 1 = g.numJfiles then 0 else c % g.numJfiles + 1) =
      (c + 1) % g.numJfiles := by
  have hlt := Nat.mod_lt c hN
  rw [← Nat.mod_add_mod c]
  split
  · next h => rw [h, Nat.mod_self]
  · next h =>
    have hs : c % g.numJfiles + 1 < g.numJfiles := by omega
    exact (Nat.mod_eq_of_lt hs).symm

/-- A round of the loop that the window outlasts. -/
theorem Probe.At.next (h : p.At g s w j) (hg : p.goesOn s = true)
    (hw : (j + 1) * g.jfsizeDblks < w) : (p.next g s).At g s w (j + 1) := by
  have hw' := hw
  rw [Nat.succ_mul] at hw'
  have hgt : p.fwdDblks > g.jfsizeDblks := by
    rw [h.fwd]
    omega
  have hne : p.fwdDblks - g.jfsizeDblks ≠ 0 := by omega
  have hidx : (p.next g s).findex = (s.fcIndex + (j + 1)) % g.numJfiles := by
    simp only [Probe.next, hgt, if_true, hne, if_false, h.findex]
    exact ring_succ _ g.numJfiles_pos
  constructor
  · simp only [Probe.next, hgt, if_true]
    rw [h.fwd, Nat.succ_mul]
    omega
  · exact hw
  · exact hidx
  · have hu : (p.next g s).inUse = true ↔ p.inUse = true ∨ s.UsedAhead g (j + 1) := by
      rw [UsedAhead, ← hidx]
      simp [Probe.next]
    rw [hu, h.inUse]
    constructor
    · rintro (⟨i, hi, hij, hui⟩ | hu)
      · exact ⟨i, hi, Nat.le_succ_of_le hij, hui⟩
      · exact ⟨j + 1, Nat.succ_pos j, Nat.le_refl _, hu⟩
    · intro hex
      obtain ⟨i, hi, hij, hui⟩ := hex
      rcases Nat.eq_or_lt_of_le hij with rfl | hlt
      · exact Or.inr hui
      · exact Or.inl ⟨i, hi, Nat.le_of_lt_succ hlt, hui⟩
  · intro i hi hij hui
    rcases Nat.eq_or_lt_of_le (Nat.le_of_lt_succ hij) with rfl | hlt
    · by_contra hc
      apply hui
      have h0 := (goesOn_iff.mp hg).2 (by rwa [h.findex])
      rwa [h.findex] at h0
    · exact h.free i hi hlt hui

theorem Probe.At.answers_of_used (h : p.At g s w j) (hg : p.goesOn s = false)
    (hc : s.fcIndex < g.numJfiles) : p.Answers g s w := by
  have hfwd : p.fwdDblks ≠ 0 := by
    rw [h.fwd]
    have := h.ahead
    omega
  have hn : ¬(p.findex ≠ s.fcIndex → s.maps.enqCnt.getD p.findex 0 = 0) := by
    intro hi
    rw [goesOn_iff.mpr ⟨hfwd, hi⟩] at hg
    exact Bool.noConfusion hg
  push Not at hn
  obtain ⟨hne, hused⟩ := hn
  have hu : s.UsedAhead g j := by
    rw [UsedAhead, ← h.findex]
    exact hused
  have hother : (s.fcIndex + j) % g.numJfiles ≠ s.fcIndex := by rwa [← h.findex]
  have hj : 0 < j := by
    rcases Nat.eq_zero_or_pos j with rfl | hj
    · rw [Nat.add_zero, Nat.mod_eq_of_lt hc] at hother
      exact absurd rfl hother
    · exact hj
  have hin : p.inUse = true := h.inUse.mpr ⟨j, hj, Nat.le_refl j, hu⟩
  refine ⟨hg, iff_of_true ⟨hne, hin⟩ ⟨⟨j, hj, h.ahead, hu⟩, ?_⟩⟩
  intro ho
  exact hother (ho.1 j hu)

theorem Probe.At.onlyCurrent (h : p.At g s w j) (hj : 0 < j) (hd : g.numJfiles ∣ j)
    (hc : s.fcIndex < g.numJfiles) : s.OnlyCurrent g := by
  intro i hi
  have hle : g.numJfiles ≤ j := Nat.le_of_dvd hj hd
  by_cases hz : i % g.numJfiles = 0
  · rw [Nat.add_mod, hz, Nat.add_zero, Nat.mod_mod, Nat.mod_eq_of_lt hc]
  · have hm : (s.fcIndex + i % g.numJfiles) % g.numJfiles = (s.fcIndex + i) % g.numJfiles :=
      Nat.add_mod_mod _ _ _
    have hlt : i % g.numJfiles < j := Nat.lt_of_lt_of_le (Nat.mod_lt _ g.numJfiles_pos) hle
    rw [← hm]
    apply h.free _ (Nat.pos_of_ne_zero hz) hlt
    rw [UsedAhead, hm]
    exact hi

theorem Probe.At.answers_of_end (h : p.At g s w j) (hg : p.goesOn s = true)
    (hw : w ≤ (j + 1) * g.jfsizeDblks) (hc : s.fcIndex < g.numJfiles) :
    (p.next g s).Answers g s w := by
  have hend : windowEnd g w = j := windowEnd_eq h.ahead hw
  have hfwd : p.fwdDblks ≤ g.jfsizeDblks := by
    rw [h.fwd]
    rw [Nat.succ_mul] at hw
    omega
  have hnext : p.next g s =
      ⟨0, p.findex, p.inUse || s.maps.enqCnt.getD p.findex 0 ≠ 0⟩ := by
    simp [Probe.next, Nat.not_lt.mpr hfwd]
  rw [hnext]
  refine ⟨by simp [Probe.goesOn], ?_⟩
  -- `findex` is behind the current file only if no whole number of rounds leads to it.
  have hat : p.findex = s.fcIndex ↔ g.numJfiles ∣ j := by
    rw [h.findex]
    constructor
    · intro he
      have hmod : s.fcIndex + j ≡ s.fcIndex + 0 [MOD g.numJfiles] := by
        rw [Nat.ModEq, he, Nat.add_zero, Nat.mod_eq_of_lt hc]
      exact (Nat.modEq_zero_iff_dvd).mp (Nat.ModEq.add_left_cancel' _ hmod)
    · intro hd
      rw [Nat.add_mod, Nat.mod_eq_zero_of_dvd hd, Nat.add_zero, Nat.mod_mod, Nat.mod_eq_of_lt hc]
  have hreach : s.WindowReaches g w ↔ p.inUse = true := by
    rw [h.inUse]
    constructor
    · intro hr
      obtain ⟨i, hi, hiw, hu⟩ := hr
      have hij : i < j + 1 := Nat.lt_of_mul_lt_mul_right (Nat.lt_of_lt_of_le hiw hw)
      exact ⟨i, hi, Nat.le_of_lt_succ hij, hu⟩
    · intro hr
      obtain ⟨i, hi, hij, hu⟩ := hr
      exact ⟨i, hi, Nat.lt_of_le_of_lt (Nat.mul_le_mul_right _ hij) h.ahead, hu⟩
  rw [hend, hreach]
  constructor
  · intro hr
    obtain ⟨hne, hin⟩ := hr
    have h0 := (goesOn_iff.mp hg).2 hne
    have hin' : p.inUse = true := by simpa only [h0, ne_eq, not_true_eq_false, decide_false,
      Bool.or_false] using hin
    refine ⟨hin', ?_⟩
    intro ho
    exact hne (hat.mpr ho.2)
  · intro hr
    obtain ⟨hin, hno⟩ := hr
    refine ⟨?_, by simp [hin]⟩
    intro he
    have hd : g.numJfiles ∣ j := hat.mp he
    have hj : 0 < j := by
      obtain ⟨i, hi, hij, -⟩ := h.inUse.mp hin
      omega
    exact hno ⟨h.onlyCurrent hj hd hc, hd⟩

theorem Probe.At.answers (fuel : Nat) (h : p.At g s w j) (hc : s.fcIndex < g.numJfiles)
    (hf : p.fwdDblks ≤ fuel) : (Probe.run g s fuel p).Answers g s w := by
  induction fuel generalizing p j with
  | zero =>
    have := h.fwd
    have := h.ahead
    omega
  | succ fuel ih =>
    rw [Probe.run]
    cases hg : p.goesOn s with
    | false => exact h.answers_of_used hg hc
    | true =>
      rw [if_pos rfl]
      by_cases hw : (j + 1) * g.jfsizeDblks < w
      · have hn := h.next hg hw
        apply ih hn
        have hs := jfsizeDblks_pos g
        rw [hn.fwd, Nat.succ_mul]
        rw [h.fwd] at hf
        omega
      · have ha := h.answers_of_end hg (Nat.le_of_not_lt hw) hc
        cases fuel with
        | zero => exact ha
        | succ fuel => rwa [Probe.run, ha.stopped]

/-! ## The threshold -/

/-- `wrfc::enq_threshold` comes to an end and its answer is whether the window for `n` dblks reaches
past the current file into a file in use. -/
def ThresholdRight (g : Geom) (s : Wmgr) (n : Nat) : Prop :=
  (∃ fuel, (Probe.run g s fuel ⟨s.fwdDblks g n, s.fcIndex, false⟩).goesOn s = false ∧
    Probe.run g s fuel ⟨s.fwdDblks g n, s.fcIndex, false⟩ =
      Probe.run g s (s.fwdDblks g n) ⟨s.fwdDblks g n, s.fcIndex, false⟩) ∧
  (s.enqThreshold g n = true ↔ s.WindowReaches g (s.window g n))

/-- The window taken modulo `2 ^ 32` reaches a file in use if the whole one does, and it does not end in
the current file with no other in use. -/
def ThresholdExact (g : Geom) (s : Wmgr) (n : Nat) : Prop :=
  (s.WindowReaches g (s.window g n) ↔ s.WindowReaches g (s.fwdDblks g n)) ∧
  ¬(s.WindowReaches g (s.fwdDblks g n) ∧ s.OnlyCurrent g ∧
    g.numJfiles ∣ windowEnd g (s.fwdDblks g n))

/-- The loop runs out by itself, and what it leaves answers for the window in 32 bits. -/
theorem run_answers (n : Nat) (hc : s.fcIndex < g.numJfiles) :
    (Probe.run g s (s.fwdDblks g n) ⟨s.fwdDblks g n, s.fcIndex, false⟩).Answers g s
      (s.fwdDblks g n) := by
  rcases Nat.eq_zero_or_pos (s.fwdDblks g n) with h0 | hpos
  · rw [h0]
    constructor
    · simp [Probe.run, Probe.goesOn]
    · constructor
      · intro h
        exact absurd rfl h.1
      · intro h
        obtain ⟨⟨i, -, hi, -⟩, -⟩ := h
        exact absurd hi (Nat.not_lt_zero _)
  · have hat : Probe.At g s (s.fwdDblks g n) 0 ⟨s.fwdDblks g n, s.fcIndex, false⟩ := by
      constructor
      · simp
      · simpa using hpos
      · exact (Nat.mod_eq_of_lt hc).symm
      · constructor
        · intro h
          cases h
        · intro h
          obtain ⟨i, hi, hi0, -⟩ := h
          omega
      · intro i _ hi
        exact absurd hi (Nat.not_lt_zero i)
    exact hat.answers _ hc (Nat.le_refl _)

theorem fwdDblks_le_window (g : Geom) (s : Wmgr) (n : Nat) : s.fwdDblks g n ≤ s.window g n := by
  have hcap : 4 ≤ g.enqCapOffsDblks := by
    have hf : jrnlSblkSize ≤ g.jfsizeDblks :=
      Nat.le_mul_of_pos_left _ (Nat.lt_of_lt_of_le g.pgsize_pos g.pgsize_le)
    exact Nat.le_trans hf (Nat.le_max_right _ _)
  have hw : ∀ a, wrap 32 a = a % 4294967296 := fun _ => rfl
  unfold fwdDblks window wsub jrnlSblkSize
  simp only [hw]
  split <;> omega

theorem enqThreshold_iff (n : Nat) (hc : s.fcIndex < g.numJfiles) :
    s.enqThreshold g n = true ↔ s.WindowReaches g (s.fwdDblks g n) ∧
      ¬(s.OnlyCurrent g ∧ g.numJfiles ∣ windowEnd g (s.fwdDblks g n)) := by
  rw [← (run_answers n hc).iff]
  simp [enqThreshold]

/-- The threshold matches its window just where the window does not end in the current file after
whole rounds of a ring with no other file in use, and 32 bits make no difference. There it is
monotone in the proposed size. -/
theorem thresholdRight_iff (g : Geom) (s : Wmgr) (n : Nat) (hc : s.fcIndex < g.numJfiles) :
    (s.ThresholdRight g n ↔ s.ThresholdExact g n) ∧
      ∀ m, n ≤ m → s.ThresholdExact g n → s.ThresholdExact g m →
        s.enqThreshold g n = true → s.enqThreshold g m = true := by
  have hiff : ∀ k, s.ThresholdRight g k ↔ s.ThresholdExact g k := by
    intro k
    have hends := (run_answers (g := g) k hc).stopped
    have hmono : s.WindowReaches g (s.fwdDblks g k) → s.WindowReaches g (s.window g k) :=
      WindowReaches.mono (fwdDblks_le_window g s k)
    rw [ThresholdRight, ThresholdExact, enqThreshold_iff k hc]
    constructor
    · intro h
      have hiff := h.2
      tauto
    · intro h
      exact ⟨⟨_, hends, rfl⟩, by tauto⟩
  refine ⟨hiff n, ?_⟩
  intro m hm hn hm' ht
  have hr := ((hiff n).mpr hn).2.mp ht
  apply ((hiff m).mpr hm').2.mpr
  apply hr.mono
  unfold window
  omega

def smallRing : Geom :=
  { Sys.fourFiles with
    pgsizeSblks := 16
    pgsize_pos := by decide
    pgsize_le := by decide }

def oneEnqueued : Wmgr :=
  { init smallRing with
    fcntls := Function.update (init smallRing).fcntls 0 { wrSubm := 4, wrCmpl := 4 }
    maps := { (init smallRing).maps with enqCnt := [1, 0, 0, 0] } }

theorem thresholdRight_iff_oneEnqueued :
    (oneEnqueued.ThresholdRight smallRing 100 ↔ oneEnqueued.ThresholdExact smallRing 100) ∧
      ∀ m, 100 ≤ m → oneEnqueued.ThresholdExact smallRing 100 →
        oneEnqueued.ThresholdExact smallRing m →
          oneEnqueued.enqThreshold smallRing 100 = true →
            oneEnqueued.enqThreshold smallRing m = true :=
  thresholdRight_iff smallRing oneEnqueued 100 (by decide)

/-- An enqueue of 1537 dblks would run into the record of file 0 and is let through, and so is one of
3585 dblks where one of 2049 is not. -/
theorem oneEnqueued_not_thresholdRight :
    ¬oneEnqueued.ThresholdRight smallRing 1537 ∧
      oneEnqueued.enqThreshold smallRing 2049 = true ∧
      oneEnqueued.enqThreshold smallRing 3585 = false := by
  have hf : oneEnqueued.enqThreshold smallRing 1537 = false := by decide +kernel
  refine ⟨?_, by decide +kernel, by decide +kernel⟩
  intro h
  have hr : oneEnqueued.WindowReaches smallRing (oneEnqueued.window smallRing 1537) :=
    ⟨4, by decide, by decide, by decide⟩
  rw [h.2.mpr hr] at hf
  exact Bool.noConfusion hf

end Wmgr

end RhmStore
