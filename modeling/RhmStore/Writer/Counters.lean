import RhmStore.Writer.Appends

/-! # Page, file and offset counters

The relation between the counters of the current file, with a page that may be full. -/

namespace RhmStore

namespace Geom

variable (g : Geom)

theorem pgDblks_dvd : jrnlSblkSize ∣ g.pgDblks := ⟨g.pgsizeSblks, Nat.mul_comm _ _⟩

theorem jfsizePgs_pos : 0 < g.jfsizePgs := Nat.div_pos g.pgsize_le g.pgsize_pos

theorem mul_pgDblks_le {k : Nat} (h : k < g.jfsizePgs) : k * g.pgDblks + g.pgDblks ≤ g.fileDblks := by
  have := Nat.mul_le_mul_right g.pgDblks h
  rwa [Nat.succ_mul] at this

theorem ffullDblks_of_dvd (h : g.pgsizeSblks ∣ g.jfsizeSblks) :
    g.ffullDblks = jrnlSblkSize + g.fileDblks := by
  have h1 : g.jfsizeSblks / g.pgsizeSblks * g.pgsizeSblks = g.jfsizeSblks := Nat.div_mul_cancel h
  simp only [ffullDblks, fileDblks, jfsizePgs, pgDblks, ← Nat.mul_assoc, h1]
  unfold jrnlSblkSize
  omega

end Geom

namespace Wmgr

variable {g : Geom} {s₀ s s' : Wmgr} {c : Call}

structure Blank (s : Wmgr) : Prop where
  cached : s.cached = 0
  cntr : s.pgCntr = 0
  offset : s.pgOffset = 0

/-- What is in front of the current position is submitted, or cached in the current page. -/
structure Level (g : Geom) (s : Wmgr) : Prop where
  header : jrnlSblkSize ≤ s.submCntDblks
  aligned : jrnlSblkSize ∣ s.submCntDblks
  sum : s.submCntDblks + s.cached = jrnlSblkSize + s.pgCntr * g.pgDblks + s.pgOffset
  offset : s.pgOffset ≤ g.pgDblks
  cached : s.cached ≤ s.pgOffset
  cntr : s.pgCntr * g.pgDblks + s.pgOffset ≤ g.fileDblks

structure Counts (g : Geom) (s : Wmgr) : Prop where
  blank : s.fresh = false ∨ s.submCntDblks = 0 → s.Blank
  level : s.fresh = true → s.submCntDblks ≠ 0 → s.Level g

theorem Level.of_eq (h : s.Level g) (hn : s'.submCntDblks = s.submCntDblks) (hc : s'.cached = s.cached)
    (hk : s'.pgCntr = s.pgCntr) (ho : s'.pgOffset = s.pgOffset) : s'.Level g := by
  obtain ⟨h1, h2, h3, h4, h5, h6⟩ := h
  constructor <;> simp only [hn, hc, hk, ho] <;> assumption

theorem Counts.of_eq (h : s.Counts g) (hf : s'.fresh = s.fresh)
    (hn : s'.submCntDblks = s.submCntDblks) (hc : s'.cached = s.cached) (hk : s'.pgCntr = s.pgCntr)
    (ho : s'.pgOffset = s.pgOffset) : s'.Counts g where
  blank hb := by
    obtain ⟨h1, h2, h3⟩ := h.blank (by rwa [hf, hn] at hb)
    exact ⟨hc.trans h1, hk.trans h2, ho.trans h3⟩
  level hf' hn' := (h.level (hf ▸ hf') (hn ▸ hn')).of_eq hn hc hk ho

theorem Counts.returned (h : s.Counts g) (hr : s.Returned s') : s'.Counts g :=
  h.of_eq hr.fresh (submCntDblks_returned hr) hr.cached hr.pgCntr hr.pgOffset

theorem Blank.counts (h : s.Blank) (hn : s.fresh = false ∨ s.submCntDblks = 0) : s.Counts g where
  blank _ := h
  level hf h0 := by
    rcases hn with hn | hn
    · rw [hf] at hn
      cases hn
    · exact (h0 hn).elim

theorem Counts.resetTo (h : s.Counts g) (hf : s.fresh = false) {ok : Bool} (hr : s.ResetTo ok s') :
    s'.Counts g ∧ s'.Blank := by
  obtain ⟨h1, h2, h3⟩ := h.blank (Or.inl hf)
  cases hr with
  | held _ => exact ⟨Blank.counts ⟨h1, h2, h3⟩ (Or.inl hf), ⟨h1, h2, h3⟩⟩
  | reset _ _ =>
    refine ⟨Blank.counts ⟨h1, h2, h3⟩ (Or.inr ?_), ⟨h1, h2, h3⟩⟩
    simp [submCntDblks, afterReset]

/-- The ring turns with an empty page. -/
theorem counts_rotatesTo (hc : s.cached = 0) (ho : s.pgOffset = 0) {res : Iores}
    (hr : s.RotatesTo g res s') : s'.Counts g ∧ s'.Blank := by
  have hb : (s.turned g).Blank := ⟨hc, rfl, ho⟩
  cases hr with
  | wait _ => exact ⟨hb.counts (Or.inl rfl), hb⟩
  | full _ => exact ⟨Blank.counts ⟨hc, rfl, ho⟩ (Or.inl rfl), ⟨hc, rfl, ho⟩⟩
  | reset he ha => exact (hb.counts (Or.inl rfl)).resetTo rfl (.reset he ha)

section Encode

variable {op : OpType} {r : JRec} {tok : Nat}

theorem encodeLen_le (g : Geom) (r : JRec) (tok : Nat) (s : Wmgr) :
    s.encodeLen g r tok ≤ g.pgDblks - s.pgOffset := Nat.min_le_right _ _

theorem Level.encoded (h : s.Level g) (hk : s.pgCntr < g.jfsizePgs) (r : JRec) (tok : Nat) :
    (s.encoded g r tok).Level g := by
  obtain ⟨h1, h2, h3, h4, h5, h6⟩ := h
  have hlen := encodeLen_le g r tok s
  have hle := g.mul_pgDblks_le hk
  constructor
  · exact h1
  · exact h2
  · change s.submCntDblks + (s.cached + s.encodeLen g r tok) =
      jrnlSblkSize + s.pgCntr * g.pgDblks + (s.pgOffset + s.encodeLen g r tok)
    omega
  · change s.pgOffset + s.encodeLen g r tok ≤ _
    omega
  · change s.cached + s.encodeLen g r tok ≤ s.pgOffset + s.encodeLen g r tok
    omega
  · change s.pgCntr * g.pgDblks + (s.pgOffset + s.encodeLen g r tok) ≤ _
    omega

/-- The first part that is encoded into a file has the file's header submitted with it. -/
theorem Blank.headered (h : s.Blank) (hn : s.submCntDblks = 0) (g : Geom) (r : JRec) (tok : Nat)
    (hdr : FileHdr) : ((s.encoded g r tok).fhdrSubmitted hdr).Level g := by
  obtain ⟨h1, h2, h3⟩ := h
  have hlen := encodeLen_le g r tok s
  have hle := g.mul_pgDblks_le g.jfsizePgs_pos
  have hn' : ((s.encoded g r tok).fhdrSubmitted hdr).submCntDblks = jrnlSblkSize := by
    have h0 : ((s.encoded g r tok).fcntls (s.encoded g r tok).fcIndex).wrSubm = 0 := hn
    simp [submCntDblks, fhdrSubmitted, h0]
  have hc : ((s.encoded g r tok).fhdrSubmitted hdr).cached = s.encodeLen g r tok := by
    change s.cached + s.encodeLen g r tok = _
    omega
  have ho : ((s.encoded g r tok).fhdrSubmitted hdr).pgOffset = s.encodeLen g r tok := by
    change s.pgOffset + s.encodeLen g r tok = _
    omega
  have hk : ((s.encoded g r tok).fhdrSubmitted hdr).pgCntr = 0 := h2
  rw [Nat.zero_mul] at hle
  constructor <;> simp only [hn', hc, ho, hk, Nat.zero_mul]
  · exact Nat.le_refl _
  · exact Nat.dvd_refl _
  · rfl
  · omega
  · exact Nat.le_refl _
  · omega

theorem Level.counts (h : s.Level g) (hr : s.fresh = true) : s.Counts g where
  blank hb := by
    have h1 := h.header
    have : 0 < jrnlSblkSize := by decide
    rcases hb with hb | hb
    · rw [hr] at hb
      cases hb
    · omega
  level _ _ := h

theorem EncodesTo.counts {done : Bool} (ht : s.EncodesTo g op r tok done s') (h : s.Counts g)
    (hr : s.fresh = true) (hk : s.pgCntr < g.jfsizePgs) (ho : s.pgOffset < g.pgDblks) :
    s'.Level g ∧ s'.pgCntr = s.pgCntr ∧ (s'.pgOffset = g.pgDblks → s'.cached ≠ 0) := by
  have hlen := encodeLen_le g r tok s
  have key : ∀ u : Wmgr, u.HeaderedTo s' → u.fcntls = s.fcntls → u.fcIndex = s.fcIndex →
      u.cached = s.cached + s.encodeLen g r tok → u.pgCntr = s.pgCntr →
      u.pgOffset = s.pgOffset + s.encodeLen g r tok → s'.Level g ∧ s'.pgCntr = s.pgCntr ∧
        (s'.pgOffset = g.pgDblks → s'.cached ≠ 0) := by
    intro u hh h1 h2 h3 h4 h5
    have hn : u.submCntDblks = s.submCntDblks := by rw [submCntDblks, h1, h2, submCntDblks]
    have hfull : u.pgOffset = g.pgDblks → u.cached ≠ 0 := by omega
    cases hh with
    | kept h0 =>
      have hl := h.level hr (hn ▸ h0)
      exact ⟨(hl.encoded hk r tok).of_eq hn h3 h4 h5, h4, hfull⟩
    | written h0 hdr =>
      have h0' : s.submCntDblks = 0 := hn.symm.trans h0
      have hl := (h.blank (Or.inr h0')).headered h0' g r tok hdr
      refine ⟨hl.of_eq ?_ h3 h4 h5, h4, hfull⟩
      simp [submCntDblks, fhdrSubmitted, h1, h2, encoded]
  cases ht with
  | part _ hh => exact key _ hh rfl rfl rfl rfl rfl
  | done _ _ _ _ hh => exact key _ hh rfl rfl rfl rfl rfl

end Encode

section Flush

theorem Level.fill (h : s.Level g) : jrnlSblkSize ∣ s.submCntDblks + (s.cached + s.fillLen) ∧
    s.pgOffset + s.fillLen ≤ g.pgDblks ∧
    s.pgCntr * g.pgDblks + (s.pgOffset + s.fillLen) ≤ g.fileDblks := by
  obtain ⟨h1, h2, h3, h4, h5, h6⟩ := h
  obtain ⟨a, ha⟩ := h2
  obtain ⟨b, hb⟩ := g.pgDblks_dvd
  obtain ⟨k, hk⟩ : jrnlSblkSize ∣ s.pgCntr * g.pgDblks := g.pgDblks_dvd.mul_left _
  obtain ⟨n, hn⟩ : jrnlSblkSize ∣ g.fileDblks := g.pgDblks_dvd.mul_left _
  rw [hk] at h3 h6 ⊢
  rw [hb] at h4 ⊢
  rw [hn] at h6 ⊢
  rw [fillLen, sizeBlks]
  unfold jrnlSblkSize at *
  omega

/-- What the counters say of a page fits into the file. -/
theorem Level.room (h : s.Level g) : s.Room g := by
  have h1 := h.sum
  have h2 := h.fill.2.2
  have h3 := g.fileDblks_le
  change s.submCntDblks + (s.cached + s.fillLen) ≤ _
  omega

theorem Level.pageSubmitted (h : s.Level g) : (s.pageSubmitted g).Level g ∧
    (s.pageSubmitted g).pgOffset < g.pgDblks := by
  obtain ⟨h1, h2, h3⟩ := h.fill
  have h4 := h.sum
  have h5 := h.header
  have hpos := g.pgDblks_pos
  have hn : (s.pageSubmitted g).submCntDblks = s.submCntDblks + (s.cached + s.fillLen) := by
    simp [submCntDblks, Wmgr.pageSubmitted, rounded, fillLen]
  by_cases hq : g.pgDblks ≤ s.pgOffset + s.fillLen
  · have ho : (s.pageSubmitted g).pgOffset = 0 := if_pos hq
    have hk : (s.pageSubmitted g).pgCntr = s.pgCntr + 1 := if_pos hq
    refine ⟨?_, ho ▸ hpos⟩
    constructor <;> simp only [hn, ho, hk, show (s.pageSubmitted g).cached = 0 from rfl, Nat.succ_mul]
    · omega
    · exact h1
    · omega
    · exact Nat.zero_le _
    · exact Nat.le_refl _
    · omega
  · have ho : (s.pageSubmitted g).pgOffset = s.pgOffset + s.fillLen := if_neg hq
    have hk : (s.pageSubmitted g).pgCntr = s.pgCntr := if_neg hq
    refine ⟨?_, by omega⟩
    constructor <;> simp only [hn, ho, hk, show (s.pageSubmitted g).cached = 0 from rfl]
    · omega
    · exact h1
    · omega
    · exact h2
    · exact Nat.zero_le _
    · exact h3

/-- Behind a flush, the page is not full. -/
theorem Counts.flushed (h : s.Counts g) (ha : s.Appends s₀) (hq : s.pgOffset = g.pgDblks → s.cached ≠ 0)
    (hk : s.pgCntr < g.jfsizePgs) : (s.flushed g).Counts g ∧ (s.flushed g).pgOffset < g.pgDblks ∧
      (s.flushed g).pgCntr * g.pgDblks ≤ g.fileDblks := by
  rw [Wmgr.flushed]
  split
  · rename_i h0
    have hle := g.mul_pgDblks_le hk
    refine ⟨h, ?_, by omega⟩
    by_cases hn : s.fresh = true ∧ s.submCntDblks ≠ 0
    · have := (h.level hn.1 hn.2).offset
      omega
    · have hb : s.fresh = false ∨ s.submCntDblks = 0 := by
        rw [not_and_or, not_not, Bool.not_eq_true] at hn
        exact hn
      rw [(h.blank hb).offset]
      exact g.pgDblks_pos
  · rename_i h0
    have hr := fresh_of_cached ha h0
    obtain ⟨hl, hlt⟩ := (h.level hr fun hn => h0 (ha.empty hn)).pageSubmitted
    have ht := returned_taken (s := s.pageSubmitted g)
    refine ⟨(hl.counts hr).returned ht, ht.pgOffset.symm ▸ hlt, ?_⟩
    rw [ht.pgCntr]
    exact Nat.le_trans (Nat.le_add_right _ _) hl.cntr

/-- The ring turns when the pages of a file are written, all of them. -/
theorem Counts.full (h : s.Counts g) (hc : s.cached = 0) (hk : g.jfsizePgs ≤ s.pgCntr) :
    s.fresh = true ∧ s.pgCntr * g.pgDblks = g.fileDblks ∧ s.pgOffset = 0 ∧
      s.submCntDblks = jrnlSblkSize + g.fileDblks := by
  have hpos := g.jfsizePgs_pos
  have hn : s.fresh = true ∧ s.submCntDblks ≠ 0 := by
    by_contra hn
    rw [not_and_or, not_not, Bool.not_eq_true] at hn
    have := (h.blank hn).cntr
    omega
  have hl := h.level hn.1 hn.2
  have h1 := hl.cntr
  have h2 := hl.sum
  have h3 : g.fileDblks ≤ s.pgCntr * g.pgDblks := Nat.mul_le_mul_right _ hk
  exact ⟨hn.1, by omega, by omega, by omega⟩

theorem Counts.turnsTo (h : s.Counts g) (hc : s.cached = 0) (ho : s.pgOffset < g.pgDblks)
    (ht : s.TurnsTo g s') : s'.Counts g ∧ s'.pgCntr < g.jfsizePgs ∧ s'.pgOffset < g.pgDblks := by
  cases ht with
  | stay hk => exact ⟨h, hk, ho⟩
  | turn hk hr =>
    obtain ⟨-, -, h0, -⟩ := h.full hc hk
    obtain ⟨h1, h2⟩ := counts_rotatesTo hc h0 hr
    exact ⟨h1, h2.cntr ▸ g.jfsizePgs_pos, h2.offset ▸ g.pgDblks_pos⟩

end Flush

end Wmgr

end RhmStore
