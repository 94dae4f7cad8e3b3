import RhmStore.Writer.Contents
import RhmStore.Writer.Fresh

/-! # Page, file and offset counters stay in step -/

namespace RhmStore

/-- What a recovery finds: the end of the last file is the end of an sblk, behind its header. -/
structure Wmgr.Rcvdat.Aligned (g : Geom) (rd : Rcvdat) : Prop where
  lfid : rd.lfid < g.numJfiles
  empty : rd.jempty = true → rd.lffull = false
  eo : rd.jempty = false → jrnlSblkSize ∣ rd.eoDblks ∧ jrnlSblkSize ≤ rd.eoDblks ∧
    rd.eoDblks ≤ g.ffullDblks
  full : rd.jempty = false → (rd.lffull = true ↔ rd.eoDblks = g.ffullDblks)

namespace Sys

variable {g : Geom} {s s' : Sys} {s₀ : Wmgr} {c : Call} {evs : List Nat}

inductive AlignedStart (g : Geom) : Sys → Prop
  | init : AlignedStart g (init g)
  | recovered (rd : Wmgr.Rcvdat) (h : rd.Aligned g) : AlignedStart g (recovered g rd)

theorem AlignedStart.start (h : s.AlignedStart g) : s.Start g := by
  cases h with
  | init => exact .init
  | recovered rd h => exact .recovered rd h.lfid

def CountsAt (g : Geom) (s : Sys) : Prop :=
  match s.ctl with
  | .check .. => s.w.pgOffset = g.pgDblks → s.w.cached ≠ 0
  | .encode .. => s.w.pgOffset < g.pgDblks
  | .idle => s.w.pgOffset < g.pgDblks
  | .pageWait _ => s.w.pgOffset < g.pgDblks
  | .fileWait _ => s.w.pgOffset < g.pgDblks
  | .failed => s.w.pgOffset < g.pgDblks

structure Counts (g : Geom) (s : Sys) (s₀ : Wmgr) : Prop where
  counts : s.w.Counts g
  contents : s.w.Contents g s₀
  follows : s.w.Follows s₀
  cntr : s.w.pgCntr < g.jfsizePgs
  offset : s.CountsAt g

theorem counts_of_inPage (h : s.w.InPage g s₀) (hf : s.w.Follows s₀)
    (hc : ∀ c r cont done, s.ctl ≠ .check c r cont done) : s.Counts g s₀ := by
  refine ⟨h.counts, h.contents, hf, h.cntr, ?_⟩
  have ho := h.offset
  rw [CountsAt]
  cases hs : s.ctl with
  | check c r cont done => exact (hc c r cont done hs).elim
  | _ => exact ho

theorem Counts.inPage (h : s.Counts g s₀) (hc : ∀ c r cont done, s.ctl ≠ .check c r cont done) :
    s.w.InPage g s₀ := by
  refine ⟨h.counts, h.contents, h.cntr, ?_⟩
  have ho := h.offset
  rw [CountsAt] at ho
  cases hs : s.ctl with
  | check c r cont done => exact (hc c r cont done hs).elim
  | _ => simpa only [hs] using ho

/-- What a record's last part completes is taken by the maps, or it is no end of a transaction and stays
in its page, behind the file's header; and no flush turns the ring to a file with outstanding writes. -/
def Taken (g : Geom) (s : Sys) : Act → Prop
  | .step _ => match s.ctl with
    | .encode c r _ => r.recSizeDblks ≤ s.w.dblksAfter g r c.tok →
        ((∃ m, Maps.complete (s.w.headFid c.tok) r s.w.maps = .ok () m) ∧
          ∀ xid ∈ r.endXid, xid ∉ s.w.txnPending) ∨
        r.endXid = none ∧ s.w.submCntDblks ≠ 0 ∧ s.w.pgOffset + s.w.encodeLen g r c.tok < g.pgDblks
    | _ => True
  | .flush evs => ¬s.w.TurnsBusy g evs
  | _ => True

instance decidableTaken : (a : Act) → Decidable (s.Taken g a)
  | .token _ _ => isTrue trivial
  | .step _ => match hc : s.ctl with
    | .idle => isTrue (by simp only [Taken, hc])
    | .failed => isTrue (by simp only [Taken, hc])
    | .encode c r _ => decidable_of_iff (r.recSizeDblks ≤ s.w.dblksAfter g r c.tok →
        ((∃ m, Maps.complete (s.w.headFid c.tok) r s.w.maps = .ok () m) ∧
          ∀ xid ∈ r.endXid, xid ∉ s.w.txnPending) ∨
        r.endXid = none ∧ s.w.submCntDblks ≠ 0 ∧
          s.w.pgOffset + s.w.encodeLen g r c.tok < g.pgDblks) (by simp only [Taken, hc])
    | .check .. => isTrue (by simp only [Taken, hc])
    | .pageWait _ => isTrue (by simp only [Taken, hc])
    | .fileWait _ => isTrue (by simp only [Taken, hc])
  | .flush evs => decidableFair (.flush evs)
  | .call _ => isTrue trivial
  | .collect _ => isTrue trivial

theorem Taken.fair {a : Act} (h : s.Taken g a) : s.Fair g a := by
  cases a with
  | step evs =>
    rw [Taken] at h
    rw [Fair]
    cases hs : s.ctl with
    | encode c r cont =>
      simp only [hs] at h ⊢
      intro h0 hd
      rcases h hd with h | ⟨-, hn, -⟩
      · exact h
      · exact (hn h0).elim
    | _ => trivial
  | flush evs => exact h
  | token tok t => trivial
  | call c => trivial
  | collect evs => trivial

theorem Counts.room (h : s.Counts g s₀) (ha : s.Appends s₀) (h0 : s.w.cached ≠ 0) : s.w.Room g :=
  (h.counts.level (Wmgr.fresh_of_cached ha.w h0) fun hn => h0 (ha.w.empty hn)).room

/-- Neither the files nor the end of a transaction throw. -/
theorem Counts.clear {a : Act} (h : s.Counts g s₀) (ha : s.Appends s₀) (hc : s.Taken g a) :
    s.Clear g a := by
  cases a with
  | step evs =>
    have hctl := ha.ctl
    rw [Taken] at hc
    rw [FreshAt] at hctl
    rw [Clear]
    cases hs : s.ctl with
    | encode c r cont =>
      simp only [hs] at hc ⊢
      intro hx hd
      rcases hc hd with hc | ⟨hn, -, -⟩
      · exact hc
      · exact (hx hn).elim
    | check c r cont done =>
      simp only [hs] at hctl ⊢
      exact fun _ => (h.counts.level hctl.1.1 hctl.2).room
    | _ => trivial
  | flush evs => exact h.room ha
  | token tok t => trivial
  | call c => trivial
  | collect evs => trivial

theorem EntersTo.counts (ht : s.EntersTo g c s')
    (h : (s.w.Appends s₀ ∧ s.w.Follows s₀ ∧ s.w.resetOk = s.w.fresh) ∧ s.w.InPage g s₀) :
    s'.Counts g s₀ := by
  have hent := Wmgr.wp_enter (g := g) (c := c) Wmgr.unentered_inPage h
  cases ht with
  | encode he =>
    have ha := (wp_of_ok hent he).inv
    exact counts_of_inPage ha.2 ha.1.2.1 (by rintro _ _ _ _ ⟨⟩)
  | wait he =>
    have ha := (wp_of_ok hent he).1.inv
    exact counts_of_inPage ha.2 ha.1.2.1 (by rintro _ _ _ _ ⟨⟩)
  | done he =>
    have ha := (wp_of_ok hent he).1.inv
    exact counts_of_inPage ha.2 ha.1.2.1 (by rintro _ _ _ _ ⟨⟩)
  | assert he =>
    have ha := (wp_of_error hent he).inv
    exact counts_of_inPage ha.2 ha.1.2.1 (by rintro _ _ _ _ ⟨⟩)
  | refused he =>
    have ha := (wp_of_error hent he).inv
    exact counts_of_inPage ha.2 ha.1.2.1 (by rintro _ _ _ _ ⟨⟩)

theorem Counts.cached_le (h : s.Counts g s₀) : s.w.cached ≤ s.w.pgOffset := by
  by_cases hn : s.w.fresh = true ∧ s.w.submCntDblks ≠ 0
  · exact (h.counts.level hn.1 hn.2).cached
  · rw [not_and_or, not_not, Bool.not_eq_true] at hn
    rw [(h.counts.blank hn).cached]
    exact Nat.zero_le _

theorem ProceedsTo.counts (ht : s.ProceedsTo g evs s') (h : s.Counts g s₀) (ha : s.Appends s₀)
    (hst : s.Steady g) (hc : s.Taken g (.step evs)) : s'.Counts g s₀ := by
  have hctl := ha.ctl
  have hoff := h.offset
  have hclear := h.clear ha hc
  cases ht with
  | encoded hs he =>
    simp only [FreshAt, CountsAt, hs] at hctl hoff
    obtain ⟨hfr, -, hp⟩ := hctl
    have hto := wp_of_ok (Wmgr.wp_encodePart_to _) he
    obtain ⟨-, h2, -, h4, -⟩ := hto.appends ha.w h.follows hfr hp
    obtain ⟨h5, h6, h7⟩ := hto.counts h.counts hfr h.cntr hoff
    refine ⟨h5.counts h4, hto.contents h.contents ha.w.toSends h.cached_le, h2, ?_, h7⟩
    exact h6.trans_lt h.cntr
  | encodeFailed hs he =>
    simp only [FreshAt, Taken, hs] at hctl hc
    have hin := h.inPage (by rw [hs]; rintro _ _ _ _ ⟨⟩)
    obtain ⟨h1, h2⟩ := (wp_of_error (Wmgr.wp_encodePart_to _) he).inPage hin h.follows hctl.1 hc
    exact counts_of_inPage h1 h2 (by rintro _ _ _ _ ⟨⟩)
  | checked hs he =>
    simp only [FreshAt, CountsAt, hs] at hctl hoff
    obtain ⟨⟨hfr, hok, hp⟩, -⟩ := hctl
    have hto := wp_of_ok (ha.w.wp_flushCheck _ _ evs) he
    obtain ⟨-, h2, -⟩ := hto.appends ha.w h.follows hfr hok hp
    exact counts_of_inPage (hto.inPage ha.w h.follows h.counts h.contents h.cntr hoff) h2
      (by rintro _ _ _ _ ⟨⟩)
  | left hs he =>
    simp only [FreshAt, CountsAt, hs] at hctl hoff
    obtain ⟨⟨hfr, hok, hp⟩, -⟩ := hctl
    have hto := wp_of_ok (ha.w.wp_flushCheck _ _ evs) he
    obtain ⟨h1, h2, -⟩ := hto.appends ha.w h.follows hfr hok hp
    have hin := hto.inPage ha.w h.follows h.counts h.contents h.cntr hoff
    rename_i c r cont done cont' res w
    have hrel : (released c w).InPage g s₀ ∧ (released c w).Follows s₀ := by
      refine ⟨?_, (released_appends h1 h2).2.1⟩
      rw [released]
      split
      · exact hin.of_eq rfl rfl rfl rfl rfl rfl rfl rfl rfl rfl
      · exact hin
    have hw : (handle c res (released c w)).w = released c w := by cases res <;> rfl
    refine counts_of_inPage (by rw [hw]; exact hrel.1) (by rw [hw]; exact hrel.2) fun _ _ _ _ hn => ?_
    cases res <;> cases hn
  | checkFailed hs he =>
    simp only [FreshAt, hs] at hctl
    obtain ⟨-, hroom, -⟩ := wp_of_error (Wmgr.wp_flushCheck_steady hst.w _ _ evs) he
    exact (hroom (h.counts.level hctl.1.1 hctl.2).room).elim
  | pageFree hs hp he =>
    simp only [FreshAt, hs] at hctl
    exact he.counts ⟨⟨ha.w, h.follows, hctl⟩, h.inPage (by rw [hs]; rintro _ _ _ _ ⟨⟩)⟩
  | fileFree hs hz hr hp he =>
    simp only [FreshAt, hs] at hctl
    have hto := wp_of_ok (Wmgr.wp_wrReset_to fun _ _ => False) hr
    exact he.counts ⟨ha.w.resetTo hctl.1 hto,
      (h.inPage (by rw [hs]; rintro _ _ _ _ ⟨⟩)).resetTo hctl.1 hto⟩
  | fileDone hs hz hr hp =>
    simp only [FreshAt, hs] at hctl
    have hto := wp_of_ok (Wmgr.wp_wrReset_to fun _ _ => False) hr
    exact counts_of_inPage ((h.inPage (by rw [hs]; rintro _ _ _ _ ⟨⟩)).resetTo hctl.1 hto)
      (ha.w.resetTo hctl.1 hto).2.1 (by rintro _ _ _ _ ⟨⟩)
  | waits hs he =>
    have hr := wp_of_ok (Wmgr.returns_getEvents evs s.w) he
    have hne : ∀ c r cont done, s.ctl ≠ .check c r cont done := by
      rcases hs with ⟨hs, -⟩ | ⟨hs, -⟩ <;> rw [hs] <;> rintro _ _ _ _ ⟨⟩
    exact counts_of_inPage ((h.inPage hne).returned hr) (h.follows.returned hr) hne
  | waitFailed hs he => exact (wp_of_error (Wmgr.wp_getEvents_steady hst.w evs) he).elim

theorem StepsTo.counts {a : Act} (ht : s.StepsTo g a s') (h : s.Counts g s₀) (ha : s.Appends s₀)
    (hst : s.Steady g) (hc : s.Taken g a) : s'.Counts g s₀ := by
  have hctl := ha.ctl
  have hrest : s.ctl = .idle ∨ s.ctl = .failed →
      (∀ c r cont done, s.ctl ≠ .check c r cont done) ∧ s.w.resetOk = s.w.fresh := by
    rintro (hs | hs) <;> simp only [FreshAt, hs] at hctl ⊢ <;>
      exact ⟨(by rintro _ _ _ _ ⟨⟩), hctl⟩
  cases ht with
  | token hs _ _ =>
    obtain ⟨hne, -⟩ := hrest (Or.inl hs)
    exact counts_of_inPage ((h.inPage hne).of_eq rfl rfl rfl rfl rfl rfl rfl rfl rfl rfl) h.follows hne
  | call hs _ he =>
    obtain ⟨hne, hok⟩ := hrest (Or.inl hs)
    exact he.counts ⟨⟨ha.w, h.follows, hok⟩, h.inPage hne⟩
  | step he => exact he.counts h ha hst hc
  | collected hs he =>
    obtain ⟨hne, -⟩ := hrest hs
    have hr := wp_of_ok (Wmgr.returns_getEvents _ s.w) he
    exact counts_of_inPage ((h.inPage hne).returned hr) (h.follows.returned hr) hne
  | collectFailed hs he => exact (wp_of_error (Wmgr.wp_getEvents_steady hst.w _) he).elim
  | flushed hs he =>
    obtain ⟨hne, hok⟩ := hrest hs
    obtain ⟨t, ht, hto⟩ := wp_of_ok (ha.w.wp_flush _) he
    have hin := h.inPage hne
    refine counts_of_inPage (ht.inPage ha.w h.follows h.counts h.contents h.cntr (fun hq => ?_) hto)
      ((ht.turnsTo ha.w hok hc hto).2.1 h.follows) hne
    exact (Nat.ne_of_lt hin.offset hq).elim
  | flushFailed hs he =>
    obtain ⟨h0, hroom, -⟩ := wp_of_error (Wmgr.wp_flush_steady hst.w _) he
    exact (hroom (h.clear ha hc h0)).elim

end Sys

namespace Wmgr

variable {g : Geom} {s₀ s : Wmgr}

theorem contents_self (hs : s.subm = []) (hc : s.cached = 0) (hx : s.fcIndex = s.rot % g.numJfiles) :
    s.Contents g s where
  index := hx
  sent := by simp [hs]
  earlier r h1 h2 := by omega
  content := by simp [hs]
  buffer i hi := by omega

theorem index_resumed {rd : Rcvdat} (h : rd.lfid < g.numJfiles) :
    (resumed g rd).fcIndex = (resumed g rd).rot % g.numJfiles := by
  change rd.lfid = (g.numJfiles + rd.lfid) % g.numJfiles
  rw [Nat.add_mod_left, Nat.mod_eq_of_lt h]

theorem resumed_inPage (hg : g.pgsizeSblks ∣ g.jfsizeSblks) {rd : Rcvdat} (h : rd.Aligned g)
    (hl : rd.lffull = false) : (resumed g rd).InPage g (resumed g rd) := by
  have hcontents := contents_self (g := g) (s := resumed g rd) rfl rfl (index_resumed h.lfid)
  have hpos := g.pgDblks_pos
  cases hj : rd.jempty with
  | true =>
    have hk : (resumed g rd).pgCntr = 0 := by simp [resumed, hj]
    have ho : (resumed g rd).pgOffset = 0 := by simp [resumed, hj]
    have hn : (resumed g rd).submCntDblks = 0 := by simp [submCntDblks, resumed, Rcvdat.fcntl, hj]
    exact ⟨Blank.counts ⟨rfl, hk, ho⟩ (Or.inr hn), hcontents, hk ▸ g.jfsizePgs_pos, ho ▸ hpos⟩
  | false =>
    obtain ⟨h1, h2, h3⟩ := h.eo hj
    have h4 : rd.eoDblks ≠ g.ffullDblks := fun he => by
      rw [(h.full hj).mpr he] at hl
      cases hl
    have hk : (resumed g rd).pgCntr = (rd.eoDblks - jrnlSblkSize) / g.pgDblks := by simp [resumed, hj, hl]
    have ho : (resumed g rd).pgOffset = rd.eoDblks - jrnlSblkSize -
        (rd.eoDblks - jrnlSblkSize) / g.pgDblks * g.pgDblks := by simp [resumed, hj, hl]
    have hn : (resumed g rd).submCntDblks = rd.eoDblks := by
      simp [submCntDblks, resumed, Rcvdat.fcntl, hj]
    have hle := Nat.div_mul_le_self (rd.eoDblks - jrnlSblkSize) g.pgDblks
    have hlt := Nat.lt_div_mul_add hpos (a := rd.eoDblks - jrnlSblkSize)
    have hfull := g.ffullDblks_of_dvd hg
    have hcntr : (resumed g rd).pgCntr < g.jfsizePgs := by
      rw [hk]
      apply (Nat.div_lt_iff_lt_mul hpos).mpr
      change _ < g.fileDblks
      omega
    have hlevel : (resumed g rd).Level g := by
      constructor <;> simp only [hn, hk, ho, show (resumed g rd).cached = 0 from rfl]
      · exact h2
      · exact h1
      · omega
      · omega
      · exact Nat.zero_le _
      · omega
    exact ⟨hlevel.counts rfl, hcontents, hcntr, by omega⟩

/-- A recovery behind a full file begins the next one. -/
theorem recovered_inPage (hg : g.pgsizeSblks ∣ g.jfsizeSblks) {rd : Rcvdat} (h : rd.Aligned g) :
    (recovered g rd).InPage g (recovered g rd) := by
  cases hl : rd.lffull with
  | false =>
    rw [recovered, hl]
    exact resumed_inPage hg h hl
  | true =>
    obtain ⟨res, hw⟩ := recovered_full_to g hl
    have ho : (resumed g rd).pgOffset = 0 := by simp [resumed, hl]
    obtain ⟨h1, h2⟩ := counts_rotatesTo rfl ho hw
    have hx := index_turned (index_resumed (g := g) h.lfid)
    have hsame : (recovered g rd).subm = [] ∧
        (recovered g rd).fcIndex = (recovered g rd).rot % g.numJfiles := by
      revert hw
      generalize recovered g rd = w
      intro hw
      cases hw <;> exact ⟨rfl, hx⟩
    exact ⟨h1, contents_self hsame.1 h2.cached hsame.2, h2.cntr ▸ g.jfsizePgs_pos, h2.offset ▸ g.pgDblks_pos⟩

/-- The counters of the current file as they are between two steps. -/
structure InStep (g : Geom) (s : Wmgr) : Prop where
  empty : s.submCntDblks = 0 → s.cached = 0 ∧ s.pgCntr = 0 ∧ s.pgOffset = 0
  level : s.submCntDblks ≠ 0 → s.submCntDblks - jrnlSblkSize + s.cached =
    s.pgCntr * g.pgDblks + s.pgOffset ∧ s.pgOffset < g.pgDblks ∧ s.pgCntr < g.jfsizePgs

/-- Since the start `s₀`, the writes of each turn of the ring lie end to end in its file, to the end of it but
for the last one, and what is encoded is in them or in the page, each dblk at its position. -/
structure WrittenOnce (g : Geom) (s s₀ : Wmgr) : Prop where
  sent : ∀ w ∈ s.subm, w.fid = w.inst % g.numJfiles ∧ s₀.rot ≤ w.inst ∧ w.inst ≤ s.rot ∧
    0 < w.dblks ∧ (w.page = none ↔ w.offs = 0)
  earlier : ∀ r, s₀.rot ≤ r → r < s.rot →
    Tiles Write.offs Write.dblks (s₀.base r) (s.writesOf r) g.ffullDblks
  current : s.fresh = true →
    Tiles Write.offs Write.dblks (s₀.base s.rot) (s.writesOf s.rot) s.submCntDblks
  content : ∀ w ∈ s.subm, w.page ≠ none → ∀ i < w.dblks, w.content i = s.tape (w.lin g + i)
  buffer : ∀ i < s.cached,
    (s.pages s.pgIndex).buff (s.pgOffset - s.cached + i) = s.tape (s.pos g - s.cached + i)

end Wmgr

namespace Sys

variable {g : Geom} {s s' : Sys} {s₀ : Wmgr}

theorem AlignedStart.counts (hg : g.pgsizeSblks ∣ g.jfsizeSblks) (h : s.AlignedStart g) :
    s.Counts g s.w := by
  have hf := h.start.appends.follows
  cases h with
  | init =>
    have hc := Wmgr.contents_self (g := g) (s := Wmgr.init g) rfl rfl (Nat.zero_mod _).symm
    exact counts_of_inPage ⟨Wmgr.Blank.counts ⟨rfl, rfl, rfl⟩ (Or.inl rfl), hc, g.jfsizePgs_pos,
      g.pgDblks_pos⟩ (hf (by rintro ⟨⟩)) (by rintro _ _ _ _ ⟨⟩)
  | recovered rd h =>
    exact counts_of_inPage (Wmgr.recovered_inPage hg h) (hf (by rintro ⟨⟩)) (by rintro _ _ _ _ ⟨⟩)

/-- The counters of a file that was reset are in step, what is encoded is written once, a file is left when it
is full, and no file throws. -/
structure InStep (g : Geom) (s : Sys) (s₀ : Wmgr) : Prop where
  counters : s.w.fresh = true → (∀ c r cont done, s.ctl ≠ .check c r cont done) → s.w.InStep g
  written : s.w.WrittenOnce g s₀
  notFull : s.w.fresh = true → (∀ c r cont done, s.ctl ≠ .check c r cont done) →
    s.w.submCntDblks < g.ffullDblks
  flush : ∀ evs, ∃ res w, Wmgr.flush g evs s.w = .ok res w
  check : ∀ c r cont done evs, s.ctl = .check c r cont done →
    ∃ x w, Wmgr.flushCheck g cont done evs s.w = .ok x w

theorem Counts.inStep (hg : g.pgsizeSblks ∣ g.jfsizeSblks) (h : s.Counts g s₀) (ha : s.Appends s₀)
    (hst : s.Steady g) : s.InStep g s₀ := by
  have hfull := g.ffullDblks_of_dvd hg
  constructor
  · intro hr hc
    refine ⟨fun hn => ?_, fun hn => ?_⟩
    · obtain ⟨h1, h2, h3⟩ := h.counts.blank (Or.inr hn)
      exact ⟨h1, h2, h3⟩
    · have hl := h.counts.level hr hn
      have h1 := hl.sum
      have h2 := hl.header
      exact ⟨by omega, (h.inPage hc).offset, h.cntr⟩
  · refine ⟨fun w hw => ?_, hfull ▸ h.contents.earlier, h.follows,
      fun w hw hp => (h.contents.content w hw hp).2, h.contents.buffer⟩
    obtain ⟨h1, h2, h3, h4⟩ := h.contents.sent w hw
    exact ⟨h1, h2, ha.w.inst w hw, h3, h4⟩
  · intro hr hc
    by_cases hn : s.w.submCntDblks = 0
    · rw [hn, hfull]
      exact Nat.add_pos_left (by decide) _
    · have h1 := (h.counts.level hr hn).sum
      have h2 := g.mul_pgDblks_le h.cntr
      have h3 := (h.inPage hc).offset
      omega
  · intro evs
    exact ok_of_wp (wp_mono (Wmgr.wp_flush_steady hst.w evs) (fun _ _ h => h)
      fun _ _ he => he.2.1 (h.room ha he.1))
  · intro c r cont done evs hs
    have hctl := ha.ctl
    simp only [FreshAt, hs] at hctl
    exact ok_of_wp (wp_mono (Wmgr.wp_flushCheck_steady hst.w cont done evs) (fun _ _ h => h)
      fun _ _ he => he.2.1 (h.counts.level hctl.1.1 hctl.2).room)

/-- Every run keeps the counters in step. -/
theorem run_inStep (hg : g.pgsizeSblks ∣ g.jfsizeSblks) (hs : s.AlignedStart g) {acts : List Act}
    (hc : s.Along g (Taken g) acts) (hr : s.run g acts = some s') : s'.InStep g s.w := by
  have h : s'.Counts g s.w ∧ s'.Appends s.w ∧ s'.InOrder g ∧ s'.Steady g := by
    apply run_preserves (J := fun t => t.Counts g s.w ∧ t.Appends s.w ∧ t.InOrder g ∧ t.Steady g) _
      ⟨hs.counts hg, hs.start.appends, hs.start.inOrder, hs.start.steady⟩ hc hr
    intro t a u ht htaken hu
    obtain ⟨h1, h2, h3, h4⟩ := ht
    exact ⟨hu.counts h1 h2 h4 htaken, hu.appends h2 h3 htaken.fair, hu.inOrder h3,
      hu.steady h4 fun _ => h1.clear h2 htaken⟩
  exact h.1.inStep hg h.2.1 h.2.2.2

theorem commitRun_inStep : ∃ s, (init fourFiles).run fourFiles commitRun = some s ∧
    s.InStep fourFiles (init fourFiles).w ∧ s.w.submCntDblks = 8 := by
  have hc : (init fourFiles).Along fourFiles (Taken fourFiles) commitRun := by decide +kernel
  have hr : ((init fourFiles).run fourFiles commitRun).map (fun s => s.w.submCntDblks) = some 8 := by
    decide +kernel
  obtain ⟨s, hs, hl⟩ := Option.map_eq_some_iff.mp hr
  exact ⟨s, hs, run_inStep (by decide) .init hc hs, hl⟩

/-- A transaction enqueues a record and dequeues it twice, which fills file 0. Its commit, the first record in
file 1, is refused by the maps. -/
def refusedRun : List Act :=
  [.call (.enqueue 0 65200 65200 [1] false false), .step [], .step [], .step [], .step [],
    .token 1 { wstate := .enq }, .token 2 { wstate := .enq },
    .call (.dequeue 1 [1] false), .step [], .step [], .call (.dequeue 2 [1] false), .step [], .step [],
    .call (.commit 3 [1]), .step []]

theorem refusedRun_not_inStep : ¬ ∀ (g : Geom) (s s' : Sys) (acts : List Act),
    g.pgsizeSblks ∣ g.jfsizeSblks → s.AlignedStart g → s.run g acts = some s' → s'.InStep g s.w := by
  intro h
  have hr : ((init fourFiles).run fourFiles refusedRun).map (fun s => (s.ctl, s.w.fresh,
      s.w.submCntDblks, s.w.cached)) = some (.failed, true, 0, 1) := by decide +kernel
  obtain ⟨s, hs, he⟩ := Option.map_eq_some_iff.mp hr
  simp only [Prod.mk.injEq] at he
  obtain ⟨hctl, hfr, hn, hc⟩ := he
  have hin := (h fourFiles _ s refusedRun (by decide) .init hs).counters hfr
    (by rw [hctl]; rintro _ _ _ _ ⟨⟩)
  have h0 := (hin.empty hn).1
  rw [hc] at h0
  cases h0

end Sys

end RhmStore
