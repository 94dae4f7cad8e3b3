import RhmStore.Writer.Counters

/-! # What is written is what was encoded

Positions count the dblks of all files entered so far, without their headers. -/

namespace RhmStore

/-- Position of the first dblk of a page's write. -/
def Write.lin (g : Geom) (w : Write) : Nat := w.inst * g.fileDblks + (w.offs - jrnlSblkSize)

namespace Wmgr

variable {g : Geom} {s₀ s s' : Wmgr} {c : Call}

/-- Every write is in the file of its turn of the ring, the files of earlier turns are written to their ends,
and pages hold what was encoded. -/
structure Contents (g : Geom) (s s₀ : Wmgr) : Prop where
  index : s.fcIndex = s.rot % g.numJfiles
  sent : ∀ w ∈ s.subm, w.fid = w.inst % g.numJfiles ∧ s₀.rot ≤ w.inst ∧ 0 < w.dblks ∧
    (w.page = none ↔ w.offs = 0)
  earlier : ∀ r, s₀.rot ≤ r → r < s.rot → Tiles Write.offs Write.dblks (s₀.base r) (s.writesOf r)
    (jrnlSblkSize + g.fileDblks)
  content : ∀ w ∈ s.subm, w.page ≠ none → w.lin g + w.dblks + s.cached ≤ s.pos g ∧
    ∀ i < w.dblks, w.content i = s.tape (w.lin g + i)
  buffer : ∀ i < s.cached,
    (s.pages s.pgIndex).buff (s.pgOffset - s.cached + i) = s.tape (s.pos g - s.cached + i)

theorem Contents.of_eq (h : s.Contents g s₀) (hx : s'.fcIndex = s.fcIndex) (hr : s'.rot = s.rot)
    (hs : s'.subm = s.subm) (ht : s'.tape = s.tape) (hc : s'.cached = s.cached)
    (hk : s'.pgCntr = s.pgCntr) (ho : s'.pgOffset = s.pgOffset)
    (hb : (s'.pages s'.pgIndex).buff = (s.pages s.pgIndex).buff) : s'.Contents g s₀ := by
  obtain ⟨h1, h2, h3, h4, h5⟩ := h
  have hp : s'.pos g = s.pos g := by rw [pos, hr, hk, ho, pos]
  constructor
  · rwa [hx, hr]
  · rwa [hs]
  · intro r hr₀ hlt
    rw [writesOf, hs]
    exact h3 r hr₀ (hr ▸ hlt)
  · rwa [hs, hc, hp, ht]
  · rwa [hc, hb, ho, ht, hp]

theorem Contents.returned (h : s.Contents g s₀) (hr : s.Returned s') : s'.Contents g s₀ :=
  h.of_eq hr.fcIndex hr.rot hr.subm hr.tape hr.cached hr.pgCntr hr.pgOffset
    (by rw [hr.pgIndex, hr.buff])

theorem Contents.resetTo (h : s.Contents g s₀) {ok : Bool} (hr : s.ResetTo ok s') :
    s'.Contents g s₀ := by
  cases hr <;> exact h.of_eq rfl rfl rfl rfl rfl rfl rfl rfl

theorem index_turned (h : s.fcIndex = s.rot % g.numJfiles) :
    (s.turned g).fcIndex = (s.turned g).rot % g.numJfiles := by
  change (if s.fcIndex + 1 = g.numJfiles then 0 else s.fcIndex + 1) = (s.rot + 1) % g.numJfiles
  have hlt := Nat.mod_lt s.rot g.numJfiles_pos
  rw [h, ← Nat.mod_add_mod]
  split
  · rename_i he
    rw [he, Nat.mod_self]
  · exact (Nat.mod_eq_of_lt (by omega)).symm

/-- The next file goes on where the one before ends. -/
theorem Contents.turned (h : s.Contents g s₀) (hf : s.Follows s₀) (hn : s.Counts g)
    (hc : s.cached = 0) (hk : g.jfsizePgs ≤ s.pgCntr) : (s.turned g).Contents g s₀ := by
  obtain ⟨hr, h1, h2, h3⟩ := hn.full hc hk
  have hp : (s.turned g).pos g = s.pos g := by
    change (s.rot + 1) * g.fileDblks + 0 * g.pgDblks + s.pgOffset =
      s.rot * g.fileDblks + s.pgCntr * g.pgDblks + s.pgOffset
    rw [h1, h2, Nat.zero_mul, Nat.succ_mul]
  constructor
  · exact index_turned h.index
  · exact h.sent
  · intro r hr₀ hlt
    rcases Nat.lt_succ_iff_lt_or_eq.mp hlt with hlt | rfl
    · exact h.earlier r hr₀ hlt
    · rw [← h3]
      exact hf hr
  · rw [hp]
    exact h.content
  · intro i hi
    change i < s.cached at hi
    omega

theorem Contents.rotatesTo (h : s.Contents g s₀) (hf : s.Follows s₀) (hn : s.Counts g)
    (hc : s.cached = 0) (hk : g.jfsizePgs ≤ s.pgCntr) {res : Iores}
    (hr : s.RotatesTo g res s') : s'.Contents g s₀ := by
  have ht := h.turned hf hn hc hk
  cases hr with
  | wait _ => exact ht
  | full _ => exact ht.of_eq rfl rfl rfl rfl rfl rfl rfl rfl
  | reset _ _ => exact ht.of_eq rfl rfl rfl rfl rfl rfl rfl rfl

theorem Contents.turnsTo (h : s.Contents g s₀) (hf : s.Follows s₀) (hn : s.Counts g)
    (hc : s.cached = 0) (ht : s.TurnsTo g s') : s'.Contents g s₀ := by
  cases ht with
  | stay _ => exact h
  | turn hk hr => exact h.rotatesTo hf hn hc hk hr

/-- `n` dblks go into the page at the current position. -/
structure Puts (g : Geom) (n : Nat) (s s' : Wmgr) : Prop where
  index : s'.fcIndex = s.fcIndex
  rot : s'.rot = s.rot
  subm : s'.subm = s.subm
  cached : s'.cached = s.cached + n
  pos : s'.pos g = s.pos g + n
  offset : s'.pgOffset = s.pgOffset + n
  tape : ∃ d : Nat → Dblk, ∀ i,
    (s'.tape i = if s.pos g ≤ i ∧ i < s.pos g + n then d (i - s.pos g) else s.tape i) ∧
    ((s'.pages s'.pgIndex).buff i = if s.pgOffset ≤ i ∧ i < s.pgOffset + n then d (i - s.pgOffset)
      else (s.pages s.pgIndex).buff i)

theorem cached_le_pos (h : s.cached ≤ s.pgOffset) : s.cached ≤ s.pos g :=
  Nat.le_trans h (Nat.le_add_left _ _)

theorem Contents.puts (h : s.Contents g s₀) (hc : s.cached ≤ s.pgOffset) {n : Nat}
    (hp : s.Puts g n s') : s'.Contents g s₀ := by
  obtain ⟨h1, h2, h3, h4, h5⟩ := h
  obtain ⟨hx, hr, hs, hc', hp', ho', d, hd⟩ := hp
  have hle := cached_le_pos (g := g) hc
  constructor
  · rwa [hx, hr]
  · rwa [hs]
  · intro r hr₀ hlt
    rw [writesOf, hs]
    exact h3 r hr₀ (hr ▸ hlt)
  · rw [hs, hc', hp']
    intro w hw hpg
    obtain ⟨h6, h7⟩ := h4 w hw hpg
    refine ⟨by omega, fun i hi => ?_⟩
    rw [h7 i hi, (hd _).1, if_neg (by omega)]
  · intro i hi
    rw [hc'] at hi ⊢
    rw [(hd _).1, (hd _).2, ho', hp']
    by_cases hlt : i < s.cached
    · rw [if_neg (by omega), if_neg (by omega)]
      have := h5 i hlt
      rwa [show s.pgOffset + n - (s.cached + n) + i = s.pgOffset - s.cached + i by omega,
        show s.pos g + n - (s.cached + n) + i = s.pos g - s.cached + i by omega]
    · rw [if_pos (by omega), if_pos (by omega)]
      exact congrArg d (by omega)

theorem puts_encoded (r : JRec) (tok : Nat) : s.Puts g (s.encodeLen g r tok) (s.encoded g r tok) where
  index := rfl
  rot := rfl
  subm := rfl
  cached := rfl
  pos := (Nat.add_assoc _ _ _).symm
  offset := rfl
  tape := ⟨fun i => r.dblk s.owi ((s.toks tok).dblksWritten + i), fun i => ⟨rfl, by simp [encoded]⟩⟩

theorem puts_rounded : s.Puts g s.fillLen (s.rounded g) where
  index := rfl
  rot := rfl
  subm := rfl
  cached := rfl
  pos := (Nat.add_assoc _ _ _).symm
  offset := rfl
  tape := ⟨fun _ => .filler, fun i => ⟨rfl, by simp only [rounded, fillLen, Function.update_self]; rfl⟩⟩

/-- A write to the current file, of what is cached if it is a page. -/
theorem Contents.submit (h : s.Contents g s₀) (hs : s.Sends s₀) {t : Wmgr} {w : Write} (hw : w.inst = s.rot)
    (hfid : w.fid = s.fcIndex) (hd : 0 < w.dblks) (hpg : w.page = none ↔ w.offs = 0)
    (hw' : w.page ≠ none → w.lin g + w.dblks + t.cached ≤ s.pos g ∧
      ∀ i < w.dblks, w.content i = s.tape (w.lin g + i))
    (hx : t.fcIndex = s.fcIndex) (hr : t.rot = s.rot) (hm : t.subm = s.subm ++ [w])
    (ht : t.tape = s.tape) (hp : t.pos g = s.pos g) (hc : t.cached ≤ s.cached)
    (hb : ∀ i < t.cached,
      (t.pages t.pgIndex).buff (t.pgOffset - t.cached + i) = s.tape (s.pos g - t.cached + i)) :
    t.Contents g s₀ := by
  obtain ⟨h1, h2, h3, h4, h5⟩ := h
  constructor
  · rwa [hx, hr]
  · rw [hm]
    intro x hmem
    rcases List.mem_append.mp hmem with hmem | hmem
    · exact h2 x hmem
    · rw [List.mem_singleton.mp hmem, hfid, hw, ← h1]
      exact ⟨rfl, hs.turns, hd, hpg⟩
  · intro r hr₀ hlt
    have hne : ¬w.inst = r := by omega
    rw [writesOf, hm, List.filter_append, List.filter_cons_of_neg (by simpa using hne),
      List.filter_nil, List.append_nil]
    exact h3 r hr₀ (hr ▸ hlt)
  · rw [hm, hp, ht]
    intro x hmem hpx
    rcases List.mem_append.mp hmem with hmem | hmem
    · obtain ⟨h6, h7⟩ := h4 x hmem hpx
      exact ⟨by omega, h7⟩
    · rw [List.mem_singleton.mp hmem] at hpx ⊢
      exact hw' hpx
  · rwa [ht, hp]

theorem HeaderedTo.contents (ht : s.HeaderedTo s') (h : s.Contents g s₀) (hs : s.Sends s₀) :
    s'.Contents g s₀ := by
  cases ht with
  | kept _ => exact h
  | written h0 hdr =>
    exact h.submit hs (w := ⟨s.fcIndex, 0, jrnlSblkSize, fun i => if i = 0 then .fhdr hdr else .pad, none,
      s.rot⟩) rfl rfl (show 0 < jrnlSblkSize by decide) (by simp) (fun hn => (hn rfl).elim) rfl rfl rfl rfl
      rfl (Nat.le_refl _) h.buffer

theorem EncodesTo.contents {op : OpType} {r : JRec} {tok : Nat} {done : Bool}
    (ht : s.EncodesTo g op r tok done s') (h : s.Contents g s₀) (hs : s.Sends s₀)
    (hc : s.cached ≤ s.pgOffset) : s'.Contents g s₀ := by
  have he := h.puts hc (puts_encoded r tok)
  cases ht with
  | part _ hh =>
    exact hh.contents (he.of_eq rfl rfl rfl rfl rfl rfl rfl rfl) (hs.of_eq rfl rfl rfl rfl)
  | done _ _ _ _ hh =>
    exact hh.contents (he.of_eq rfl rfl rfl rfl rfl rfl rfl rfl) (hs.of_eq rfl rfl rfl rfl)

theorem Contents.pageSubmitted (h : s.Contents g s₀) (ha : s.Appends s₀) (hl : s.Level g)
    (h0 : s.cached ≠ 0) : (s.pageSubmitted g).Contents g s₀ := by
  have hr := h.puts hl.cached (puts_rounded (g := g))
  have hn : s.submCntDblks ≠ 0 := fun hn => h0 (ha.empty hn)
  have h1 := hl.sum
  have h2 := hl.header
  have h3 := hl.fill.2.1
  have h4 := hl.cached
  have hpos : (s.pageSubmitted g).pos g = (s.rounded g).pos g := by
    have hp : (s.rounded g).pos g = s.rot * g.fileDblks + s.pgCntr * g.pgDblks + (s.pgOffset + s.fillLen) :=
      rfl
    by_cases hq : g.pgDblks ≤ s.pgOffset + s.fillLen
    · have ho : (s.pageSubmitted g).pgOffset = 0 := if_pos hq
      have hk : (s.pageSubmitted g).pgCntr = s.pgCntr + 1 := if_pos hq
      rw [hp, pos, ho, hk, Nat.succ_mul]
      change s.rot * g.fileDblks + _ + 0 = _
      omega
    · have ho : (s.pageSubmitted g).pgOffset = s.pgOffset + s.fillLen := if_neg hq
      have hk : (s.pageSubmitted g).pgCntr = s.pgCntr := if_neg hq
      rw [hp, pos, ho, hk]
      rfl
  have hlin : s.rot * g.fileDblks + (s.submCntDblks - jrnlSblkSize) =
      (s.rounded g).pos g - (s.rounded g).cached := by
    change _ = s.rot * g.fileDblks + s.pgCntr * g.pgDblks + (s.pgOffset + s.fillLen) -
      (s.cached + s.fillLen)
    omega
  have hle : (s.rounded g).cached ≤ (s.rounded g).pos g := by
    change s.cached + s.fillLen ≤ _ + (s.pgOffset + s.fillLen)
    omega
  refine hr.submit (t := s.pageSubmitted g) (ha.toSends.of_eq rfl rfl rfl rfl) (w := ⟨s.fcIndex, s.submCntDblks,
    s.cached + s.fillLen, _, some s.pgIndex, s.rot⟩) rfl rfl (Nat.add_pos_left (Nat.pos_of_ne_zero h0) _)
    (by simp [hn]) (fun _ => ⟨?_, fun i hi => ?_⟩) rfl rfl rfl rfl hpos (Nat.zero_le _)
    fun i hi => (Nat.not_lt_zero i hi).elim
  · rw [Write.lin]
    change s.rot * g.fileDblks + (s.submCntDblks - jrnlSblkSize) + (s.rounded g).cached + 0 ≤ _
    omega
  · rw [Write.lin]
    change _ = (s.rounded g).tape (s.rot * g.fileDblks + (s.submCntDblks - jrnlSblkSize) + i)
    rw [hlin]
    exact hr.buffer i hi

theorem Contents.flushed (h : s.Contents g s₀) (ha : s.Appends s₀) (hn : s.Counts g) :
    (s.flushed g).Contents g s₀ := by
  rw [Wmgr.flushed]
  split
  · exact h
  · rename_i h0
    have hl := hn.level (fresh_of_cached ha h0) fun hn => h0 (ha.empty hn)
    exact (h.pageSubmitted ha hl h0).returned returned_taken

/-! ## Flushes and checks of the page -/

/-- Counters and contents where no page is full. -/
structure InPage (g : Geom) (s s₀ : Wmgr) : Prop where
  counts : s.Counts g
  contents : s.Contents g s₀
  cntr : s.pgCntr < g.jfsizePgs
  offset : s.pgOffset < g.pgDblks

theorem InPage.of_eq (h : s.InPage g s₀) (hx : s'.fcIndex = s.fcIndex) (hr : s'.rot = s.rot)
    (hs : s'.subm = s.subm) (ht : s'.tape = s.tape) (hc : s'.cached = s.cached)
    (hk : s'.pgCntr = s.pgCntr) (ho : s'.pgOffset = s.pgOffset)
    (hb : (s'.pages s'.pgIndex).buff = (s.pages s.pgIndex).buff) (hf : s'.fresh = s.fresh)
    (hn : s'.submCntDblks = s.submCntDblks) : s'.InPage g s₀ where
  counts := h.counts.of_eq hf hn hc hk ho
  contents := h.contents.of_eq hx hr hs ht hc hk ho hb
  cntr := hk ▸ h.cntr
  offset := ho ▸ h.offset

theorem InPage.returned (h : s.InPage g s₀) (hr : s.Returned s') : s'.InPage g s₀ where
  counts := h.counts.returned hr
  contents := h.contents.returned hr
  cntr := hr.pgCntr ▸ h.cntr
  offset := hr.pgOffset ▸ h.offset

theorem InPage.resetTo (h : s.InPage g s₀) (hf : s.fresh = false) {ok : Bool} (hr : s.ResetTo ok s') :
    s'.InPage g s₀ := by
  obtain ⟨h1, h2⟩ := h.counts.resetTo hf hr
  exact ⟨h1, h.contents.resetTo hr, h2.cntr ▸ g.jfsizePgs_pos, h2.offset ▸ g.pgDblks_pos⟩

/-- What a flush collects, and a turn of the ring behind it. -/
theorem Collects.inPage {evs : List Nat} {t : Wmgr} (ht : s.Collects g evs t) (ha : s.Appends s₀)
    (hf : s.Follows s₀) (hn : s.Counts g) (hw : s.Contents g s₀) (hk : s.pgCntr < g.jfsizePgs)
    (hq : s.pgOffset = g.pgDblks → s.cached ≠ 0) (hu : t.taken.TurnsTo g s') : s'.InPage g s₀ := by
  have hr := ht.2.trans returned_taken
  obtain ⟨-, h2, h3, -, -⟩ := ht.appends ha
  obtain ⟨h4, h5, -⟩ := hn.flushed (g := g) ha hq hk
  obtain ⟨h6, h7, h8⟩ := (h4.returned hr).turnsTo h3 (hr.pgOffset.symm ▸ h5) hu
  exact ⟨h6, ((hw.flushed ha hn).returned hr).turnsTo (h2 hf) (h4.returned hr) h3 hu, h7, h8⟩

theorem ChecksTo.inPage {evs : List Nat} {cont done : Bool} {x : Iores × Bool × Bool}
    (hc : s.ChecksTo g (s.Collects g evs) cont done x s') (ha : s.Appends s₀) (hf : s.Follows s₀)
    (hn : s.Counts g) (hw : s.Contents g s₀) (hk : s.pgCntr < g.jfsizePgs)
    (hq : s.pgOffset = g.pgDblks → s.cached ≠ 0) : s'.InPage g s₀ := by
  cases hc with
  | room h => exact ⟨hn, hw, hk, h⟩
  | stay _ ht _ hlt => exact ht.inPage ha hf hn hw hk hq (.stay hlt)
  | turn _ ht _ hge hu => exact ht.inPage ha hf hn hw hk hq (.turn hge hu)

/-- A record that the maps refuse stays behind the header, in its page. -/
theorem EncodeFails.inPage {op : OpType} {r : JRec} {tok : Nat} (ht : s.EncodeFails g op r tok s')
    (h : s.InPage g s₀) (hf : s.Follows s₀) (hr : s.fresh = true) (hc : r.recSizeDblks ≤ s.dblksAfter g r tok →
      ((∃ m, Maps.complete (s.headFid tok) r s.maps = .ok () m) ∧
        ∀ xid ∈ r.endXid, xid ∉ s.txnPending) ∨
      r.endXid = none ∧ s.submCntDblks ≠ 0 ∧ s.pgOffset + s.encodeLen g r tok < g.pgDblks) :
    s'.InPage g s₀ ∧ s'.Follows s₀ := by
  cases ht with
  | full hle =>
    have := h.offset
    omega
  | maps m hd hm =>
    rcases hc hd with ⟨⟨m', hok⟩, hx⟩ | ⟨-, hn, hlt⟩
    · rcases hm with hm | ⟨xid, hxid, hmem⟩
      · exact (hm m' hok).elim
      · exact (hx xid hxid hmem).elim
    · have hl := h.counts.level hr hn
      have he := h.contents.puts hl.cached (puts_encoded r tok)
      have hcounts : ((s.encoded g r tok).completed op r tok m).Counts g :=
        ((hl.encoded h.cntr r tok).counts hr).of_eq rfl rfl rfl rfl rfl
      exact ⟨⟨hcounts, he.of_eq rfl rfl rfl rfl rfl rfl rfl rfl, h.cntr, hlt⟩, hf.of_eq rfl rfl rfl rfl⟩

theorem unentered_inPage : Unentered c fun s => (s.Appends s₀ ∧ s.Follows s₀ ∧ s.resetOk = s.fresh) ∧
    s.InPage g s₀ where
  reset s ok s' h hr ht := ⟨unentered_appends (c := c).reset s ok s' h.1 hr ht,
    h.2.resetTo (h.1.2.2 ▸ hr) ht⟩
  use s h hp := ⟨unentered_appends (c := c).use s h.1 hp, h.2.returned returned_used⟩
  rid s n h := ⟨unentered_appends (c := c).rid s n h.1, h.2.of_eq rfl rfl rfl rfl rfl rfl rfl rfl rfl rfl⟩
  busy s h := ⟨unentered_appends (c := c).busy s h.1, h.2.of_eq rfl rfl rfl rfl rfl rfl rfl rfl rfl rfl⟩
  tok s t h h1 h2 h3 h4 h5 := ⟨unentered_appends.tok s t h.1 h1 h2 h3 h4 h5,
    h.2.of_eq rfl rfl rfl rfl rfl rfl rfl rfl rfl rfl⟩

end Wmgr

end RhmStore
