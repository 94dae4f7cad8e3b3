import RhmStore.Lib.Tiles
import RhmStore.Writer.Exact

/-! # Files are written from their start

Or, the file that is resumed by a recovery, from where that has ended. -/

namespace RhmStore

namespace Wmgr

variable {g : Geom} {s₀ s s' : Wmgr} {c : Call}

/-- `wrfc::subm_cnt_dblks`. -/
def submCntDblks (s : Wmgr) : Nat := (s.fcntls s.fcIndex).wrSubm

/-- The writes between a turn of the ring and the next one. -/
def writesOf (s : Wmgr) (rot : Nat) : List Write := s.subm.filter fun w => w.inst = rot

/-- Where the writes of a turn begin in their file, from the state `s₀` on. -/
def base (s₀ : Wmgr) (rot : Nat) : Nat := if rot = s₀.rot ∧ s₀.fresh = true then s₀.submCntDblks else 0

/-- Only a header is written at the start of a file, and nothing into one that was not reset. -/
structure Sends (s s₀ : Wmgr) : Prop where
  turns : s₀.rot ≤ s.rot
  inst : ∀ w ∈ s.subm, w.inst ≤ s.rot
  stale : s.fresh = false → s.writesOf s.rot = [] ∧ s₀.base s.rot = 0
  sent : ∀ w ∈ s.writesOf s.rot, w.fid = s.fcIndex ∧ 0 < w.dblks ∧ (w.page = none ↔ w.offs = 0)

structure Appends (s s₀ : Wmgr) : Prop extends s.Sends s₀ where
  page : s.cached ≠ 0 → (s.pages s.pgIndex).state ≠ .aioPending
  idle : s.fresh = false → s.cached = 0
  empty : s.submCntDblks = 0 → s.cached = 0

/-- In a file that was reset, each write begins where the one before it ends. -/
def Follows (s s₀ : Wmgr) : Prop := s.fresh = true →
  Tiles Write.offs Write.dblks (s₀.base s.rot) (s.writesOf s.rot) s.submCntDblks

theorem Sends.of_eq (h : s.Sends s₀) (hr : s'.rot = s.rot) (hs : s'.subm = s.subm)
    (hf : s'.fresh = s.fresh) (hx : s'.fcIndex = s.fcIndex) : s'.Sends s₀ := by
  obtain ⟨h1, h2, h3, h4⟩ := h
  rw [writesOf] at h3 h4
  constructor
  · rwa [hr]
  · rwa [hr, hs]
  · rwa [writesOf, hr, hs, hf]
  · rwa [writesOf, hr, hs, hx]

theorem Follows.of_eq (h : s.Follows s₀) (hr : s'.rot = s.rot) (hs : s'.subm = s.subm)
    (hf : s'.fresh = s.fresh) (hn : s'.submCntDblks = s.submCntDblks) : s'.Follows s₀ := by
  rw [Follows, writesOf] at h ⊢
  rwa [hr, hs, hf, hn]

theorem Appends.of_eq (h : s.Appends s₀) (hr : s'.rot = s.rot) (hs : s'.subm = s.subm)
    (hf : s'.fresh = s.fresh) (hx : s'.fcIndex = s.fcIndex) (hn : s'.submCntDblks = s.submCntDblks)
    (hc : s'.cached = s.cached) (hp : (s'.pages s'.pgIndex).state = .aioPending →
      (s.pages s.pgIndex).state = .aioPending) : s'.Appends s₀ where
  toSends := h.toSends.of_eq hr hs hf hx
  page h0 hn := h.page (hc ▸ h0) (hp hn)
  idle h0 := hc.trans (h.idle (hf ▸ h0))
  empty h0 := hc.trans (h.empty (hn ▸ h0))

theorem submCntDblks_returned (h : s.Returned s') : s'.submCntDblks = s.submCntDblks := by
  rw [submCntDblks, h.fcIndex, h.wrSubm, submCntDblks]

theorem Appends.returned (h : s.Appends s₀) (hr : s.Returned s') : s'.Appends s₀ :=
  h.of_eq hr.rot hr.subm hr.fresh hr.fcIndex (submCntDblks_returned hr) hr.cached fun hp =>
    hr.waits _ (hr.pgIndex ▸ hp)

theorem Follows.returned (h : s.Follows s₀) (hr : s.Returned s') : s'.Follows s₀ :=
  h.of_eq hr.rot hr.subm hr.fresh (submCntDblks_returned hr)

theorem returned_used : s.Returned s.used := by
  have h := returns_modPage s.pgIndex (fun p => { p with state := .inUse }) (fun _ => rfl)
    (fun _ => by rintro ⟨⟩) s
  exact h

theorem returned_taken : s.Returned s.taken := by
  rw [taken]
  split
  · exact returned_used
  · exact .refl s

/-- The current file is reset, or it keeps what it holds and is not written. -/
theorem Appends.resetTo (h : s.Appends s₀) (hf : s.fresh = false) {ok : Bool} (hr : s.ResetTo ok s') :
    s'.Appends s₀ ∧ s'.Follows s₀ ∧ s'.resetOk = s'.fresh := by
  cases hr with
  | held _ =>
    refine ⟨h.of_eq rfl rfl rfl rfl rfl rfl id, fun ht => ?_, hf.symm⟩
    rw [hf] at ht
    cases ht
  | reset _ _ =>
    obtain ⟨hw, hb⟩ := h.stale hf
    have hn : s.afterReset.submCntDblks = 0 := by simp [submCntDblks, afterReset]
    have hw' : s.afterReset.writesOf s.afterReset.rot = [] := hw
    refine ⟨⟨⟨h.turns, h.inst, by rintro ⟨⟩, ?_⟩, h.page, by rintro ⟨⟩, fun _ => h.idle hf⟩, fun _ => ?_, rfl⟩
    · rw [hw']
      exact fun _ hm => (List.not_mem_nil hm).elim
    · rw [hw', hn]
      exact hb

theorem writesOf_succ (h : s.Sends s₀) : s.writesOf (s.rot + 1) = [] := by
  rw [writesOf, List.filter_eq_nil_iff]
  intro w hw
  have := h.inst w hw
  simp only [decide_eq_true_eq]
  omega

theorem Appends.turned (h : s.Appends s₀) (h0 : s.cached = 0) : (s.turned g).Appends s₀ := by
  have hw : (s.turned g).writesOf (s.turned g).rot = [] := writesOf_succ h.toSends
  have ht := h.turns
  constructor
  · constructor
    · exact Nat.le_succ_of_le ht
    · exact fun w hm => Nat.le_succ_of_le (h.inst w hm)
    · refine fun _ => ⟨hw, if_neg fun hn => ?_⟩
      have : s.rot + 1 = s₀.rot := hn.1
      omega
    · rw [hw]
      exact fun _ hm => (List.not_mem_nil hm).elim
  · exact fun hn => (hn h0).elim
  · exact fun _ => h0
  · exact fun _ => h0

theorem Appends.rotatesTo (h : s.Appends s₀) (h0 : s.cached = 0) {res : Iores}
    (hr : s.RotatesTo g res s') : s'.Appends s₀ ∧ s'.Follows s₀ ∧ s'.cached = 0 ∧
      (res ≠ .fileAioWait ∧ s'.resetOk = s'.fresh ∨
        res = .fileAioWait ∧ s' = s.turned g ∧ (s'.fcntls s'.fcIndex).aioCnt ≠ 0) := by
  have ht := h.turned (g := g) h0
  cases hr with
  | wait ha => exact ⟨ht, (by rintro ⟨⟩), h0, Or.inr ⟨rfl, rfl, ha⟩⟩
  | full _ => exact ⟨ht.of_eq rfl rfl rfl rfl rfl rfl id, (by rintro ⟨⟩), h0, Or.inl ⟨(by rintro ⟨⟩), rfl⟩⟩
  | reset he ha =>
    obtain ⟨h1, h2, h3⟩ := ht.resetTo rfl (.reset he ha)
    exact ⟨h1, h2, h0, Or.inl ⟨(by rintro ⟨⟩), h3⟩⟩

/-- A write that follows the last one of the current file. -/
theorem Sends.submit (h : s.Sends s₀) {t : Wmgr} {w : Write} (hw : w.inst = s.rot)
    (hx : w.fid = s.fcIndex) (hd : 0 < w.dblks) (hp : w.page = none ↔ w.offs = 0)
    (hr : t.rot = s.rot) (hs : t.subm = s.subm ++ [w]) (hf' : t.fresh = true)
    (hx' : t.fcIndex = s.fcIndex) :
    t.Sends s₀ ∧ t.writesOf t.rot = s.writesOf s.rot ++ [w] := by
  have hws : t.writesOf t.rot = s.writesOf s.rot ++ [w] := by
    rw [writesOf, hs, hr, List.filter_append, writesOf]
    simp [hw]
  refine ⟨⟨hr ▸ h.turns, ?_, fun hn => ?_, ?_⟩, hws⟩
  · rw [hs, hr]
    intro x hm
    rcases List.mem_append.mp hm with hm | hm
    · exact h.inst x hm
    · rw [List.mem_singleton.mp hm, hw]
  · rw [hf'] at hn
    cases hn
  · rw [hws, hx']
    intro x hm
    rcases List.mem_append.mp hm with hm | hm
    · exact h.sent x hm
    · rw [List.mem_singleton.mp hm]
      exact ⟨hx, hd, hp⟩

theorem HeaderedTo.sends (ht : s.HeaderedTo s') (h : s.Sends s₀) (hf : s.Follows s₀)
    (hr : s.fresh = true) : s'.Sends s₀ ∧ s'.Follows s₀ ∧ s'.submCntDblks ≠ 0 := by
  cases ht with
  | kept h0 => exact ⟨h, hf, h0⟩
  | written h0 hdr =>
    have hn : (s.fhdrSubmitted hdr).submCntDblks = jrnlSblkSize := by
      simp [submCntDblks, fhdrSubmitted, h0]
    obtain ⟨hs, hw⟩ := h.submit (t := s.fhdrSubmitted hdr) (w := ⟨s.fcIndex, 0, jrnlSblkSize,
      fun i => if i = 0 then .fhdr hdr else .pad, none, s.rot⟩) rfl rfl
      (show 0 < jrnlSblkSize by decide) (by simp) rfl rfl
      hr rfl
    refine ⟨hs, fun _ => ?_, by rw [hn]; decide⟩
    rw [hw, hn]
    have h1 := hf hr
    rw [show s.submCntDblks = 0 from h0] at h1
    exact h1.append ⟨rfl, rfl⟩

/-- A turn of the loop leaves the header of its file submitted. -/
theorem EncodesTo.appends {op : OpType} {r : JRec} {tok : Nat} {done : Bool}
    (ht : s.EncodesTo g op r tok done s') (h : s.Appends s₀) (hf : s.Follows s₀) (hr : s.fresh = true)
    (hp : (s.pages s.pgIndex).state ≠ .aioPending) :
    s'.Appends s₀ ∧ s'.Follows s₀ ∧ s'.submCntDblks ≠ 0 ∧ s'.fresh = true ∧ s'.resetOk = s.resetOk ∧
      (s'.pages s'.pgIndex).state ≠ .aioPending := by
  have key : ∀ u : Wmgr, u.HeaderedTo s' → u.rot = s.rot → u.subm = s.subm → u.fresh = s.fresh → u.fcIndex = s.fcIndex →
      u.submCntDblks = s.submCntDblks → (u.pages u.pgIndex).state ≠ .aioPending →
      u.resetOk = s.resetOk → s'.Appends s₀ ∧ s'.Follows s₀ ∧ s'.submCntDblks ≠ 0 ∧ s'.fresh = true ∧
        s'.resetOk = s.resetOk ∧ (s'.pages s'.pgIndex).state ≠ .aioPending := by
    intro u hh h1 h2 h3 h4 h5 h6 h7
    obtain ⟨hs, hf', hn⟩ := hh.sends (h.toSends.of_eq h1 h2 h3 h4) (hf.of_eq h1 h2 h3 h5) (h3.trans hr)
    obtain ⟨h8, h9, -⟩ := hh.same
    have hsame : s'.fresh = u.fresh ∧ s'.resetOk = u.resetOk := by cases hh <;> exact ⟨rfl, rfl⟩
    have hfr : s'.fresh = true := hsame.1.trans (h3.trans hr)
    have hpage : (s'.pages s'.pgIndex).state ≠ .aioPending := by rwa [h8, h9]
    refine ⟨⟨hs, fun _ => hpage, fun hn => ?_, fun h0 => (hn h0).elim⟩, hf', hn, hfr, hsame.2.trans h7,
      hpage⟩
    rw [hfr] at hn
    cases hn
  have hpage : ((s.encoded g r tok).pages s.pgIndex).state ≠ .aioPending := by simpa [encoded] using hp
  cases ht with
  | part _ hh => exact key _ hh rfl rfl rfl rfl rfl hpage rfl
  | done _ _ _ _ hh => exact key _ hh rfl rfl rfl rfl rfl hpage rfl

/-- What is encoded, but refused by the maps, is in a file with its header. -/
theorem EncodeFails.appends {op : OpType} {r : JRec} {tok : Nat} (ht : s.EncodeFails g op r tok s')
    (h : s.Appends s₀) (hr : s.fresh = true) (hp : (s.pages s.pgIndex).state ≠ .aioPending)
    (hc : s.submCntDblks = 0 → r.recSizeDblks ≤ s.dblksAfter g r tok →
      (∃ m, Maps.complete (s.headFid tok) r s.maps = .ok () m) ∧ ∀ xid ∈ r.endXid, xid ∉ s.txnPending) :
    s'.Appends s₀ ∧ s'.resetOk = s.resetOk ∧ s'.fresh = true := by
  cases ht with
  | full _ => exact ⟨h, rfl, hr⟩
  | maps m hd hm =>
    have hpage : ((s.encoded g r tok).pages s.pgIndex).state ≠ .aioPending := by simpa [encoded] using hp
    refine ⟨⟨h.toSends.of_eq rfl rfl rfl rfl, fun _ => hpage, fun hn => ?_, fun h0 => ?_⟩, rfl, hr⟩
    · rw [show s.fresh = false from hn] at hr
      cases hr
    · obtain ⟨⟨m', hok⟩, hx⟩ := hc h0 hd
      rcases hm with hm | ⟨xid, hxid, hmem⟩
      · exact (hm m' hok).elim
      · exact (hx xid hxid hmem).elim

theorem fresh_of_cached (h : s.Appends s₀) (h0 : s.cached ≠ 0) : s.fresh = true := by
  by_contra hn
  exact h0 (h.idle (by simpa using hn))

theorem Appends.pageSubmitted (h : s.Appends s₀) (h0 : s.cached ≠ 0) :
    (s.pageSubmitted g).Appends s₀ ∧ (s.Follows s₀ → (s.pageSubmitted g).Follows s₀) := by
  have hr := fresh_of_cached h h0
  have hn : s.submCntDblks ≠ 0 := fun hn => h0 (h.empty hn)
  have hn' : (s.pageSubmitted g).submCntDblks = s.submCntDblks + (s.cached + s.fillLen) := by
    simp [submCntDblks, Wmgr.pageSubmitted, rounded, fillLen]
  obtain ⟨hs, hw⟩ := h.toSends.submit (t := s.pageSubmitted g) (w := ⟨s.fcIndex, s.submCntDblks,
    s.cached + s.fillLen, _, some s.pgIndex, s.rot⟩) rfl rfl
    (Nat.add_pos_left (Nat.pos_of_ne_zero h0) _) (by simp [hn]) rfl rfl hr rfl
  refine ⟨⟨hs, fun hc => (hc rfl).elim, fun _ => rfl, fun _ => rfl⟩, fun hf _ => ?_⟩
  rw [hw, hn']
  exact (hf hr).append ⟨rfl, rfl⟩

theorem Appends.flushed (h : s.Appends s₀) :
    (s.flushed g).Appends s₀ ∧ (s.Follows s₀ → (s.flushed g).Follows s₀) := by
  rw [Wmgr.flushed]
  split
  · exact ⟨h, id⟩
  · rename_i h0
    obtain ⟨h1, h2⟩ := h.pageSubmitted (g := g) h0
    exact ⟨h1.returned returned_taken, fun hf => (h2 hf).returned returned_taken⟩

/-- A page that does not fit is written behind the counted ones. -/
theorem Appends.overrun (h : s.Appends s₀) (h0 : s.cached ≠ 0) : (s.overrun g).Appends s₀ := by
  have hr := fresh_of_cached h h0
  have hn : s.submCntDblks ≠ 0 := fun hn => h0 (h.empty hn)
  obtain ⟨hs, -⟩ := h.toSends.submit (t := s.overrun g) (w := ⟨s.fcIndex, s.submCntDblks,
    s.cached + s.fillLen, _, some s.pgIndex, s.rot⟩) rfl rfl
    (Nat.add_pos_left (Nat.pos_of_ne_zero h0) _) (by simp [hn]) rfl rfl hr rfl
  refine ⟨hs, fun _ => ?_, fun hn => ?_, fun h1 => (hn h1).elim⟩
  · have hp : ((s.overrun g).pages (s.overrun g).pgIndex).state = (s.pages s.pgIndex).state := by
      simp [Wmgr.overrun, rounded]
    rw [hp]
    exact h.page h0
  · rw [show s.fresh = false from hn] at hr
    cases hr

/-- What a flush leaves where it throws. -/
inductive FlushFails (g : Geom) (s : Wmgr) : Wmgr → Prop
  | unused : FlushFails g s s
  | overrun (h0 : s.cached ≠ 0) : FlushFails g s (s.overrun g)
  | events {t : Wmgr} (h : (s.flushed g).Returned t) : FlushFails g s t

/-- What a flush gets from AIO, the writes `evs` having returned. -/
def Collects (g : Geom) (s : Wmgr) (evs : List Nat) (t : Wmgr) : Prop :=
  getEvents evs (s.flushed g) = .ok () t ∧ (s.flushed g).Returned t

theorem wp_collects (evs : List Nat) :
    wp (getEvents evs) (fun _ => s.Collects g evs) (fun _ => s.FlushFails g) (s.flushed g) :=
  wp_mono (wp_and (wp_self (getEvents evs) (s.flushed g)) (returns_getEvents evs (s.flushed g)))
    (fun _ _ ht => ht) fun _ _ ht => .events ht.2

theorem Appends.wp_flush (h : s.Appends s₀) (evs : List Nat) :
    wp (flush g evs) (fun _ s' => ∃ t, s.Collects g evs t ∧ t.taken.TurnsTo g s')
      (fun _ => s.FlushFails g) s :=
  wp_flush_of h.page (fun _ _ => .unused) (fun h0 _ => .overrun h0) (wp_collects evs)

theorem Appends.wp_flushCheck (h : s.Appends s₀) (cont done : Bool) (evs : List Nat) :
    wp (flushCheck g cont done evs) (s.ChecksTo g (s.Collects g evs) cont done)
      (fun _ => s.FlushFails g) s :=
  wp_flushCheck_of h.page (fun _ _ _ => .unused) (fun _ h0 _ => .overrun h0) fun _ => wp_collects evs

theorem flushed_same : (s.flushed g).resetOk = s.resetOk ∧ (s.flushed g).fresh = s.fresh := by
  rw [flushed]
  split
  · exact ⟨rfl, rfl⟩
  · have h := returned_taken (s := s.pageSubmitted g)
    exact ⟨h.resetOk, h.fresh⟩

theorem FlushFails.appends (ht : s.FlushFails g s') (h : s.Appends s₀) :
    s'.Appends s₀ ∧ s'.resetOk = s.resetOk ∧ s'.fresh = s.fresh := by
  cases ht with
  | unused => exact ⟨h, rfl, rfl⟩
  | overrun h0 => exact ⟨h.overrun h0, rfl, rfl⟩
  | events hr =>
    exact ⟨h.flushed.1.returned hr, hr.resetOk.trans flushed_same.1, hr.fresh.trans flushed_same.2⟩

theorem Collects.appends {evs : List Nat} (ht : s.Collects g evs s') (h : s.Appends s₀) :
    s'.taken.Appends s₀ ∧ (s.Follows s₀ → s'.taken.Follows s₀) ∧ s'.taken.cached = 0 ∧
      s'.taken.resetOk = s.resetOk ∧ s'.taken.fresh = s.fresh := by
  have hr := ht.2.trans returned_taken
  obtain ⟨h1, h2⟩ := h.flushed (g := g)
  exact ⟨h1.returned hr, fun hf => (h2 hf).returned hr, hr.cached.trans cached_flushed,
    hr.resetOk.trans flushed_same.1, hr.fresh.trans flushed_same.2⟩

/-- The flush fills the last page of the current file, and the next one, of what has returned by then, still
has a write outstanding. -/
def TurnsBusy (g : Geom) (s : Wmgr) (evs : List Nat) : Prop :=
  ∃ t, getEvents evs (s.flushed g) = .ok () t ∧ g.jfsizePgs ≤ t.pgCntr ∧
    (t.fcntls (t.turned g).fcIndex).aioCnt ≠ 0

instance decidableTurnsBusy (evs : List Nat) : Decidable (s.TurnsBusy g evs) :=
  match he : getEvents evs (s.flushed g) with
  | .ok _ t => decidable_of_iff (g.jfsizePgs ≤ t.pgCntr ∧ (t.fcntls (t.turned g).fcIndex).aioCnt ≠ 0) (by
    rw [TurnsBusy, he]
    constructor
    · exact fun h => ⟨t, rfl, h⟩
    · intro h
      obtain ⟨u, hu, h⟩ := h
      cases hu
      exact h)
  | .error _ _ => isFalse (by
    rw [TurnsBusy, he]
    rintro ⟨u, hu, -⟩
    cases hu)

theorem Collects.turnsTo {evs : List Nat} {t : Wmgr} (ht : s.Collects g evs t) (h : s.Appends s₀)
    (hr : s.resetOk = s.fresh) (hb : ¬s.TurnsBusy g evs) (hu : t.taken.TurnsTo g s') :
    s'.Appends s₀ ∧ (s.Follows s₀ → s'.Follows s₀) ∧ s'.resetOk = s'.fresh := by
  obtain ⟨h1, h2, h3, h4, h5⟩ := ht.appends h
  cases hu with
  | stay _ => exact ⟨h1, h2, by rw [h4, h5, hr]⟩
  | turn hk hro =>
    obtain ⟨h6, h7, -, h8⟩ := h1.rotatesTo h3 hro
    refine ⟨h6, fun _ => h7, ?_⟩
    rcases h8 with ⟨-, h8⟩ | ⟨-, rfl, ha⟩
    · exact h8
    · -- the file that the ring turns to has a write outstanding
      have hsame : t.taken.fcntls = t.fcntls ∧ (t.taken.turned g).fcIndex = (t.turned g).fcIndex := by
        rw [Wmgr.taken]
        split <;> exact ⟨rfl, rfl⟩
      refine (hb ⟨t, ht.1, returned_taken.pgCntr ▸ hk, ?_⟩).elim
      rw [← hsame.1, ← hsame.2]
      exact ha

/-- What a check of the page leaves: the ring has turned to a file with outstanding writes, or the current file
is reset or kept from being written. -/
theorem ChecksTo.appends {evs : List Nat} {cont done cont' done' : Bool} {res : Iores}
    (hc : s.ChecksTo g (s.Collects g evs) cont done (res, cont', done') s') (h : s.Appends s₀)
    (hf : s.Follows s₀) (hr : s.fresh = true) (hk : s.resetOk = true)
    (hp : (s.pages s.pgIndex).state ≠ .aioPending) : s'.Appends s₀ ∧ s'.Follows s₀ ∧
      (res = .fileAioWait ∧ s'.fresh = false ∧ s'.resetOk = true ∨
        res ≠ .fileAioWait ∧ s'.resetOk = s'.fresh) ∧
      (done' = false → s'.fresh = true ∧ s'.resetOk = true ∧
        (s'.pages s'.pgIndex).state ≠ .aioPending) := by
  cases hc with
  | room _ => exact ⟨h, hf, Or.inr ⟨(by rintro ⟨⟩), by rw [hr, hk]⟩, fun _ => ⟨hr, hk, hp⟩⟩
  | stay hle ht hw hlt =>
    rename_i t wait
    obtain ⟨h1, h2, -, h4, h5⟩ := ht.appends h
    refine ⟨h1, h2 hf, Or.inr ⟨by cases wait <;> rintro ⟨⟩, by rw [h4, h5, hr, hk]⟩, fun hd => ?_⟩
    obtain ⟨hd, hwait⟩ := Bool.or_eq_false_iff.mp hd
    refine ⟨h5.trans hr, h4.trans hk, fun hpend => ?_⟩
    simp [hwait, hpend, hd] at hw
  | turn hle ht hw hge hu =>
    rename_i t wait rfres
    obtain ⟨h1, -, h3, h4, h5⟩ := ht.appends h
    obtain ⟨h6, h7, -, h8⟩ := h1.rotatesTo h3 hu
    obtain ⟨hpages, hindex, -⟩ := hu.same
    refine ⟨h6, h7, ?_, fun hd => ?_⟩
    · rcases h8 with ⟨hne, h8⟩ | ⟨rfl, rfl, -⟩
      · refine Or.inr ⟨?_, h8⟩
        by_cases hs : rfres ≠ .success
        · rwa [if_pos hs]
        · rw [if_neg hs]
          cases wait <;> rintro ⟨⟩
      · exact Or.inl ⟨rfl, rfl, h4.trans hk⟩
    · obtain ⟨hdw, hres⟩ := Bool.or_eq_false_iff.mp hd
      obtain ⟨hdone, hwait⟩ := Bool.or_eq_false_iff.mp hdw
      have hs : rfres = .success := by simpa using hres
      subst hs
      cases hu with
      | reset he ha =>
        refine ⟨rfl, rfl, fun hpend => ?_⟩
        rw [hpages, hindex] at hpend
        simp [hwait, hpend, hdone] at hw

theorem unentered_appends : Unentered c fun s => s.Appends s₀ ∧ s.Follows s₀ ∧ s.resetOk = s.fresh where
  reset s ok s' h hr ht := h.1.resetTo (h.2.2 ▸ hr) ht
  use s h hp := by
    have hu := returned_used (s := s)
    exact ⟨h.1.returned hu, h.2.1.returned hu, hu.resetOk.trans (h.2.2.trans hu.fresh.symm)⟩
  rid s n h := ⟨h.1.of_eq rfl rfl rfl rfl rfl rfl id, h.2⟩
  busy s h := ⟨h.1.of_eq rfl rfl rfl rfl rfl rfl id, h.2⟩
  tok s t h _ _ _ _ _ := ⟨h.1.of_eq rfl rfl rfl rfl rfl rfl id, h.2⟩

end Wmgr

end RhmStore
