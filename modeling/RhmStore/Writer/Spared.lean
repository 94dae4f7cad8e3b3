import RhmStore.Writer.Needed
import RhmStore.Writer.InStep

/-! # No file with a record that is needed is overwritten -/

namespace RhmStore

namespace Wmgr

variable {g : Geom} {s₀ s s' : Wmgr} {c : Call} {evs : List Nat}

/-- In each turn before this one, the writes lie end to end. -/
def Behind (s s₀ : Wmgr) : Prop :=
  ∀ r < s.rot, ∃ n, Tiles Write.offs Write.dblks (s₀.base r) (s.writesOf r) n

theorem Behind.of_subm (h : s.Behind s₀) (hr : s'.rot = s.rot)
    (hs : s'.subm = s.subm ∨ ∃ w, s'.subm = s.subm ++ [w] ∧ w.inst = s.rot) : s'.Behind s₀ := by
  intro r hlt
  rw [hr] at hlt
  have hw : s'.writesOf r = s.writesOf r := by
    rcases hs with hs | ⟨w, hs, hi⟩
    · rw [writesOf, hs, writesOf]
    · have hne : w.inst ≠ r := by omega
      rw [writesOf, hs, List.filter_append, writesOf]
      simp [hne]
  rw [hw]
  exact h r hlt

theorem Behind.returned (h : s.Behind s₀) (hr : s.Returned s') : s'.Behind s₀ :=
  h.of_subm hr.rot (Or.inl hr.subm)

theorem Behind.headeredTo (h : s.Behind s₀) (ht : s.HeaderedTo s') : s'.Behind s₀ := by
  cases ht with
  | kept _ => exact h
  | written h0 hdr => exact h.of_subm rfl (Or.inr ⟨_, rfl, rfl⟩)

theorem Behind.flushed (h : s.Behind s₀) : (s.flushed g).Behind s₀ := by
  rw [Wmgr.flushed]
  split
  · exact h
  · have hs : (s.pageSubmitted g).Behind s₀ := h.of_subm rfl (Or.inr ⟨_, rfl, rfl⟩)
    exact hs.returned returned_taken

theorem Behind.rotatesTo (h : s.Behind s₀) (hw : s.Follows s₀) (hf : s.fresh = true) {res : Iores}
    (hr : s.RotatesTo g res s') : s'.Behind s₀ := by
  have ht : (s.turned g).Behind s₀ := by
    intro r hlt
    rcases Nat.lt_succ_iff_lt_or_eq.mp hlt with hlt | rfl
    · exact h r hlt
    · exact ⟨_, hw hf⟩
  cases hr <;> exact ht

/-- What a flush leaves as it is, apart from the page. -/
structure FlushFrame (s t : Wmgr) : Prop where
  fresh : t.fresh = s.fresh
  rot : t.rot = s.rot
  cur : t.cur = s.cur
  cached : t.cached = 0
  enqCnt : t.maps.enqCnt = s.maps.enqCnt

theorem FlushedFrom.frame {t : Wmgr} (h : s.FlushedFrom g evs t) : s.FlushFrame t.taken := by
  have hr := h.returned.trans returned_taken
  have hs : (s.flushed g).rot = s.rot ∧ (s.flushed g).maps = s.maps := by
    rw [Wmgr.flushed]
    split
    · exact ⟨rfl, rfl⟩
    · rw [Wmgr.taken]
      split <;> exact ⟨rfl, rfl⟩
  exact ⟨hr.fresh.trans flushed_same.2, hr.rot.trans hs.1, Sys.cur_flushedFrom h, hr.cached.trans cached_flushed,
    (enqCnt_returned hr).trans (by rw [hs.2])⟩

theorem FlushFrame.curTurn {t : Wmgr} (h : s.FlushFrame t) : t.curTurn = s.curTurn := by
  rw [Wmgr.curTurn, h.cur, h.rot, Wmgr.curTurn]

theorem pgCntr_flushed (h0 : s.cached ≠ 0) (ho : g.pgDblks ≤ s.pgOffset) :
    (s.flushed g).pgCntr = s.pgCntr + 1 := by
  have hp : (s.pageSubmitted g).pgCntr = s.pgCntr + 1 := if_pos (Nat.le_add_right_of_le ho)
  rw [Wmgr.flushed, if_neg h0, returned_taken.pgCntr, hp]

theorem Spared.flushedFrom (h : s.Spared g s₀) (hf : s.cached ≠ 0 → s.fresh = true) {t : Wmgr}
    (ht : s.FlushedFrom g evs t) : t.taken.Spared g s₀ :=
  (h.flushed hf).returned (ht.returned.trans returned_taken)

/-- The record that goes on has left its page, and the writer stands in front of a next one. -/
def Paused (g : Geom) (s : Wmgr) : Prop := s.cur ≠ none → s.cached = 0 ∧ s.pgCntr < g.jfsizePgs

/-- A file is full only behind all of its pages. -/
theorem PosAhead.rot_lt (h : s.PosAhead g) (ho : g.pgDblks ≤ s.pgOffset) (hk : g.jfsizePgs ≤ s.pgCntr + 1) :
    s.rot + 1 < s.curTurn + g.numJfiles ∨ s.InUse g := by
  refine h.imp_left fun hlt => ?_
  have h1 : g.fileDblks ≤ (s.pgCntr + 1) * g.pgDblks := Nat.mul_le_mul_right _ hk
  rw [Nat.succ_mul] at h1
  apply Nat.lt_of_mul_lt_mul_right (a := g.fileDblks)
  calc (s.rot + 1) * g.fileDblks = s.rot * g.fileDblks + g.fileDblks := Nat.succ_mul _ _
    _ ≤ s.pos g := by
      rw [pos]
      omega
    _ < _ := hlt

/-- A check of the page turns the ring only where the record that goes on has files left. -/
theorem Spared.checksTo (h : s.Spared g s₀) (hf : s.fresh = true)
    (hr : s.cached = 0 → s.pgOffset < g.pgDblks) (ha : s.cur ≠ none → s.PosAhead g)
    {cont done cont' done' : Bool} {res : Iores}
    (ht : s.ChecksTo g (s.FlushedFrom g evs) cont done (res, cont', done') s') :
    s'.Spared g s₀ ∧ (done = true ∨ done' = false ∨ s'.Paused g) := by
  cases ht with
  | room _ => exact ⟨h, by cases done <;> simp⟩
  | stay _ ht _ hk => exact ⟨h.flushedFrom (fun _ => hf) ht, Or.inr (Or.inr fun _ => ⟨ht.frame.cached, hk⟩)⟩
  | @turn t _ _ _ ho ht _ hk hu =>
    have hfr := ht.frame
    have hcur := hfr.cur
    have hcntr : t.taken.pgCntr = s.pgCntr + 1 := by
      rw [(ht.returned.trans returned_taken).pgCntr]
      exact pgCntr_flushed (fun h0 => Nat.not_lt.mpr ho (hr h0)) ho
    refine ⟨(h.flushedFrom (fun _ => hf) ht).rotatesTo (hfr.fresh.trans hf) (fun hn => ?_) hu, Or.inr (Or.inr ?_)⟩
    · rw [hfr.rot, hfr.curTurn, InUse, hfr.enqCnt]
      exact (ha (hcur ▸ hn)).rot_lt ho (hcntr ▸ hk)
    · intro _
      have hc : s'.cached = t.taken.cached ∧ s'.pgCntr = 0 := by cases hu <;> exact ⟨rfl, rfl⟩
      exact ⟨hc.1.trans hfr.cached, hc.2 ▸ g.jfsizePgs_pos⟩

theorem Spared.fresh_of_full (h : s.Spared g s₀) (hk : g.jfsizePgs ≤ s.pgCntr) : s.fresh = true := by
  by_contra hn
  have := h.turns.short (by simpa using hn)
  omega

/-- A flush of a page that is not of a record that goes on. -/
theorem Spared.turnsTo (h : s.Spared g s₀) (hp : s.Paused g) (ht : s.TurnsTo g s') :
    s'.Spared g s₀ ∧ s'.Paused g := by
  cases ht with
  | stay _ => exact ⟨h, hp⟩
  | turn hk hr =>
    have hf := h.fresh_of_full hk
    have hnone : s.cur = none := by
      by_contra hn
      have := (hp hn).2
      omega
    have hc : s'.cur = s.cur := by cases hr <;> rfl
    exact ⟨h.rotatesTo hf (fun hn => (hn hnone).elim) hr, fun hn => (hn (hc.trans hnone)).elim⟩

/-- A token in a _PART state is that of the record that goes on. -/
def Going (s : Wmgr) : Prop := ∀ tok, (s.toks tok).wstate.isPart = true → ∃ v ∈ s.cur, v.tok = tok

theorem Going.of_toks (h : s.Going) (hc : s'.cur = s.cur)
    (ht : ∀ i, (s.toks i).Returned (s'.toks i)) : s'.Going := by
  intro tok hp
  rw [hc]
  exact h tok ((ht tok).part ▸ hp)

theorem Going.of_eq (h : s.Going) (hc : s'.cur = s.cur) (ht : s'.toks = s.toks) : s'.Going := by
  intro tok hp
  rw [hc]
  exact h tok (ht ▸ hp)

theorem Going.update (h : s.Going) {tok : Nat} {t : DataTok} (hc : s'.cur = s.cur)
    (ht : s'.toks = Function.update s.toks tok t)
    (hp : t.wstate.isPart = true → (s.toks tok).wstate.isPart = true) : s'.Going := by
  intro i hi
  rw [hc]
  apply h i
  rw [ht] at hi
  by_cases hit : i = tok
  · subst hit
    rw [Function.update_self] at hi
    exact hp hi
  · rwa [Function.update_of_ne hit] at hi

section Encode

variable {op : OpType} {r : JRec} {tok : Nat}

theorem EncodesTo.going {done : Bool} (ht : s.EncodesTo g op r tok done s') (h : s.Going)
    (hc : ∀ w ∈ s.cur, w.tok = tok ∧ w.jrec = r) : s'.Going := by
  have hother : ∀ i, i ≠ tok → (s.toks i).wstate.isPart = false := by
    intro i hi
    by_contra hp
    obtain ⟨v, hv, rfl⟩ := h i (by simpa using hp)
    exact hi (hc v hv).1
  intro i hi
  cases ht with
  | part _ hh =>
    rw [hh.same.2.2] at hi
    rw [hh.frame.2.2.1]
    by_cases hit : i = tok
    · refine ⟨_, cur_encoded_eq g r tok s, ?_⟩
      cases hs : s.cur with
      | none => exact hit.symm
      | some v => exact (hc v hs).1.trans hit.symm
    · simp only [partEncoded, Wmgr.encoded, Function.update_of_ne hit, hother i hit] at hi
      cases hi
  | done _ _ _ _ hh =>
    rw [hh.same.2.2] at hi
    by_cases hit : i = tok
    · subst hit
      simp only [completed, Function.update_self, op.subm_isPart] at hi
      cases hi
    · simp only [completed, Wmgr.encoded, Function.update_of_ne hit, hother i hit] at hi
      cases hi

theorem EncodesTo.behind {done : Bool} (ht : s.EncodesTo g op r tok done s') (h : s.Behind s₀) :
    s'.Behind s₀ := by
  have he : (s.encoded g r tok).Behind s₀ := h.of_subm rfl (Or.inl rfl)
  cases ht with
  | part _ hh => exact (he.of_subm rfl (Or.inl rfl) : (s.partEncoded g op r tok).Behind s₀).headeredTo hh
  | @done _ m pend _ _ _ _ hh =>
    have hd : ({ (s.encoded g r tok).completed op r tok m with txnPending := pend } : Wmgr).Behind s₀ :=
      he.of_subm rfl (Or.inl rfl)
    exact hd.headeredTo hh

/-- The token of a record in part has the file of its first part. -/
theorem EncodesTo.headed {done : Bool} (ht : s.EncodesTo g op r tok done s') (h : s.Turns g s₀)
    (hc : ∀ w ∈ s.cur, w.tok = tok ∧ w.jrec = r) (hfid : s.headFid tok = s.curFid)
    (ho : s.pgOffset < g.pgDblks) :
    ∀ v ∈ s'.cur, (s'.toks v.tok).dblksWritten ≠ 0 ∧ (s'.toks v.tok).fid = v.fid := by
  intro v hv
  cases ht with
  | part hlt hh =>
    rw [hh.frame.2.2.1] at hv
    rw [hh.same.2.2]
    obtain rfl := Option.some.inj ((cur_encoded_eq g r tok s).symm.trans hv)
    have htok : ((s.cur.getD ⟨tok, r, s.owi, []⟩).add (s.nextPart g r tok)).tok = tok := by
      cases hs : s.cur with
      | none => rfl
      | some w => exact (hc w hs).1
    have hlt' : (s.toks tok).dblksWritten < r.recSizeDblks := Nat.lt_of_le_of_lt (Nat.le_add_right _ _) hlt
    have hpos := encodeLen_pos (g := g) ho hlt'
    rw [htok, (h.begins_add r tok).2, ← hfid]
    simp only [partEncoded, Wmgr.encoded, Function.update_self]
    exact ⟨by omega, rfl⟩
  | done _ _ _ _ hh =>
    rw [hh.frame.2.2.1] at hv
    cases hv

end Encode

theorem Appends.flushedFrom (h : s.Appends s₀) (hw : s.Follows s₀) {t : Wmgr} (ht : s.FlushedFrom g evs t) :
    t.taken.Follows s₀ :=
  (h.flushed.2 hw).returned (ht.returned.trans returned_taken)

theorem Appends.turnsTo (h : s.Appends s₀) (hw : s.Follows s₀) {t : Wmgr} (ht : s.FlushedFrom g evs t)
    (hu : t.taken.TurnsTo g s') : s'.Follows s₀ := by
  cases hu with
  | stay _ => exact h.flushedFrom hw ht
  | turn _ hr =>
    have ha : t.taken.Appends s₀ := h.flushed.1.returned (ht.returned.trans returned_taken)
    exact (ha.rotatesTo ht.frame.cached hr).2.1

theorem Behind.flushedFrom (h : s.Behind s₀) {t : Wmgr} (ht : s.FlushedFrom g evs t) : t.taken.Behind s₀ :=
  h.flushed.returned (ht.returned.trans returned_taken)

theorem Behind.checksTo (h : s.Behind s₀) (ha : s.Appends s₀) (hw : s.Follows s₀) (hf : s.fresh = true)
    {cont done : Bool} {x : Iores × Bool × Bool} (ht : s.ChecksTo g (s.FlushedFrom g evs) cont done x s') :
    s'.Behind s₀ := by
  cases ht with
  | room _ => exact h
  | stay _ ht _ _ => exact h.flushedFrom ht
  | turn _ ht _ _ hu => exact (h.flushedFrom ht).rotatesTo (ha.flushedFrom hw ht) (ht.frame.fresh.trans hf) hu

theorem Behind.turnsTo (h : s.Behind s₀) (hw : s.Follows s₀) (hs : s.Spared g s₀) (ht : s.TurnsTo g s') :
    s'.Behind s₀ := by
  cases ht with
  | stay _ => exact h
  | turn hk hr => exact h.rotatesTo hw (hs.fresh_of_full hk) hr

end Wmgr

namespace Sys

variable {g : Geom} {s s' : Sys} {s₀ : Wmgr} {c : Call} {evs : List Nat}

/-- A record in progress ends before the ring comes round to its own beginning, or some file is in use; what
is complete is taken by the maps; pages fit into their files, and no flush turns the ring to a file with
outstanding writes. -/
def Spares (g : Geom) (s : Sys) : Act → Prop
  | .step _ => match s.ctl with
    | .encode c r _ => s.w.EndsAhead g r c.tok ∧ (r.recSizeDblks ≤ s.w.dblksAfter g r c.tok →
        (∃ m, Maps.complete (s.w.headFid c.tok) r s.w.maps = .ok () m) ∧
          ∀ xid ∈ r.endXid, xid ∉ s.w.txnPending)
    | .check _ _ _ _ => g.pgDblks ≤ s.w.pgOffset → s.w.Room g
    | _ => True
  | .flush evs => (s.w.cached ≠ 0 → s.w.Room g) ∧ ¬s.w.TurnsBusy g evs
  | _ => True

instance decidableSpares : (a : Act) → Decidable (s.Spares g a)
  | .flush evs => inferInstanceAs (Decidable ((s.w.cached ≠ 0 → s.w.Room g) ∧ ¬s.w.TurnsBusy g evs))
  | .token _ _ => isTrue trivial
  | .step _ => match hc : s.ctl with
    | .failed => isTrue (by simp only [Spares, hc])
    | .check .. => decidable_of_iff (g.pgDblks ≤ s.w.pgOffset → s.w.Room g) (by simp only [Spares, hc])
    | .encode c r _ => decidable_of_iff (s.w.EndsAhead g r c.tok ∧ (r.recSizeDblks ≤ s.w.dblksAfter g r c.tok →
        (∃ m, Maps.complete (s.w.headFid c.tok) r s.w.maps = .ok () m) ∧
          ∀ xid ∈ r.endXid, xid ∉ s.w.txnPending)) (by simp only [Spares, hc])
    | .idle => isTrue (by simp only [Spares, hc])
    | .fileWait _ => isTrue (by simp only [Spares, hc])
    | .pageWait _ => isTrue (by simp only [Spares, hc])
  | .collect _ => isTrue trivial
  | .call _ => isTrue trivial

theorem Spares.clear {a : Act} (h : s.Spares g a) : s.Clear g a := by
  cases a with
  | step evs =>
    rw [Spares] at h
    rw [Clear]
    cases hs : s.ctl with
    | encode c r cont =>
      simp only [hs] at h ⊢
      exact fun _ => h.2
    | check c r cont done => simpa only [hs] using h
    | _ => trivial
  | flush evs => exact h.1
  | token tok t => trivial
  | call c => trivial
  | collect evs => trivial

theorem Spares.fair {a : Act} (h : s.Spares g a) : s.Fair g a := by
  cases a with
  | step evs =>
    rw [Spares] at h
    rw [Fair]
    cases hs : s.ctl with
    | encode c r cont =>
      simp only [hs] at h ⊢
      exact fun _ => h.2
    | _ => trivial
  | flush evs => exact h.2
  | token tok t => trivial
  | call c => trivial
  | collect evs => trivial

/-- The token of the record that goes on remembers the file in which it has begun. -/
def Headed (w : Wmgr) : Prop := ∀ v ∈ w.cur, (w.toks v.tok).dblksWritten ≠ 0 ∧ (w.toks v.tok).fid = v.fid

theorem Headed.returned {w w' : Wmgr} (h : Headed w) (hr : w.Returned w') : Headed w' := by
  intro v hv
  rw [(hr.toks v.tok).dblksWritten, (hr.toks v.tok).fid]
  exact h v (hr.cur ▸ hv)

/-- The call whose record was written in part has a record that goes on. -/
def Resting (g : Geom) (s : Sys) : Prop := s.w.Paused g ∧ (s.part ≠ none → s.w.cur ≠ none)

def PlaceAt (g : Geom) (s : Sys) : Prop :=
  match s.ctl with
  | .check _ _ _ done => done = false → s.w.cur ≠ none ∧ s.w.PosAhead g
  | .encode c _ _ => s.w.cur = none → (s.w.toks c.tok).dblksWritten = 0
  | .fileWait _ => s.Resting g
  | .pageWait _ => s.Resting g
  | .failed => s.Resting g
  | .idle => s.Resting g

structure Sparing (g : Geom) (s : Sys) (s₀ : Wmgr) : Prop where
  w : s.w.Spared g s₀
  headed : Headed s.w
  going : s.w.Going
  place : s.PlaceAt g
  behind : s.w.Behind s₀
  follows : s.ctl = .failed → s.w.Follows s₀

theorem Sparing.toFollows (h : s.Sparing g s₀) (ha : s.Appends s₀) : s.w.Follows s₀ := by
  by_cases hs : s.ctl = .failed
  · exact h.follows hs
  · exact ha.follows hs

/-- Where the writer has not begun with the record of the call, or rests in it. -/
structure Unbegun (g : Geom) (s₀ : Wmgr) (v : Option Written) (w : Wmgr) : Prop where
  appends : w.Appends s₀ ∧ w.Follows s₀ ∧ w.resetOk = w.fresh
  spared : w.Spared g s₀
  cur : w.cur = v
  paused : w.Paused g
  behind : w.Behind s₀
  going : w.Going

theorem unentered_unbegun (v : Option Written) : Wmgr.Unentered c (Unbegun g s₀ v) where
  reset w ok w' h hr ht := by
    obtain ⟨h1, h2, h3, h4, h5, h6⟩ := h
    have ha := Wmgr.unentered_appends (c := c).reset w ok w' h1 hr ht
    have hs := h2.resetTo (h1.2.2 ▸ hr) ht
    cases ht with
    | held _ => exact ⟨ha, hs, h3, h4, h5.of_subm rfl (Or.inl rfl), h6⟩
    | reset _ _ => exact ⟨ha, hs, h3, h4, h5.of_subm rfl (Or.inl rfl), h6⟩
  use w h hp := by
    obtain ⟨h1, h2, h3, h4, h5, h6⟩ := h
    exact ⟨Wmgr.unentered_appends (c := c).use w h1 hp, h2.returned Wmgr.returned_used, h3, h4,
      h5.returned Wmgr.returned_used, h6⟩
  rid w n h := by
    obtain ⟨h1, h2, h3, h4, h5, h6⟩ := h
    exact ⟨Wmgr.unentered_appends (c := c).rid w n h1, h2.of_toks rfl rfl rfl rfl rfl rfl rfl rfl rfl
      ⟨h2.protects.maps, h2.protects.fids⟩ h2.unwritten, h3, h4, h5, h6⟩
  busy w h := by
    obtain ⟨h1, h2, h3, h4, h5, h6⟩ := h
    exact ⟨Wmgr.unentered_appends (c := c).busy w h1, h2.of_toks rfl rfl rfl rfl rfl rfl rfl rfl rfl
      ⟨h2.protects.maps, h2.protects.fids⟩ h2.unwritten, h3, h4, h5, h6⟩
  tok w t h htakes hst hpg hfid hd := by
    obtain ⟨h1, h2, h3, h4, h5, h6⟩ := h
    have hx : w.fcIndex < g.numJfiles := h2.turns.index ▸ Nat.mod_lt _ g.numJfiles_pos
    have hg := Wmgr.unentered_guards.tok w t (Wmgr.Guards.start hx h2.protects) htakes hst hpg hfid hd
    refine ⟨Wmgr.unentered_appends.tok w t h1 htakes hst hpg hfid hd,
      h2.of_toks rfl rfl rfl rfl rfl rfl rfl rfl rfl hg.protects ?_, h3, h4, h5,
      h6.update rfl rfl fun hp => hst ▸ hp⟩
    apply Wmgr.unwritten_update h2.unwritten
    rw [hst]
    rcases hd with hd | hd
    · exact fun _ => hd
    · exact hd ▸ h2.unwritten c.tok

theorem headed_of_eq {w w' : Wmgr} (h : Headed w) (hc : w'.cur = w.cur) (ht : w'.toks = w.toks) :
    Headed w' := by
  intro v hv
  rw [ht]
  exact h v (hc ▸ hv)

theorem headed_of_none {w : Wmgr} (h : w.cur = none) : Headed w := by
  intro v hv
  rw [h] at hv
  cases hv

theorem EntersTo.sparing (ht : s.EntersTo g c s') (h : s.Ready g c) (hr : Rests s.part s.w)
    (hu : Unbegun g s₀ s.w.cur s.w) (hh : Headed s.w) (hp : s.part ≠ none → s.w.cur ≠ none) :
    s'.Sparing g s₀ := by
  have hent := Wmgr.wp_enter (g := g) (c := c) (unentered_unbegun s.w.cur) hu
  have hrefused : ∀ {w : Wmgr}, Wmgr.Refused c (Unbegun g s₀ s.w.cur) s.w w →
      (Headed w ∧ w.Going) ∧ w.Spared g s₀ ∧ (w.Paused g ∧ (s.part ≠ none → w.cur ≠ none)) ∧ w.Behind s₀ ∧
        w.Follows s₀ := by
    intro w hw
    refine ⟨⟨?_, hw.inv.going⟩, hw.inv.spared, ⟨hw.inv.paused, hw.inv.cur ▸ hp⟩, hw.inv.behind,
      hw.inv.appends.2.1⟩
    rcases hw.toks with htoks | ⟨hfree, -⟩
    · exact headed_of_eq hh hw.inv.cur htoks
    · exact headed_of_none (hw.inv.cur.trans (h.cur_of_free hr hfree))
  cases ht with
  | encode he =>
    have ha := wp_of_ok hent he
    rename_i r cont w
    have hplace : Headed w ∧ (w.cur = none → (w.toks c.tok).dblksWritten = 0) := by
      cases cont with
      | true =>
        obtain ⟨-, hst, htoks, -⟩ := ha.goesOn rfl
        have hpart : s.part = some c := by
          rcases h.own with hown | hown
          · exact hown
          · rw [hst, c.op.part_isPart] at hown
            cases hown
        refine ⟨headed_of_eq hh ha.inv.cur htoks, fun hn => ?_⟩
        exact (hp (by rw [hpart]; rintro ⟨⟩) (ha.inv.cur ▸ hn)).elim
      | false =>
        obtain ⟨hfree, -, -, -, hd⟩ := ha.fresh rfl
        refine ⟨headed_of_none (ha.inv.cur.trans (h.cur_of_free hr hfree)), fun _ => ?_⟩
        rcases hd with hd | ⟨hop, hd⟩
        · exact hd
        · -- the token of an enqueue is a new one, for none is written in part
          have hw := ha.passed.takes.1 hop
          have hnone : (s.w.toks c.tok).wstate = .none := by
            simp only [DataTok.isWritable, ha.wstate, Bool.or_eq_true, decide_eq_true_eq] at hw
            refine hw.resolve_right fun hpart => ?_
            rcases h.own with hown | hown
            · have hb := (h.busy c.op).mpr ⟨c, hown, rfl⟩
              rw [hfree] at hb
              cases hb
            · rw [hpart] at hown
              cases hown
          rw [hd]
          exact hu.spared.unwritten c.tok hnone
    exact ⟨ha.inv.spared, hplace.1, ha.inv.going, hplace.2, ha.inv.behind, fun _ => ha.inv.appends.2.1⟩
  | wait he =>
    obtain ⟨h1, h2, h3, h4, h5⟩ := hrefused (wp_of_ok hent he).1
    exact ⟨h2, h1.1, h1.2, h3, h4, fun _ => h5⟩
  | done he =>
    obtain ⟨h1, h2, h3, h4, h5⟩ := hrefused (wp_of_ok hent he).1
    exact ⟨h2, h1.1, h1.2, h3, h4, fun _ => h5⟩
  | assert he =>
    have hw := wp_of_error hent he
    obtain ⟨h1, h2, h3, h4, h5⟩ := hrefused hw
    exact ⟨h2, h1.1, h1.2, h3, h4, fun _ => h5⟩
  | refused he =>
    have hw := wp_of_error hent he
    obtain ⟨h1, h2, h3, h4, h5⟩ := hrefused hw
    exact ⟨h2, h1.1, h1.2, h3, h4, fun _ => h5⟩

theorem released_sparing {w : Wmgr} (h : w.Spared g s₀) (hb : w.Behind s₀) :
    (released c w).Spared g s₀ ∧ (released c w).Behind s₀ ∧ (w.Paused g → (released c w).Paused g) ∧
      (released c w).cur = w.cur ∧ (released c w).toks = w.toks := by
  rw [released]
  split
  · exact ⟨h.of_toks rfl rfl rfl rfl rfl rfl rfl rfl rfl ⟨h.protects.maps, h.protects.fids⟩ h.unwritten,
      hb.of_subm rfl (Or.inl rfl), id, rfl, rfl⟩
  · exact ⟨h, hb, id, rfl, rfl⟩

/-- What rests goes on to rest. -/
theorem Resting.of_cur {w : Wmgr} (h : s.Resting g) (hc : w.cur = s.w.cur) (hd : w.cached = s.w.cached)
    (hk : w.pgCntr = s.w.pgCntr) : Resting g { s with w := w } := by
  refine ⟨fun hn => ?_, fun hp => ?_⟩
  · change w.cur ≠ none at hn
    change w.cached = 0 ∧ w.pgCntr < g.jfsizePgs
    rw [hd, hk]
    exact h.1 (hc ▸ hn)
  · change w.cur ≠ none
    rw [hc]
    exact h.2 hp

theorem ProceedsTo.sparing (ht : s.ProceedsTo g evs s') (h : s.Sparing g s₀) (ha : s.Appends s₀)
    (hcur : s.CurAt) (hi : s.InOrder g) (hst : s.Steady g) (hc : s.Spares g (.step evs)) :
    s'.Sparing g s₀ := by
  obtain ⟨hw, hhead, hgo, hplace, hb, hfail⟩ := h
  have hfresh := ha.ctl
  have hctl := hst.ctl
  have hroom := hi.room
  cases ht with
  | encoded hs he =>
    simp only [FreshAt, CurAt, PlaceAt, RoomAt, Spares, hs] at hfresh hcur hplace hroom hc
    have hto := wp_of_ok (Wmgr.wp_encodePart_to _) he
    rename_i c r cont done w
    have hfid : s.w.headFid c.tok = s.w.curFid := by
      cases hv : s.w.cur with
      | none => simp [Wmgr.headFid, Wmgr.curFid, hv, hplace hv]
      | some v =>
        obtain ⟨h1, h2⟩ := hhead v hv
        rw [(hcur.cur v hv).1] at h1 h2
        simp [Wmgr.headFid, Wmgr.curFid, hv, h1, h2]
    exact ⟨hto.spared hw hfresh.1 hcur.cur hfid hc.1, hto.headed hw.turns hcur.cur hfid hroom,
      hto.going hgo hcur.cur,
      (hto.ahead hw hc.1).2, hto.behind hb, by rintro ⟨⟩⟩
  | encodeFailed hs he =>
    simp only [RoomAt, Spares, hs] at hroom hc
    cases wp_of_error (Wmgr.wp_encodePart_to _) he with
    | full hf => exact (Nat.not_lt.mpr hf hroom).elim
    | maps m hd hm =>
      obtain ⟨⟨m', hok⟩, hx⟩ := hc.2 hd
      rcases hm with hm | ⟨xid, hxid, hmem⟩
      · exact (hm m' hok).elim
      · exact (hx xid hxid hmem).elim
  | checked hs he =>
    simp only [FreshAt, CurAt, PlaceAt, AtCtl, RoomAt, hs] at hfresh hcur hplace hctl hroom
    have hf := ha.follows (by rw [hs]; rintro ⟨⟩)
    have hto := wp_of_ok (Wmgr.wp_flushCheck_steady hst.w _ _ evs) he
    obtain ⟨-, h2, h3, -⟩ := hto.steady hst.w hctl.1
    obtain ⟨rfl, -⟩ := h3 rfl
    obtain ⟨hne, hpos⟩ := hplace rfl
    have hsame := cur_checksTo hto
    refine ⟨(hw.checksTo hfresh.1.1 hroom (fun _ => hpos) hto).1, fun v hv => ?_, hgo.of_toks hsame h2,
      fun hn => ?_,
      hb.checksTo ha.w hf hfresh.1.1 hto, by rintro ⟨⟩⟩
    · rw [(h2 v.tok).dblksWritten, (h2 v.tok).fid]
      exact hhead v (hsame ▸ hv)
    · exact (hne (hsame ▸ hn)).elim
  | left hs he =>
    simp only [FreshAt, CurAt, PlaceAt, AtCtl, RoomAt, hs] at hfresh hcur hplace hctl hroom
    have hf := ha.follows (by rw [hs]; rintro ⟨⟩)
    have hto := wp_of_ok (Wmgr.wp_flushCheck_steady hst.w _ _ evs) he
    obtain ⟨-, h2, -, -⟩ := hto.steady hst.w hctl.1
    have hsame := cur_checksTo hto
    rename_i c r cont done cont' res w
    have hnone : done = true → s.w.cur = none := by
      rintro rfl
      exact hcur
    have hpos : s.w.cur ≠ none → s.w.PosAhead g := by
      intro hn
      cases done with
      | true => exact (hn (hnone rfl)).elim
      | false => exact (hplace rfl).2
    obtain ⟨h5, h6⟩ := hw.checksTo hfresh.1.1 hroom hpos hto
    obtain ⟨h7, h8, h9, h10, h11⟩ := released_sparing (c := c) h5 (hb.checksTo ha.w hf hfresh.1.1 hto)
    have hpaused : (released c w).Paused g := by
      rcases h6 with h6 | h6 | h6
      · intro hn
        exact (hn (h10.trans (hsame.trans (hnone h6)))).elim
      · cases h6
      · exact h9 h6
    have hpart : (if ((released c w).toks c.tok).wstate.isPart then some c else none) ≠ none →
        (released c w).cur ≠ none := by
      intro hn
      rw [h10, hsame, h11] at *
      cases done with
      | false => exact (hplace rfl).1
      | true =>
        -- a record that is complete is not in part
        have hnot : (w.toks c.tok).wstate.isPart = false := by
          rcases (h2 c.tok).wstate with hst' | ⟨op, -, hst'⟩
          · rw [hst', hctl.2.2]
            exact c.op.subm_isPart
          · rw [hst']
            cases op <;> rfl
        rw [hnot] at hn
        exact (hn rfl).elim
    have hhead' : Headed (released c w) := by
      intro v hv
      rw [h10, hsame] at hv
      rw [h11, (h2 v.tok).dblksWritten, (h2 v.tok).fid]
      exact hhead v hv
    have hgo' : (released c w).Going := (hgo.of_toks hsame h2).of_eq h10 h11
    cases res <;> exact ⟨h7, hhead', hgo', ⟨hpaused, hpart⟩, h8, by rintro ⟨⟩⟩
  | checkFailed hs he =>
    simp only [Spares, hs] at hc
    obtain ⟨hf, hr, -⟩ := wp_of_error (Wmgr.wp_flushCheck_steady hst.w _ _ evs) he
    exact (hr (hc hf)).elim
  | pageFree hs hp he =>
    simp only [FreshAt, CurAt, PlaceAt, hs] at hfresh hcur hplace
    have hne : s.ctl ≠ .failed := by rw [hs]; rintro ⟨⟩
    exact he.sparing (hi.ready_pageWait hs) hcur ⟨⟨ha.w, ha.follows hne, hfresh⟩, hw, rfl, hplace.1, hb, hgo⟩
      hhead hplace.2
  | fileFree hs hz hr hp he =>
    simp only [FreshAt, CurAt, PlaceAt, hs] at hfresh hcur hplace
    have hne : s.ctl ≠ .failed := by rw [hs]; rintro ⟨⟩
    have hto := wp_of_ok (Wmgr.wp_wrReset_to fun _ _ => False) hr
    have happ := ha.w.resetTo hfresh.1 hto
    have hsp := hw.resetTo hfresh.1 hto
    have hready := hi.ready_fileWait hs hr hp
    rename_i c b w
    have hkeep : w.cur = s.w.cur ∧ w.toks = s.w.toks ∧ w.Paused g ∧ w.Behind s₀ := by
      cases hto with
      | held _ => exact ⟨rfl, rfl, hplace.1, hb.of_subm rfl (Or.inl rfl)⟩
      | reset _ _ => exact ⟨rfl, rfl, hplace.1, hb.of_subm rfl (Or.inl rfl)⟩
    refine he.sparing hready (hcur.of_toks hkeep.1 fun _ _ => by rw [hkeep.2.1]; exact ⟨rfl, rfl⟩)
      ⟨happ, hsp, rfl, hkeep.2.2.1, hkeep.2.2.2, hgo.of_eq hkeep.1 hkeep.2.1⟩
      (headed_of_eq hhead hkeep.1 hkeep.2.1) ?_
    change s.part ≠ none → w.cur ≠ none
    rw [hkeep.1]
    exact hplace.2
  | fileDone hs hz hr hp =>
    simp only [FreshAt, PlaceAt, hs] at hfresh hplace
    have hto := wp_of_ok (Wmgr.wp_wrReset_to fun _ _ => False) hr
    have hsp := hw.resetTo hfresh.1 hto
    cases hto with
    | held _ => exact ⟨hsp, hhead, hgo, hplace, hb.of_subm rfl (Or.inl rfl), by rintro ⟨⟩⟩
    | reset _ _ => exact ⟨hsp, hhead, hgo, hplace, hb.of_subm rfl (Or.inl rfl), by rintro ⟨⟩⟩
  | waits hs he =>
    have hr := wp_of_ok (Wmgr.returns_getEvents evs s.w) he
    refine ⟨hw.returned hr, hhead.returned hr, hgo.of_toks hr.cur hr.toks, ?_, hb.returned hr,
      fun hn => (hfail hn).returned hr⟩
    rcases hs with ⟨hs, -⟩ | ⟨hs, -⟩
    · simp only [PlaceAt, hs] at hplace ⊢
      exact Resting.of_cur (s := s) hplace hr.cur hr.cached hr.pgCntr
    · simp only [PlaceAt, hs] at hplace ⊢
      exact Resting.of_cur (s := s) hplace hr.cur hr.cached hr.pgCntr
  | waitFailed hs he => exact (wp_of_error (Wmgr.wp_getEvents_steady hst.w evs) he).elim

theorem StepsTo.sparing {a : Act} (ht : s.StepsTo g a s') (h : s.Sparing g s₀) (ha : s.Appends s₀)
    (hcur : s.CurAt) (hi : s.InOrder g) (hst : s.Steady g) (hc : s.Spares g a) : s'.Sparing g s₀ := by
  have hplace : s.ctl = .idle ∨ s.ctl = .failed → s.Resting g := by
    intro hs
    have hp := h.place
    rcases hs with hs | hs <;> simpa only [PlaceAt, hs] using hp
  have hrest : ∀ {w : Wmgr}, s.ctl = .idle ∨ s.ctl = .failed → Resting g { s with w := w } →
      PlaceAt g { s with w := w } := by
    intro w hs hw
    rcases hs with hs | hs <;> simpa only [PlaceAt, hs] using hw
  cases ht with
  | token hs hf hp =>
    rename_i tok t
    simp only [free, Bool.and_eq_true, decide_eq_true_eq, Bool.not_eq_true'] at hf
    simp only [pristine, Bool.and_eq_true, decide_eq_true_eq, Bool.or_eq_true] at hp
    have hctl := hst.ctl
    simp only [AtCtl, CurAt, hs] at hctl hcur
    refine ⟨h.w.of_toks rfl rfl rfl rfl rfl rfl rfl rfl rfl ⟨h.w.protects.maps, fun i => ?_⟩
      (Wmgr.unwritten_update h.w.unwritten fun _ => hp.1.2), fun v hv => ?_, h.going.update rfl rfl fun hpart => ?_,
      hrest (Or.inl hs) (hplace (Or.inl hs)), h.behind, h.follows⟩
    · by_cases hit : i = tok
      · subst hit
        simp only [Function.update_self]
        exact Or.inl hp.1.2
      · simp only [Function.update_of_ne hit]
        exact h.w.protects.fids i
    · obtain ⟨c, hpart, htok, -⟩ := hcur v hv
      have hct : v.tok ≠ tok := by
        rintro rfl
        rw [htok, (hctl c hpart).1, c.op.part_isPart] at hf
        cases hf.2
      simp only [Function.update_of_ne hct]
      exact h.headed v hv
    · rcases hp.2 with hw | hw <;> rw [hw] at hpart <;> cases hpart
  | call hs hg he =>
    have hfresh := ha.ctl
    have hne : s.ctl ≠ .failed := by rw [hs]; rintro ⟨⟩
    simp only [FreshAt, CurAt, hs] at hfresh hcur
    have hr := hplace (Or.inl hs)
    exact he.sparing (hi.ready_idle hs hg) hcur
      ⟨⟨ha.w, ha.follows hne, hfresh⟩, h.w, rfl, hr.1, h.behind, h.going⟩ h.headed hr.2
  | step he => exact he.sparing h ha hcur hi hst hc
  | collected hs he =>
    have hr := wp_of_ok (Wmgr.returns_getEvents _ s.w) he
    exact ⟨h.w.returned hr, h.headed.returned hr, h.going.of_toks hr.cur hr.toks,
      hrest hs ((hplace hs).of_cur hr.cur hr.cached hr.pgCntr),
      h.behind.returned hr, fun hn => (h.follows hn).returned hr⟩
  | collectFailed hs he => exact (wp_of_error (Wmgr.wp_getEvents_steady hst.w _) he).elim
  | flushed hs he =>
    obtain ⟨t, hf, hto⟩ := wp_of_ok (Wmgr.wp_flush_steady hst.w _) he
    have hp := hplace hs
    have hfr := hf.frame
    have hsp := h.w.flushedFrom (Wmgr.fresh_of_cached ha.w) hf
    have hpaused : t.taken.Paused g := by
      intro hn
      rw [hfr.cur] at hn
      obtain ⟨h0, hk⟩ := hp.1 hn
      have hsame : s.w.flushed g = s.w := if_pos h0
      refine ⟨hfr.cached, ?_⟩
      rwa [(hf.returned.trans Wmgr.returned_taken).pgCntr, hsame]
    obtain ⟨h1, h2⟩ := hsp.turnsTo hpaused hto
    rename_i w
    have hsame : w.cur = s.w.cur ∧ w.toks = t.taken.toks := by
      cases hto with
      | stay _ => exact ⟨hfr.cur, rfl⟩
      | turn _ hr => cases hr <;> exact ⟨hfr.cur, rfl⟩
    have hfol := h.toFollows ha
    refine ⟨h1, fun v hv => ?_, h.going.of_toks hsame.1 fun i => hsame.2 ▸ hf.toks i,
      hrest hs ⟨h2, fun hn => ?_⟩,
      (h.behind.flushedFrom hf).turnsTo (ha.w.flushedFrom hfol hf) hsp hto, fun _ => ha.w.turnsTo hfol hf hto⟩
    · rw [hsame.2, (hf.toks v.tok).dblksWritten, (hf.toks v.tok).fid]
      exact h.headed v (hsame.1 ▸ hv)
    · change w.cur ≠ none
      rw [hsame.1]
      exact hp.2 hn
  | flushFailed hs he =>
    obtain ⟨h0, hr, -⟩ := wp_of_error (Wmgr.wp_flush_steady hst.w _) he
    exact (hr (hc.1 h0)).elim

section Starts

private theorem sparing_start {w : Wmgr} (hl : w.log = []) (hc : w.cur = none) (hs : w.subm = [])
    (ht : w.toks = (Wmgr.init g).toks) (hx : w.fcIndex = w.rot % g.numJfiles)
    (hk : w.fresh = false → w.pgCntr < g.jfsizePgs) (hp : w.Protects g) : Sparing g ⟨w, .idle, none⟩ w := by
  have hnew : ∀ rid f, w.newest rid f = none := by simp [Wmgr.newest, hl]
  refine ⟨⟨⟨hx, hk, by simp [hs], fun t ht => ⟨ht, by simp, by simp [hs]⟩, by simp [hl, hc]⟩, ⟨?_, ?_⟩,
    Wmgr.ahead_of_none hc, hp, fun tok _ => ?_⟩, headed_of_none hc, ?_,
    ⟨fun hn => (hn hc).elim, fun hn => (hn rfl).elim⟩,
    fun r _ => ⟨w.base r, ?_⟩, by rintro ⟨⟩⟩
  · intro rid f v _ hv
    rw [hnew] at hv
    cases hv
  · exact fun rid f hh _ => ⟨hh, fun _ _ hle _ => hle⟩
  · rw [ht]
    rfl
  · intro tok hp
    rw [ht] at hp
    cases hp
  · simp only [Wmgr.writesOf, hs, List.filter_nil]
    rfl

theorem Begins.sparing (h : s.Begins g) : s.Sparing g s.w := by
  have hp := h.guards.protects
  cases h with
  | init => exact sparing_start rfl rfl rfl rfl (Nat.zero_mod _).symm (fun _ => g.jfsizePgs_pos) hp
  | recovered rd log prepared h hl hm =>
    change (Wmgr.recovered g rd).Protects g at hp
    rcases Wmgr.recovered_to g rd with he | ⟨res, hto⟩
    · rw [Sys.recovered, he]
      rw [he] at hp
      exact sparing_start rfl rfl rfl rfl (Wmgr.index_resumed h) (by rintro ⟨⟩) hp
    · rw [Sys.recovered]
      have hx := Wmgr.index_turned (Wmgr.index_resumed (g := g) h)
      revert hto hp
      generalize Wmgr.recovered g rd = w
      intro hp hto
      cases hto <;> exact sparing_start rfl rfl rfl rfl hx (fun _ => g.jfsizePgs_pos) hp

end Starts

/-- A record that is being written, or that is enqueued, also in an open transaction. -/
def Needs (s : Sys) (w : Written) : Prop :=
  s.w.cur = some w ∨ ∃ rid f, s.w.maps.view.Has rid f ∧ s.w.newest rid f = some w

/-- What is in a _PART state goes on. Since a part of a record that is needed was encoded, its file has not been
reset, and what has been written to the file belongs to the same turn of the ring. The same holds for the files
from the one in which a record begins that the start has found, to the one in which the start has left off. -/
structure NeverOverwrites (g : Geom) (s : Sys) (s₀ : Wmgr) : Prop where
  going : s.w.Going
  kept : ∀ w, s.Needs w → ∀ p ∈ w.parts, s.w.Kept p
  found : ∀ rid f, s.w.maps.view.Has rid f → s.w.newest rid f = none → s₀.maps.view.Has rid f ∧
    ∀ t < s₀.entered, s₀.entered ≤ t + g.numJfiles → t % g.numJfiles = f →
      ∀ u, t ≤ u → u < s₀.entered → s.w.KeptSince (u % g.numJfiles) u s₀.resets.length 0
  apart : ∀ r, ∃ n, Tiles Write.offs Write.dblks (s₀.base r) (s.w.writesOf r) n

theorem Sparing.neverOverwrites (h : s.Sparing g s₀) (ha : s.Appends s₀) : s.NeverOverwrites g s₀ := by
  have ht := h.w.turns
  refine ⟨h.going, ?_, ?_, ?_⟩
  · intro w hw p hp
    have hmem : w ∈ s.w.log ∨ w ∈ s.w.cur := by
      rcases hw with hw | ⟨rid, f, -, hw⟩
      · exact Or.inr hw
      · exact Or.inl (Wmgr.mem_of_newest hw).1
    have hent : s.w.entered ≤ w.turn + g.numJfiles := by
      rcases hw with hw | ⟨rid, f, hh, hw⟩
      · have he := h.w.ahead.entered
        rwa [Wmgr.curTurn, hw] at he
      · exact h.w.holds.encoded rid f w hh hw
    obtain ⟨h1, h2, h3⟩ := (ht.parts w hmem).2 p hp
    rw [Wmgr.Kept, h1]
    exact h3.kept ht.sent h2 hent
  · intro rid f hh hn
    obtain ⟨h1, h2⟩ := h.w.holds.found rid f hh hn
    exact ⟨h1, fun t hlt hle hf u hu hlt' => (ht.found u hlt').kept ht.sent hu (h2 t hlt hle hf)⟩
  · intro r
    rcases Nat.lt_trichotomy r s.w.rot with hlt | rfl | hgt
    · exact h.behind r hlt
    · by_cases hf : s.w.fresh = true
      · exact ⟨_, h.toFollows ha hf⟩
      · rw [(ha.w.stale (by simpa using hf)).1]
        exact ⟨_, rfl⟩
    · have hnone : s.w.writesOf r = [] := by
        rw [Wmgr.writesOf, List.filter_eq_nil_iff]
        intro w hw
        have := ha.w.inst w hw
        simp only [decide_eq_true_eq]
        omega
      rw [hnone]
      exact ⟨_, rfl⟩

/-- In every run, no file is reset or overwritten that holds some of a record that is needed. -/
theorem run_neverOverwrites (hs : s.Begins g) {acts : List Act} (hc : s.Along g (Spares g) acts)
    (hr : s.run g acts = some s') : s'.NeverOverwrites g s.w := by
  have h : s'.Sparing g s.w ∧ s'.Appends s.w ∧ (s'.w.Tracked ∧ s'.CurAt) ∧ s'.InOrder g ∧ s'.Steady g := by
    apply run_preserves
      (J := fun t => t.Sparing g s.w ∧ t.Appends s.w ∧ (t.w.Tracked ∧ t.CurAt) ∧ t.InOrder g ∧ t.Steady g) _
      ⟨hs.sparing, hs.start.appends, hs.start.tracked, hs.start.inOrder, hs.start.steady⟩ hc hr
    intro t a u ht hspares hu
    obtain ⟨h1, h2, ⟨h3, h4⟩, h5, h6⟩ := ht
    exact ⟨hu.sparing h1 h2 h4 h5 h6 hspares, hu.appends h2 h5 hspares.fair,
      hu.tracked h3 h4 h5 h6 hspares.clear, hu.inOrder h5, hu.steady h6 fun _ => hspares.clear⟩
  exact h.1.neverOverwrites h.2.1

/-- The ring turns onto file 0 again when the record there has been dequeued. Record 2 lies in files 2 and 3. -/
def againRun : List Act :=
  .call (.enqueue 0 140000 140000 [] false false) :: (List.replicate 10 (.step []) ++
    [.flush [], .collect [0, 1, 2, 3, 4, 5, 6, 7], .call (.dequeue 0 [] false), .step [], .step []] ++
    .call (.enqueue 1 60000 60000 [] false false) :: (List.replicate 6 (.step []) ++
      .call (.enqueue 2 64000 64000 [] false false) :: List.replicate 6 (.step [])))

theorem againRun_neverOverwrites : ∃ s, (init fourFiles).run fourFiles againRun = some s ∧
    s.NeverOverwrites fourFiles (init fourFiles).w ∧ s.w.resets = [0, 1, 2, 3, 0] ∧
    (s.w.newest 2 2).map (fun w => w.parts.map Part.fid) = some [2, 2, 3] := by
  have hc : (init fourFiles).Along fourFiles (Spares fourFiles) againRun := by decide +kernel
  have hr : ((init fourFiles).run fourFiles againRun).map
      (fun s => (s.w.resets, (s.w.newest 2 2).map fun w => w.parts.map Part.fid)) =
        some ([0, 1, 2, 3, 0], some [2, 2, 3]) := by
    decide +kernel
  obtain ⟨s, hs, he⟩ := Option.map_eq_some_iff.mp hr
  simp only [Prod.mk.injEq] at he
  exact ⟨s, hs, run_neverOverwrites .init hc hs, he⟩

/-- A record a dblk longer than the ring. No file is in use, so `enq_threshold` lets it pass, and with its part
in file 3 full the ring turns onto file 0, where it has begun. -/
def overlongRun : List Act :=
  .call (.enqueue 0 262144 262144 [] false false) ::
    ([[0, 1], [2], [3, 4], [5], [6, 7], [8], [9, 10], [11]].map fun evs => [.step [], .step evs]).flatten

theorem overlongRun_not_neverOverwrites : ¬ ∀ (g : Geom) (s s' : Sys) (acts : List Act), s.Begins g →
    s.run g acts = some s' → s'.NeverOverwrites g s.w := by
  intro h
  have hr : ((init fourFiles).run fourFiles overlongRun).map (fun s => (s.w.resets,
      s.w.cur.map fun w => w.parts.head?.map fun p => (p.fid, p.stamp))) =
        some ([0, 1, 2, 3, 0], some (some (0, 1))) := by
    decide +kernel
  obtain ⟨s, hs, he⟩ := Option.map_eq_some_iff.mp hr
  simp only [Prod.mk.injEq] at he
  obtain ⟨hres, hcur⟩ := he
  obtain ⟨w, hw, hpart⟩ := Option.map_eq_some_iff.mp hcur
  obtain ⟨p, hp, hpe⟩ := Option.map_eq_some_iff.mp hpart
  simp only [Prod.mk.injEq] at hpe
  have hkept := (h fourFiles _ s overlongRun .init hs).kept w (Or.inl hw) p (List.mem_of_mem_head? hp)
  apply hkept.notReset
  rw [hres, hpe.1, hpe.2]
  decide

end Sys

end RhmStore
