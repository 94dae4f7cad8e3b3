import RhmStore.Writer.Returned

/-! # What the parts of the write manager do

Each outcome is said once, with what the code has checked for it. -/

namespace RhmStore

def JRec.endXid : JRec → Option Xid
  | txa _ xid => some xid
  | txc _ xid => some xid
  | _ => none

namespace Wmgr

variable {g : Geom} {s s' : Wmgr}

def used (s : Wmgr) : Wmgr := { s with
  pages := Function.update s.pages s.pgIndex { s.pages s.pgIndex with state := .inUse } }

def taken (s : Wmgr) : Wmgr := if (s.pages s.pgIndex).state = .unused then s.used else s

theorem wp_takePage {Q : PUnit → Wmgr → Prop} {E : JErr → Wmgr → Prop} :
    wp takePage Q E s ↔ Q ⟨⟩ s.taken := by
  rw [takePage, wp_bind, wp_get, taken]
  by_cases h : (s.pages s.pgIndex).state = .unused
  · rw [if_pos h, if_pos h]
    rfl
  · rw [if_neg h, if_neg h]
    rfl

/-- The current file as `wr_reset` leaves it where it accepts it. -/
def afterReset (s : Wmgr) : Wmgr := { s with
  fcntls := Function.update s.fcntls s.fcIndex { s.fcntls s.fcIndex with wrSubm := 0, wrCmpl := 0 }
  resetOk := true
  resets := s.resets ++ [s.fcIndex]
  fresh := true }

/-- What `wr_reset` of the current file does. -/
inductive ResetTo (s : Wmgr) : Bool → Wmgr → Prop
  | held (h : s.maps.enqCnt.getD s.fcIndex 0 ≠ 0 ∨ (s.fcntls s.fcIndex).aioCnt ≠ 0) :
    ResetTo s false { s with resetOk := false }
  | reset (he : s.maps.enqCnt.getD s.fcIndex 0 = 0) (ha : (s.fcntls s.fcIndex).aioCnt = 0) :
    ResetTo s true s.afterReset

theorem wp_wrReset_to (E : JErr → Wmgr → Prop) : wp wrReset s.ResetTo E s := by
  simp only [wrReset, wp_bind, wp_get]
  split
  · exact .held ‹_›
  · rename_i h
    rw [not_or, not_not, not_not] at h
    exact .reset h.1 h.2

def turned (g : Geom) (s : Wmgr) : Wmgr := { s with
  pgCntr := 0
  fcIndex := if s.fcIndex + 1 = g.numJfiles then 0 else s.fcIndex + 1
  rot := s.rot + 1
  fresh := false
  owi := if s.fcIndex + 1 = g.numJfiles then !s.owi else s.owi
  frot := if s.fcIndex + 1 = g.numJfiles then false else s.frot }

/-- What `rotate_file` does: the next file has outstanding writes, or it is reset, or it is not. -/
inductive RotatesTo (g : Geom) (s : Wmgr) : Iores → Wmgr → Prop
  | wait (h : ((s.turned g).fcntls (s.turned g).fcIndex).aioCnt ≠ 0) :
    RotatesTo g s .fileAioWait (s.turned g)
  | full (h : s.maps.enqCnt.getD (s.turned g).fcIndex 0 ≠ 0) :
    RotatesTo g s .full { s.turned g with resetOk := false }
  | reset (he : s.maps.enqCnt.getD (s.turned g).fcIndex 0 = 0)
    (ha : ((s.turned g).fcntls (s.turned g).fcIndex).aioCnt = 0) :
    RotatesTo g s .success (s.turned g).afterReset

theorem wp_rotateFile_to (E : JErr → Wmgr → Prop) : wp (rotateFile g) (s.RotatesTo g) E s := by
  have key : wp (if ((s.turned g).fcntls (s.turned g).fcIndex).aioCnt ≠ 0 then
      pure Iores.fileAioWait
      else wrReset >>= fun ok => pure (if ok then Iores.success else .full))
      (s.RotatesTo g) E (s.turned g) := by
    split
    · exact .wait ‹_›
    · rename_i ha
      rw [wp_bind]
      refine wp_mono (wp_wrReset_to E) (fun ok t ht => ?_) (fun _ _ he => he)
      cases ht with
      | held h =>
        rcases h with h | h
        · exact .full h
        · exact (ha h).elim
      | reset he ha => exact .reset he ha
  simp only [rotateFile, rotate, wp_bind, wp_modify, wp_get]
  by_cases h : s.fcIndex + 1 = g.numJfiles
  · rw [if_pos h]
    simp only [turned, if_pos h] at key
    exact key
  · rw [if_neg h]
    simp only [turned, if_neg h] at key
    exact key

/-- A recovery behind a full file turns the ring. -/
theorem recovered_full_to (g : Geom) {rd : Rcvdat} (hl : rd.lffull = true) :
    ∃ res, (resumed g rd).RotatesTo g res (recovered g rd) := by
  have hk : { resumed g rd with pgCntr := 0 } = resumed g rd := by simp [resumed, hl]
  have h := wp_rotateFile_to (s := resumed g rd) (g := g) fun _ _ => False
  rw [rotateFile, wp_bind, wp_modify, hk] at h
  rw [recovered, if_pos hl]
  cases hr : rotate g (resumed g rd) with
  | ok res s => exact ⟨res, wp_of_ok h hr⟩
  | error e s => exact (wp_of_error h hr).elim

theorem recovered_to (g : Geom) (rd : Rcvdat) : recovered g rd = resumed g rd ∨
    ∃ res, (resumed g rd).RotatesTo g res (recovered g rd) := by
  by_cases hl : rd.lffull = true
  · exact Or.inr (recovered_full_to g hl)
  · exact Or.inl (by rw [recovered, if_neg hl])

/-- The header `h` of the current file is on its way. -/
def fhdrSubmitted (s : Wmgr) (h : FileHdr) : Wmgr := { s with
  aioEvtRem := s.aioEvtRem + 1
  fcntls := Function.update s.fcntls s.fcIndex { s.fcntls s.fcIndex with
    wrSubm := (s.fcntls s.fcIndex).wrSubm + jrnlSblkSize
    aioCnt := (s.fcntls s.fcIndex).aioCnt + 1
    wrFhdrAioOutstanding := true }
  subm := s.subm ++ [⟨s.fcIndex, 0, jrnlSblkSize, fun i => if i = 0 then .fhdr h else .pad, none,
    s.rot⟩]
  pending := s.pending ++ [s.subm.length] }

/-- What `file_header_check` does. -/
inductive HeaderedTo (s : Wmgr) : Wmgr → Prop
  | kept (h : (s.fcntls s.fcIndex).wrSubm ≠ 0) : HeaderedTo s s
  | written (h : (s.fcntls s.fcIndex).wrSubm = 0) (hdr : FileHdr) :
    HeaderedTo s (s.fhdrSubmitted hdr)

theorem wp_fileHeaderCheck_to (rid : Nat) (cont : Bool) (rem : Nat) (E : JErr → Wmgr → Prop) :
    wp (fileHeaderCheck g rid cont rem) (fun _ => s.HeaderedTo) E s := by
  simp only [fileHeaderCheck, wp_bind, wp_get]
  by_cases h0 : (s.fcntls s.fcIndex).wrSubm = 0
  · have hle := g.fileDblks_le
    rw [if_pos h0]
    generalize g.fro cont rem = fro
    simp only [writeFhdr, submit, addSubmCntDblks, modFcntl, wp_bind, wp_get, wp_modify, h0]
    rw [if_neg (by omega), wp_modify]
    simp only [Function.update_idem, Function.update_self]
    exact .written h0 ⟨rid, s.fcIndex, s.fcIndex, fro, s.owi⟩
  · rw [if_neg h0]
    exact .kept h0

def fillLen (s : Wmgr) : Nat := sizeBlks s.cached jrnlSblkSize * jrnlSblkSize - s.cached

/-- What is in the page, filled up, fits into the file: `add_subm_cnt_dblks` takes it. -/
def Room (g : Geom) (s : Wmgr) : Prop :=
  (s.fcntls s.fcIndex).wrSubm + (s.cached + s.fillLen) ≤ g.ffullDblks

instance : Decidable (s.Room g) := inferInstanceAs (Decidable (_ ≤ _))

/-- The page, filled up, is on its way to the current file, and the next page is the current one. -/
def pageSubmitted (g : Geom) (s : Wmgr) : Wmgr :=
  let v := s.rounded g
  let p := v.pages v.pgIndex
  { v with
    pages := Function.update v.pages v.pgIndex
      { p with wdblks := v.cached, wfh := v.fcIndex, state := .aioPending }
    fcntls := Function.update v.fcntls v.fcIndex { v.fcntls v.fcIndex with
      wrSubm := (v.fcntls v.fcIndex).wrSubm + v.cached
      aioCnt := (v.fcntls v.fcIndex).aioCnt + 1 }
    subm := v.subm ++ [⟨v.fcIndex, (v.fcntls v.fcIndex).wrSubm, v.cached,
      fun i => p.buff (v.pgOffset - v.cached + i), some v.pgIndex, v.rot⟩]
    pending := v.pending ++ [v.subm.length]
    aioEvtRem := v.aioEvtRem + 1
    cached := 0
    pgOffset := if g.pgDblks ≤ v.pgOffset then 0 else v.pgOffset
    pgCntr := if g.pgDblks ≤ v.pgOffset then v.pgCntr + 1 else v.pgCntr
    pgIndex := if g.numPages ≤ v.pgIndex + 1 then 0 else v.pgIndex + 1 }

/-- The page, filled up, is on its way to a file that it does not fit into, and is not counted. -/
def overrun (g : Geom) (s : Wmgr) : Wmgr :=
  let v := s.rounded g
  let p := v.pages v.pgIndex
  { v with
    pages := Function.update v.pages v.pgIndex { p with wdblks := v.cached, wfh := v.fcIndex }
    subm := v.subm ++ [⟨v.fcIndex, (v.fcntls v.fcIndex).wrSubm, v.cached,
      fun i => p.buff (v.pgOffset - v.cached + i), some v.pgIndex, v.rot⟩]
    pending := v.pending ++ [v.subm.length] }

theorem wp_submitPage_of {Q : PUnit → Wmgr → Prop} {E : JErr → Wmgr → Prop}
    (h : s.Room g → Q ⟨⟩ (s.pageSubmitted g).taken) (he : ¬s.Room g → E .fileOffsOvfl (s.overrun g)) :
    wp (submitPage g) Q E s := by
  simp only [submitPage, dblkRoundup, wp_bind, wp_modify, wp_get, modPage, submit,
    addSubmCntDblks, modFcntl]
  by_cases hr : s.Room g
  · replace h := (wp_takePage (E := E)).mpr (h hr)
    have hr' : ¬g.ffullDblks <
        ((s.rounded g).fcntls (s.rounded g).fcIndex).wrSubm + (s.rounded g).cached :=
      Nat.not_lt.mpr hr
    rw [if_neg hr']
    simp only [wp_modify, rotatePage, modPage, wp_bind, wp_get, Function.update_idem,
      Function.update_self]
    by_cases hq : g.pgDblks ≤ (s.rounded g).pgOffset
    · simp only [pageSubmitted, if_pos hq] at h
      rw [if_pos hq]
      simp only [wp_bind, wp_modify]
      exact h
    · simp only [pageSubmitted, if_neg hq] at h
      rw [if_neg hq]
      simp only [wp_modify]
      exact h
  · have hr' : g.ffullDblks <
        ((s.rounded g).fcntls (s.rounded g).fcIndex).wrSubm + (s.rounded g).cached :=
      Nat.lt_of_not_le hr
    rw [if_pos hr', wp_throw]
    exact he hr

section Flush

def flushed (g : Geom) (s : Wmgr) : Wmgr := if s.cached = 0 then s else (s.pageSubmitted g).taken

theorem wp_writeFlush_of {R : Wmgr → Prop} {E : JErr → Wmgr → Prop} {evs : List Nat}
    (hp : s.cached ≠ 0 → (s.pages s.pgIndex).state ≠ .aioPending)
    (hb : s.cached ≠ 0 → (s.pages s.pgIndex).state ≠ .inUse → E .badPgState s)
    (he : s.cached ≠ 0 → ¬s.Room g → E .fileOffsOvfl (s.overrun g))
    (hev : wp (getEvents evs) (fun _ => R) E (s.flushed g)) :
    wp (writeFlush g evs) (fun res s' => res = .success ∧ ∃ t, R t ∧ s' = t.taken) E s := by
  have hend : wp (getEvents evs >>= fun _ => takePage >>= fun _ => pure Iores.success)
      (fun res s' => res = .success ∧ ∃ t, R t ∧ s' = t.taken) E (s.flushed g) := by
    rw [wp_bind]
    apply wp_mono hev _ (fun _ _ he => he)
    intro _ t ht
    rw [wp_bind, wp_takePage]
    exact ⟨rfl, t, ht, rfl⟩
  rw [writeFlush, wp_bind, wp_get]
  by_cases h0 : s.cached = 0
  · rw [if_pos h0, wp_bind, wp_pure]
    rwa [flushed, if_pos h0] at hend
  · rw [if_neg h0]
    rw [flushed, if_neg h0] at hend
    cases hs : (s.pages s.pgIndex).state with
    | inUse =>
      simp only
      rw [wp_bind]
      apply wp_submitPage_of _ (he h0)
      intro _
      rw [wp_bind, wp_pure]
      exact hend
    | unused => exact hb h0 (by rw [hs]; rintro ⟨⟩)
    | aioPending => exact (hp h0 hs).elim
    | aioComplete => exact hb h0 (by rw [hs]; rintro ⟨⟩)

inductive TurnsTo (g : Geom) (s : Wmgr) : Wmgr → Prop
  | stay (h : s.pgCntr < g.jfsizePgs) : TurnsTo g s s
  | turn {res : Iores} {t : Wmgr} (h : g.jfsizePgs ≤ s.pgCntr) (ht : s.RotatesTo g res t) :
    TurnsTo g s t

/-- The ring turns without a change of pages and tokens. -/
theorem RotatesTo.same {res : Iores} (h : s.RotatesTo g res s') : s'.pages = s.pages ∧
    s'.pgIndex = s.pgIndex ∧ s'.toks = s.toks := by
  cases h <;> exact ⟨rfl, rfl, rfl⟩

theorem TurnsTo.same (h : s.TurnsTo g s') : s'.pages = s.pages ∧ s'.pgIndex = s.pgIndex ∧
    s'.toks = s.toks := by
  cases h with
  | stay _ => exact ⟨rfl, rfl, rfl⟩
  | turn _ hr => exact hr.same

theorem RotatesTo.res_ne {res : Iores} (h : s.RotatesTo g res s') : res ≠ .pageAioWait := by
  cases h <;> decide

theorem wp_flush_of {R : Wmgr → Prop} {E : JErr → Wmgr → Prop} {evs : List Nat}
    (hp : s.cached ≠ 0 → (s.pages s.pgIndex).state ≠ .aioPending)
    (hb : s.cached ≠ 0 → (s.pages s.pgIndex).state ≠ .inUse → E .badPgState s)
    (he : s.cached ≠ 0 → ¬s.Room g → E .fileOffsOvfl (s.overrun g))
    (hev : wp (getEvents evs) (fun _ => R) E (s.flushed g)) :
    wp (flush g evs) (fun _ s' => ∃ t, R t ∧ t.taken.TurnsTo g s') E s := by
  rw [flush, wp_bind]
  apply wp_mono (wp_writeFlush_of hp hb he hev) _ (fun _ _ he => he)
  intro res u hu
  obtain ⟨-, t, ht, rfl⟩ := hu
  rw [wp_bind, wp_get]
  by_cases hk : t.taken.pgCntr < g.jfsizePgs
  · rw [if_pos hk]
    exact ⟨t, ht, .stay hk⟩
  · rw [if_neg hk, wp_bind]
    apply wp_mono (wp_rotateFile_to _) _ (fun _ _ he => he)
    intro rfres v hv
    exact ⟨t, ht, .turn (Nat.le_of_not_lt hk) hv⟩

/-- What `flush_check` does, with `R` what a flush of the page does. -/
inductive ChecksTo (g : Geom) (R : Wmgr → Prop) (s : Wmgr) (cont done : Bool) :
    Iores × Bool × Bool → Wmgr → Prop
  | room (h : s.pgOffset < g.pgDblks) : ChecksTo g R s cont done (.success, cont, done) s
  | stay {t : Wmgr} {wait : Bool} (h : g.pgDblks ≤ s.pgOffset) (ht : R t)
    (hw : wait = ((t.taken.pages t.taken.pgIndex).state = .aioPending && !done))
    (hk : t.taken.pgCntr < g.jfsizePgs) : ChecksTo g R s cont done
      (if wait then .pageAioWait else .success, cont, done || wait) t.taken
  | turn {t u : Wmgr} {wait : Bool} {rfres : Iores} (h : g.pgDblks ≤ s.pgOffset) (ht : R t)
    (hw : wait = ((t.taken.pages t.taken.pgIndex).state = .aioPending && !done))
    (hk : g.jfsizePgs ≤ t.taken.pgCntr) (hu : t.taken.RotatesTo g rfres u) :
    ChecksTo g R s cont done
      (if rfres ≠ .success then rfres else if wait then .pageAioWait else .success,
        if done || wait then cont else cont || rfres = .success,
        done || wait || rfres ≠ .success) u

theorem wp_flushCheck_of {R : Wmgr → Prop} {E : JErr → Wmgr → Prop} {evs : List Nat}
    {cont done : Bool} (hp : s.cached ≠ 0 → (s.pages s.pgIndex).state ≠ .aioPending)
    (hb : g.pgDblks ≤ s.pgOffset → s.cached ≠ 0 → (s.pages s.pgIndex).state ≠ .inUse →
      E .badPgState s)
    (he : g.pgDblks ≤ s.pgOffset → s.cached ≠ 0 → ¬s.Room g → E .fileOffsOvfl (s.overrun g))
    (hev : g.pgDblks ≤ s.pgOffset → wp (getEvents evs) (fun _ => R) E (s.flushed g)) :
    wp (flushCheck g cont done evs) (s.ChecksTo g R cont done) E s := by
  rw [flushCheck, wp_bind, wp_get]
  by_cases hfull : s.pgOffset < g.pgDblks
  · rw [if_pos hfull]
    exact .room hfull
  · have hle := Nat.le_of_not_lt hfull
    rw [if_neg hfull, wp_bind]
    apply wp_mono (wp_writeFlush_of hp (hb hle) (he hle) (hev hle)) _ (fun _ _ he => he)
    intro res u hu
    obtain ⟨rfl, t, ht, rfl⟩ := hu
    rw [if_neg (by simp), wp_bind, wp_get]
    simp only
    generalize hw : ((t.taken.pages t.taken.pgIndex).state = .aioPending && !done : Bool) = wait
    by_cases hk : t.taken.pgCntr < g.jfsizePgs
    · rw [if_pos hk]
      exact .stay hle ht hw.symm hk
    · rw [if_neg hk, wp_bind]
      apply wp_mono (wp_rotateFile_to _) _ (fun _ _ he => he)
      intro rfres v hv
      have hto : s.ChecksTo g R cont done _ _ := .turn hle ht hw.symm (Nat.le_of_not_lt hk) hv
      by_cases hd : (done || wait) = true
      · rw [if_pos hd, hd] at hto
        rw [if_pos hd]
        simpa using hto
      · rw [if_neg hd, Bool.eq_false_iff.mpr hd] at hto
        rw [if_neg hd]
        simpa using hto

end Flush

section Encode

variable {op : OpType} {r : JRec} {tok : Nat}

def partEncoded (g : Geom) (op : OpType) (r : JRec) (tok : Nat) (s : Wmgr) : Wmgr :=
  let u := s.encoded g r tok
  { u with toks := Function.update u.toks tok { u.toks tok with wstate := op.part } }

def completed (op : OpType) (r : JRec) (tok : Nat) (u : Wmgr) (m : Maps) : Wmgr := { u with
  toks := Function.update u.toks tok { u.toks tok with
    wstate := op.subm
    dsize := match r with
      | .enq _ _ dsize _ _ => dsize
      | _ => (u.toks tok).dsize }
  log := u.log ++ u.cur.toList
  cur := none
  maps := m }

def headFid (s : Wmgr) (tok : Nat) : Nat :=
  if (s.toks tok).dblksWritten = 0 then s.fcIndex else (s.toks tok).fid

def dblksAfter (g : Geom) (r : JRec) (tok : Nat) (s : Wmgr) : Nat :=
  (s.toks tok).dblksWritten + s.encodeLen g r tok

/-- What one turn of the loop does up to `flush_check`. -/
inductive EncodesTo (g : Geom) (op : OpType) (r : JRec) (tok : Nat) (s : Wmgr) : Bool → Wmgr → Prop
  | part {t : Wmgr} (h : s.dblksAfter g r tok < r.recSizeDblks)
    (hh : (s.partEncoded g op r tok).HeaderedTo t) : EncodesTo g op r tok s false t
  | done {t : Wmgr} {m : Maps} {pend : List Xid} (h : r.recSizeDblks ≤ s.dblksAfter g r tok)
    (hm : Maps.complete (s.headFid tok) r s.maps = .ok () m)
    (hp : pend = r.endXid.toList ++ s.txnPending) (hx : ∀ xid ∈ r.endXid, xid ∉ s.txnPending)
    (hh : ({ (s.encoded g r tok).completed op r tok m with txnPending := pend } : Wmgr).HeaderedTo t) :
    EncodesTo g op r tok s true t

/-- Where one turn of the loop throws: at its head, or in the maps with the record encoded. -/
inductive EncodeFails (g : Geom) (op : OpType) (r : JRec) (tok : Nat) (s : Wmgr) : Wmgr → Prop
  | full (h : g.pgDblks ≤ s.pgOffset) : EncodeFails g op r tok s s
  | maps (m : Maps) (h : r.recSizeDblks ≤ s.dblksAfter g r tok)
    (hm : (∀ m, Maps.complete (s.headFid tok) r s.maps ≠ .ok () m) ∨
      ∃ xid ∈ r.endXid, xid ∈ s.txnPending) :
    EncodeFails g op r tok s ((s.encoded g r tok).completed op r tok m)

private theorem wp_completeRecord_to (u : Wmgr) :
    wp (completeRecord op r tok) (fun _ v => ∃ m, Maps.complete (u.toks tok).fid r u.maps = .ok () m ∧
      (∀ xid ∈ r.endXid, xid ∉ u.txnPending) ∧
      v = { u.completed op r tok m with txnPending := r.endXid.toList ++ u.txnPending })
      (fun _ v => ∃ m, v = u.completed op r tok m ∧
        ((∀ m, Maps.complete (u.toks tok).fid r u.maps ≠ .ok () m) ∨
          ∃ xid ∈ r.endXid, xid ∈ u.txnPending)) u := by
  simp only [completeRecord, wp_bind, wp_get, wp_modify, modTok, onMaps]
  rw [wp_onPart]
  apply wp_mono (wp_self (Maps.complete (u.toks tok).fid r) u.maps)
  · intro _ m hm
    -- the transaction of an abort or a commit becomes a pending one
    have hpend : ∀ xid, r.endXid = some xid → wp (insertTxnPending xid)
        (fun _ v => ∃ m, Maps.complete (u.toks tok).fid r u.maps = .ok () m ∧
          (∀ xid ∈ r.endXid, xid ∉ u.txnPending) ∧
          v = { u.completed op r tok m with txnPending := r.endXid.toList ++ u.txnPending })
        (fun _ v => ∃ m, v = u.completed op r tok m ∧
          ((∀ m, Maps.complete (u.toks tok).fid r u.maps ≠ .ok () m) ∨
            ∃ xid ∈ r.endXid, xid ∈ u.txnPending)) (u.completed op r tok m) := by
      intro xid hxid
      have hsame : (u.completed op r tok m).txnPending = u.txnPending := rfl
      rw [insertTxnPending, wp_bind, wp_get, hsame]
      by_cases hx : xid ∈ u.txnPending
      · rw [if_pos hx]
        exact ⟨m, rfl, Or.inr ⟨xid, hxid, hx⟩⟩
      · rw [if_neg hx, wp_set]
        refine ⟨m, hm, fun y hy => ?_, by rw [hxid]; rfl⟩
        rw [hxid] at hy
        obtain rfl := Option.some.inj hy
        exact hx
    cases r with
    | enq rid xid n b e => exact ⟨m, hm, (by rintro _ ⟨⟩), rfl⟩
    | deq rid drid xid b => exact ⟨m, hm, (by rintro _ ⟨⟩), rfl⟩
    | txa rid xid => exact hpend xid rfl
    | txc rid xid => exact hpend xid rfl
  · intro e m hm
    refine ⟨m, rfl, Or.inl fun m' hm' => ?_⟩
    rw [hm] at hm'
    cases hm'

theorem wp_encodePart_to (cont : Bool) :
    wp (encodePart g op r tok cont) (s.EncodesTo g op r tok)
      (fun _ => s.EncodeFails g op r tok) s := by
  rw [encodePart, wp_bind, wp_get]
  simp only
  rw [wp_bind, encode, wp_bind, wp_get]
  by_cases hfull : g.pgDblks ≤ s.pgOffset
  · rw [if_pos hfull]
    exact .full hfull
  · rw [if_neg hfull, wp_set]
    have htok : (s.encoded g r tok).toks tok = { s.toks tok with
        fid := s.headFid tok
        dblksWritten := s.dblksAfter g r tok
        pgCnt := (s.toks tok).pgCnt + 1 } := by
      simp [encoded, headFid, dblksAfter]
    have hafter : ((s.encoded g r tok).toks tok).dblksWritten = s.dblksAfter g r tok := by rw [htok]
    have hfid : ((s.encoded g r tok).toks tok).fid = s.headFid tok := by rw [htok]
    rw [wp_bind, wp_get]
    simp only [hafter]
    by_cases hd : r.recSizeDblks ≤ s.dblksAfter g r tok
    · rw [if_pos hd]
      rw [wp_bind]
      apply wp_mono (wp_completeRecord_to (s.encoded g r tok))
      · intro _ v hv
        obtain ⟨m, hm, hx, rfl⟩ := hv
        rw [hfid] at hm
        rw [wp_bind]
        apply wp_mono (wp_fileHeaderCheck_to _ _ _ fun _ _ => False) _ (fun _ _ he => he.elim)
        intro _ t ht
        rw [wp_pure, decide_eq_true hd]
        exact .done hd hm rfl hx ht
      · intro _ v hv
        obtain ⟨m, rfl, hm⟩ := hv
        rw [hfid] at hm
        exact .maps m hd hm
    · rw [if_neg hd, wp_bind, modTok, wp_modify, wp_bind]
      apply wp_mono (wp_fileHeaderCheck_to _ _ _ fun _ _ => False) _ (fun _ _ he => he.elim)
      intro _ t ht
      rw [wp_pure, decide_eq_false hd]
      exact .part (Nat.lt_of_not_le hd) ht

end Encode

end Wmgr

end RhmStore
