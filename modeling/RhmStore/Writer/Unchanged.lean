import RhmStore.Writer.Released

/-! # What a refused call changes -/

namespace RhmStore

inductive TxnMap.Completes : TxnMap → TxnMap → Prop
  | refl (t : TxnMap) : Completes t t
  | step {t u v : TxnMap} {x : Xid} {r : Nat} (h : Completes t u) (hs : u.setAioCompl x r = .ok v) :
    Completes t v

namespace Wmgr

variable {g : Geom} {s s' b : Wmgr}

/-- Transactions are only taken off the pending ones, with their tokens going to the callback. -/
structure Settles (s s' : Wmgr) (out : List (Nat × DataTok)) : Prop where
  pending : s'.txnPending.Sublist s.txnPending
  ended : ∀ xid ∈ s.txnPending, xid ∈ s'.txnPending ∨ ∃ p ∈ out, p.2.xid = xid

/-- The maps, the pending transactions and the records that are complete are as before, but for what
completions of earlier operations do. -/
structure Unchanged (s s' : Wmgr) : Prop where
  emap : s'.maps.emap = s.maps.emap
  enqCnt : s'.maps.enqCnt = s.maps.enqCnt
  tmap : s.maps.tmap.Completes s'.maps.tmap
  acked : ∃ out, s'.acked = s.acked ++ out ∧ s.Settles s' out
  log : s'.log = s.log

theorem Settles.refl (h : s'.txnPending = s.txnPending) : s.Settles s' [] :=
  ⟨by rw [h], fun _ hx => .inl (h ▸ hx)⟩

theorem Unchanged.of_eq (h : b.Unchanged s) (hm : s'.maps = s.maps) (hp : s'.txnPending = s.txnPending)
    (ha : s'.acked = s.acked) (hl : s'.log = s.log) : b.Unchanged s' where
  emap := hm ▸ h.emap
  enqCnt := hm ▸ h.enqCnt
  tmap := hm ▸ h.tmap
  acked := by
    obtain ⟨out, ho, hs⟩ := h.acked
    exact ⟨out, ha.trans ho, ⟨hp ▸ hs.pending, fun x hx => hp ▸ hs.ended x hx⟩⟩
  log := hl.trans h.log

theorem Unchanged.refl (s : Wmgr) : s.Unchanged s where
  emap := rfl
  enqCnt := rfl
  tmap := .refl _
  acked := ⟨[], (List.append_nil _).symm, .refl rfl⟩
  log := rfl

theorem Settles.trans {u : Wmgr} {out out' : List (Nat × DataTok)} (h : s.Settles s' out)
    (h' : s'.Settles u out') : s.Settles u (out ++ out') where
  pending := h'.pending.trans h.pending
  ended := by
    intro xid hx
    rcases h.ended xid hx with hin | ⟨p, hp, he⟩
    · rcases h'.ended xid hin with hin | ⟨p, hp, he⟩
      · exact .inl hin
      · exact .inr ⟨p, List.mem_append_right _ hp, he⟩
    · exact .inr ⟨p, List.mem_append_left _ hp, he⟩

/-! ## Completions -/

theorem TokTo.xid {tok : Nat} {done : Bool} (h : s.TokTo tok done s') (i : Nat) :
    (s'.toks i).xid = (s.toks i).xid := by
  by_cases hi : i = tok
  · subst hi
    cases h with
    | waits _ => simp only [Function.update_self]
    | complete _ _ _ _ => simp only [Function.update_self]
  · cases h with
    | waits _ => simp only [Function.update_of_ne hi]
    | complete _ _ _ _ => simp only [Function.update_of_ne hi]

theorem ToksTo.xid {toks out : List Nat} (h : s.ToksTo toks out s') (i : Nat) :
    (s'.toks i).xid = (s.toks i).xid := by
  induction h with
  | nil s => rfl
  | cons h _ ih => exact ih.trans (h.xid i)

/-- A transaction whose token is complete is not pending any more. -/
theorem TokTo.pending {tok : Nat} {done : Bool} (h : s.TokTo tok done s') :
    s'.txnPending.Sublist s.txnPending ∧ ∀ xid ∈ s.txnPending, xid ∈ s'.txnPending ∨
      done = true ∧ (s.toks tok).xid = xid := by
  cases h with
  | waits _ => exact ⟨.refl _, fun _ hx => .inl hx⟩
  | complete op _ _ _ =>
    by_cases hop : op = .abort ∨ op = .commit
    · simp only [if_pos hop]
      refine ⟨List.erase_sublist, fun xid hx => ?_⟩
      by_cases he : xid = (s.toks tok).xid
      · exact .inr ⟨trivial, he.symm⟩
      · exact .inl ((List.mem_erase_of_ne he).mpr hx)
    · simp only [if_neg hop]
      exact ⟨.refl _, fun _ hx => .inl hx⟩

theorem ToksTo.settles {toks out : List Nat} (h : s.ToksTo toks out s') :
    s.Settles s' (out.map fun tok => (tok, s'.toks tok)) := by
  induction h with
  | nil s => exact .refl rfl
  | cons h ht ih =>
    rename_i s t u tok toks out done
    obtain ⟨hsub, hend⟩ := h.pending
    refine ⟨ih.pending.trans hsub, fun xid hx => ?_⟩
    have hout : ∀ p ∈ out.map (fun tok => (tok, u.toks tok)),
        p ∈ (if done then tok :: out else out).map fun tok => (tok, u.toks tok) := by
      intro p hp
      cases done with
      | true => exact List.mem_cons_of_mem _ hp
      | false => exact hp
    rcases hend xid hx with hin | ⟨rfl, he⟩
    · rcases ih.ended xid hin with hin | ⟨p, hp, he⟩
      · exact .inl hin
      · exact .inr ⟨p, hout p hp, he⟩
    · refine .inr ⟨(tok, u.toks tok), List.mem_cons_self, ?_⟩
      rw [← he, ← h.xid tok]
      exact ht.xid tok

theorem EventTo.settles {i : Nat} (h : s.EventTo i s') :
    ∃ out, s'.acked = s.acked ++ out ∧ s.Settles s' out := by
  cases h with
  | none _ => exact ⟨[], (List.append_nil _).symm, .refl rfl⟩
  | page hi hw hp ht =>
    have hs := ht.settles
    exact ⟨_, rfl, ⟨hs.pending, hs.ended⟩⟩
  | header hi hw hp => exact ⟨[], (List.append_nil _).symm, .refl rfl⟩

theorem EventsTo.settles {evs : List Nat} (h : s.EventsTo evs s') :
    ∃ out, s'.acked = s.acked ++ out ∧ s.Settles s' out := by
  induction h with
  | nil s => exact ⟨[], (List.append_nil _).symm, .refl rfl⟩
  | cons h _ ih =>
    obtain ⟨out, ha, hs⟩ := h.settles
    obtain ⟨out', ha', hs'⟩ := ih
    exact ⟨out ++ out', by rw [ha', ha, List.append_assoc], hs.trans hs'⟩

theorem wp_getEvents_unchanged (h : s.Steady g) (hb : b.Unchanged s) (evs : List Nat) :
    wp (getEvents evs) (fun _ t => b.Unchanged t) (fun _ _ => False) s := by
  have hto := wp_getEvents_to (I := fun _ => True) (fun _ _ _ _ _ _ _ => trivial) h.toAccounted trivial evs
  apply wp_mono (wp_and hto (returns_getEvents evs s))
  · intro _ t ht
    obtain ⟨⟨hevs, -, -⟩, hret⟩ := ht
    have hmaps : t.maps.emap = b.maps.emap ∧ t.maps.enqCnt = b.maps.enqCnt ∧
        b.maps.tmap.Completes t.maps.tmap := by
      apply hret.maps (fun m => m.emap = b.maps.emap ∧ m.enqCnt = b.maps.enqCnt ∧
        b.maps.tmap.Completes m.tmap)
      · intro m x r tmap hm htm
        exact ⟨hm.1, hm.2.1, .step hm.2.2 htm⟩
      · exact ⟨hb.emap, hb.enqCnt, hb.tmap⟩
    obtain ⟨out, ho, hs⟩ := hb.acked
    obtain ⟨out', ho', hs'⟩ := hevs.settles
    exact ⟨hmaps.1, hmaps.2.1, hmaps.2.2, ⟨out ++ out', by rw [ho', ho, List.append_assoc], hs.trans hs'⟩,
      hret.log.trans hb.log⟩
  · intro _ _ he
    exact he.1

/-! ## The parts of a call -/

theorem unentered_unchanged (c : Call) (b : Wmgr) : Unentered c fun s => b.Unchanged s where
  reset s ok s' h _ hr := by
    cases hr with
    | held _ => exact h.of_eq rfl rfl rfl rfl
    | reset _ _ => exact h.of_eq rfl rfl rfl rfl
  use s h _ := h.of_eq rfl rfl rfl rfl
  rid s n h := h.of_eq rfl rfl rfl rfl
  busy s h := h.of_eq rfl rfl rfl rfl
  tok s t h _ _ _ _ _ := h.of_eq rfl rfl rfl rfl

theorem Unchanged.resetTo (h : b.Unchanged s) {ok : Bool} (hr : s.ResetTo ok s') : b.Unchanged s' := by
  cases hr with
  | held _ => exact h.of_eq rfl rfl rfl rfl
  | reset _ _ => exact h.of_eq rfl rfl rfl rfl

theorem Unchanged.rotatesTo (h : b.Unchanged s) {res : Iores} (hr : s.RotatesTo g res s') :
    b.Unchanged s' := by
  cases hr <;> exact h.of_eq rfl rfl rfl rfl

theorem Unchanged.taken (h : b.Unchanged s) : b.Unchanged s.taken := by
  rw [Wmgr.taken]
  split
  · exact h.of_eq rfl rfl rfl rfl
  · exact h

theorem Unchanged.flushed (h : b.Unchanged s) : b.Unchanged (s.flushed g) := by
  rw [Wmgr.flushed]
  split
  · exact h
  · have hs : b.Unchanged (s.pageSubmitted g) := h.of_eq rfl rfl rfl rfl
    exact hs.taken

theorem EncodesTo.unchanged {op : OpType} {r : JRec} {tok : Nat}
    (ht : s.EncodesTo g op r tok false s') (h : b.Unchanged s) : b.Unchanged s' := by
  cases ht with
  | part _ hh =>
    cases hh with
    | kept _ => exact h.of_eq rfl rfl rfl rfl
    | written _ _ => exact h.of_eq rfl rfl rfl rfl

theorem ChecksTo.unchanged {cont done : Bool} {x : Iores × Bool × Bool}
    (h : s.ChecksTo g b.Unchanged cont done x s') (hb : b.Unchanged s) : b.Unchanged s' := by
  cases h with
  | room hlt => exact hb
  | stay hle ht hw hk => exact ht.taken
  | turn hle ht hw hk hu => exact ht.taken.rotatesTo hu

theorem wp_flushCheck_unchanged (h : s.Steady g) (hb : b.Unchanged s) (cont done : Bool)
    (evs : List Nat) : wp (flushCheck g cont done evs) (fun _ s' => b.Unchanged s') (fun _ _ => True) s := by
  have hev : wp (getEvents evs) (fun _ t => b.Unchanged t) (fun _ _ => True) (s.flushed g) :=
    wp_mono (wp_getEvents_unchanged h.flushed hb.flushed evs) (fun _ _ ht => ht) fun _ _ _ => trivial
  apply wp_mono (wp_flushCheck_of h.page_ne (fun _ _ _ => trivial) (fun _ _ _ => trivial) fun _ => hev) _ fun _ _ he => he
  intro _ t ht
  exact ht.unchanged hb

/-- The current file is full behind the page, and the next one, of which no write is outstanding any more,
holds enqueued records. -/
structure TurnsFull (g : Geom) (s : Wmgr) (evs : List Nat) : Prop where
  page : g.pgDblks ≤ s.pgOffset
  next : ∃ t, getEvents evs (s.flushed g) = .ok () t ∧ g.jfsizePgs ≤ t.pgCntr ∧
    t.maps.enqCnt.getD (t.turned g).fcIndex 0 ≠ 0 ∧ (t.fcntls (t.turned g).fcIndex).aioCnt = 0

theorem turnsFull_iff {t : Wmgr} (he : getEvents evs (s.flushed g) = .ok () t) :
    s.TurnsFull g evs ↔ g.pgDblks ≤ s.pgOffset ∧ g.jfsizePgs ≤ t.pgCntr ∧
      t.maps.enqCnt.getD (t.turned g).fcIndex 0 ≠ 0 ∧ (t.fcntls (t.turned g).fcIndex).aioCnt = 0 := by
  constructor
  · intro h
    obtain ⟨u, hu, hk⟩ := h.next
    rw [he] at hu
    cases hu
    exact ⟨h.page, hk⟩
  · intro h
    exact ⟨h.1, t, he, h.2⟩

instance decidableTurnsFull : Decidable (s.TurnsFull g evs) :=
  match he : getEvents evs (s.flushed g) with
  | .ok _ t => decidable_of_iff _ (turnsFull_iff he).symm
  | .error _ _ => isFalse (by
    intro h
    obtain ⟨u, hu, -⟩ := h.next
    rw [he] at hu
    cases hu)
theorem wp_rotateFile_full : wp (rotateFile g) (fun res _ => res = .full →
    s.maps.enqCnt.getD (s.turned g).fcIndex 0 ≠ 0 ∧
      ((s.turned g).fcntls (s.turned g).fcIndex).aioCnt = 0) (fun _ _ => True) s := by
  have key : wp (if ((s.turned g).fcntls (s.turned g).fcIndex).aioCnt ≠ 0 then
      pure Iores.fileAioWait
      else wrReset >>= fun ok => pure (if ok then Iores.success else .full)) (fun res _ => res = .full →
      s.maps.enqCnt.getD (s.turned g).fcIndex 0 ≠ 0 ∧
        ((s.turned g).fcntls (s.turned g).fcIndex).aioCnt = 0) (fun _ _ => True) (s.turned g) := by
    by_cases ha : ((s.turned g).fcntls (s.turned g).fcIndex).aioCnt ≠ 0
    · rw [if_pos ha]
      rintro ⟨⟩
    · rw [if_neg ha, wp_bind]
      rw [not_not] at ha
      apply wp_mono (wp_wrReset_to fun _ _ => True) _ fun _ _ he => he
      intro ok t ht
      cases ht with
      | held h => exact fun _ => ⟨h.resolve_right (fun hn => hn ha), ha⟩
      | reset _ _ => rintro ⟨⟩
  simp only [rotateFile, rotate, wp_bind, wp_modify, wp_get]
  by_cases h : s.fcIndex + 1 = g.numJfiles
  · rw [if_pos h]
    simp only [turned, if_pos h] at key ⊢
    exact key
  · rw [if_neg h]
    simp only [turned, if_neg h] at key ⊢
    exact key

theorem wp_flushCheck_full (h : s.Steady g) (cont done : Bool) (evs : List Nat) :
    wp (flushCheck g cont done evs) (fun x _ => x.1 = .full → s.TurnsFull g evs) (fun _ _ => True) s := by
  rw [flushCheck, wp_bind, wp_get]
  by_cases hlt : s.pgOffset < g.pgDblks
  · rw [if_pos hlt]
    rintro ⟨⟩
  · have hev : wp (getEvents evs) (fun _ t => getEvents evs (s.flushed g) = .ok () t) (fun _ _ => True)
        (s.flushed g) := wp_mono (wp_self (getEvents evs) (s.flushed g)) (fun _ _ ht => ht) fun _ _ _ => trivial
    rw [if_neg hlt, wp_bind]
    apply wp_mono (wp_writeFlush_of h.page_ne (fun _ _ => trivial) (fun _ _ => trivial) hev) _ fun _ _ he => he
    intro res u hu
    obtain ⟨rfl, t, ht, rfl⟩ := hu
    have hsame : t.taken.pgCntr = t.pgCntr ∧ t.taken.maps = t.maps ∧ t.taken.fcntls = t.fcntls ∧
        (t.taken.turned g).fcIndex = (t.turned g).fcIndex := by
      rw [Wmgr.taken]
      split <;> exact ⟨rfl, rfl, rfl, rfl⟩
    obtain ⟨h1, h2, h3, h4⟩ := hsame
    rw [if_neg (fun hn => hn rfl), wp_bind, wp_get]
    by_cases hk : t.taken.pgCntr < g.jfsizePgs
    · rw [if_pos hk]
      intro hf
      split at hf <;> cases hf
    · rw [if_neg hk, wp_bind]
      apply wp_mono wp_rotateFile_full _ fun _ _ he => he
      intro rfres v hv
      -- the result is that of the rotation
      have hres : (if rfres ≠ .success then rfres else
          if ((t.taken.pages t.taken.pgIndex).state = .aioPending && !done : Bool) then .pageAioWait
          else .success) = Iores.full → s.TurnsFull g evs := by
        intro hf
        have hrf : rfres = .full := by
          by_cases hn : rfres ≠ .success
          · rw [if_pos hn] at hf
            exact hf
          · rw [if_neg hn] at hf
            split at hf <;> cases hf
        obtain ⟨henq, haio⟩ := hv hrf
        refine ⟨Nat.le_of_not_lt hlt, t, ht, h1 ▸ Nat.le_of_not_lt hk, ?_, ?_⟩
        · rw [h2, h4] at henq
          exact henq
        · have hfc : ((t.taken.turned g).fcntls (t.taken.turned g).fcIndex).aioCnt = 0 := haio
          rw [h4] at hfc
          show (t.fcntls _).aioCnt = 0
          rw [← h3]
          exact hfc
      by_cases hd : (done || (decide ((t.taken.pages t.taken.pgIndex).state = .aioPending) && !done)) = true
      · rw [if_pos hd]
        exact hres
      · rw [if_neg hd]
        exact hres

end Wmgr

namespace Sys

variable {g : Geom} {s s' b : Sys}

/-- What `jcntl` hands out for what `wmgr` does before its loop. -/
def entryResult : EStateM.Result JErr Wmgr Wmgr.Entry → Option Iores
  | .ok (.done .pageAioWait) _ => none
  | .ok (.done res) _ => some res
  | _ => none

/-- The result that `jcntl` hands out where its call is at its end with the step. -/
def result (g : Geom) (s : Sys) : Act → Option Iores
  | .call c => entryResult (c.enter g s.w)
  | .step evs => match s.ctl with
    | .check _ _ cont done => match Wmgr.flushCheck g cont done evs s.w with
      | .ok (res, _, true) _ => if res = .pageAioWait ∨ res = .fileAioWait then none else some res
      | _ => none
    | .pageWait c =>
      if (s.w.pages s.w.pgIndex).state = .unused then entryResult (c.enter g s.w) else none
    | .fileWait c =>
      if (s.w.fcntls s.w.fcIndex).aioCnt = 0 then
        match Wmgr.wrReset s.w with
        | .ok _ w => if (w.toks c.tok).wstate.isPart then entryResult (c.enter g w) else some .success
        | .error _ _ => none
      else none
    | _ => none
  | _ => none

/-- The result of a call, which ends with the last of the steps, and what it leaves. -/
def outcome (g : Geom) (s : Sys) : List Act → Option (Iores × Sys)
  | [] => none
  | [a] => (s.step g a).bind fun s' => (s.result g a).map fun res => (res, s')
  | a :: acts => (s.step g a).bind fun s' => s'.outcome g acts

/-- A call that is refused has no effect. -/
def RefusesUnchanged (g : Geom) (s : Sys) (c : Call) (evss : List (List Nat)) : Prop :=
  ∀ res s', s.outcome g (.call c :: evss.map .step) = some (res, s') → res ≠ .success →
    s.w.Unchanged s'.w

/-- No record ends at the end of a file where the next one is full. -/
def Unfilled (g : Geom) (s : Sys) : Act → Prop
  | .step evs => match s.ctl with
    | .check _ _ _ true => ¬s.w.TurnsFull g evs
    | _ => True
  | _ => True

instance decidableUnfilled : (a : Act) → Decidable (s.Unfilled g a)
  | .call _ => isTrue trivial
  | .step evs => match hc : s.ctl with
    | .check _ _ _ true => decidable_of_iff (¬s.w.TurnsFull g evs) (by simp only [Unfilled, hc])
    | .check _ _ _ false => isTrue (by simp only [Unfilled, hc])
    | .encode .. => isTrue (by simp only [Unfilled, hc])
    | .pageWait _ => isTrue (by simp only [Unfilled, hc])
    | .idle => isTrue (by simp only [Unfilled, hc])
    | .fileWait _ => isTrue (by simp only [Unfilled, hc])
    | .failed => isTrue (by simp only [Unfilled, hc])
  | .token _ _ => isTrue trivial
  | .collect _ => isTrue trivial
  | .flush _ => isTrue trivial

section Steps

variable {b : Wmgr} {c : Call} {evs : List Nat}

def Pending (b : Wmgr) (s : Sys) : Prop :=
  match s.ctl with
  | .encode .. => b.Unchanged s.w
  | .check _ _ _ done => done = false → b.Unchanged s.w
  | .pageWait _ => b.Unchanged s.w
  | .fileWait c => (s.w.toks c.tok).wstate.isPart = true → b.Unchanged s.w
  | _ => True

theorem pending_of_unchanged (h : b.Unchanged s.w) : s.Pending b := by
  rw [Pending]
  cases s.ctl with
  | idle => trivial
  | encode => exact h
  | check => exact fun _ => h
  | pageWait => exact h
  | fileWait => exact fun _ => h
  | failed => trivial

theorem EntersTo.unchanged (ht : s.EntersTo g c s') (h : b.Unchanged s.w) : b.Unchanged s'.w := by
  have hent := Wmgr.wp_enter (g := g) (Wmgr.unentered_unchanged c b) h
  cases ht with
  | encode he => exact (wp_of_ok hent he).inv
  | wait he => exact (wp_of_ok hent he).1.inv
  | done he => exact (wp_of_ok hent he).1.inv
  | assert he =>
    have ha := wp_of_error hent he
    exact ha.inv
  | refused he =>
    have ha := wp_of_error hent he
    exact ha.inv

theorem released_unchanged {w : Wmgr} (h : b.Unchanged w) : b.Unchanged (released c w) := by
  rw [released]
  split
  · exact h.of_eq rfl rfl rfl rfl
  · exact h

theorem not_part_of_check {r : JRec} {cont : Bool} {w : Wmgr} (hs : s.ctl = .check c r cont true)
    (h : s.AtCtl) (hr : (s.w.toks c.tok).Returned (w.toks c.tok)) :
    (w.toks c.tok).wstate.isPart = false := by
  simp only [AtCtl, hs, if_true] at h
  rw [hr.part, h.2.2]
  exact c.op.subm_isPart

theorem ProceedsTo.pending (ht : s.ProceedsTo g evs s') (h : s.InOrder g) (hp : s.Pending b) :
    s'.Pending b := by
  cases ht with
  | encoded hs he =>
    simp only [Pending, hs] at hp
    intro hd
    subst hd
    exact (wp_of_ok (Wmgr.wp_encodePart_to _) he).unchanged hp
  | encodeFailed hs he => trivial
  | checked hs he =>
    rename_i c r cont done cont' res w
    have hst := h.steady (by rw [hs]; rintro ⟨⟩)
    have hctl := hst.ctl
    simp only [AtCtl, Pending, hs] at hctl hp
    have hd := ((wp_of_ok (Wmgr.wp_flushCheck_steady hst.w _ _ evs) he).steady hst.w hctl.1).2.2.1 rfl
    have hun := wp_of_ok (Wmgr.wp_flushCheck_unchanged hst.w (hp hd.1) _ _ evs) he
    exact hun
  | left hs he =>
    rename_i c r cont done cont' res w
    have hst := h.steady (by rw [hs]; rintro ⟨⟩)
    have hctl := hst.ctl
    have hpage : (s.w.pages s.w.pgIndex).state = .inUse := by
      simp only [AtCtl, hs] at hctl
      exact hctl.1
    obtain ⟨-, hret, -, hwait⟩ :=
      (wp_of_ok (Wmgr.wp_flushCheck_steady hst.w _ _ evs) he).steady hst.w hpage
    simp only [Pending, hs] at hp
    have hun : done = false → b.Unchanged (released c w) := by
      intro hd
      have hw := wp_of_ok (Wmgr.wp_flushCheck_unchanged hst.w (hp hd) _ _ evs) he
      exact released_unchanged hw
    cases res with
    | pageAioWait => exact hun (hwait rfl).1
    | fileAioWait =>
      intro hpart
      apply hun
      cases done with
      | false => rfl
      | true =>
        have hnot := not_part_of_check hs hctl (hret c.tok)
        have hpart' : ((released c w).toks c.tok).wstate.isPart = true := hpart
        rw [(released_same c w).1, hnot] at hpart'
        cases hpart'
    | success => trivial
    | full => trivial
    | busy => trivial
    | enqCapThresh => trivial
    | notImpl => trivial
  | checkFailed hs he => trivial
  | pageFree hs hpg he =>
    simp only [Pending, hs] at hp
    exact pending_of_unchanged (he.unchanged hp)
  | fileFree hs ha hr hpart he =>
    rename_i c ok w
    have hto := wp_of_ok (Wmgr.wp_wrReset_to fun _ _ => False) hr
    have htoks : w.toks = s.w.toks := by cases hto <;> rfl
    simp only [Pending, hs] at hp
    rw [htoks] at hpart
    exact pending_of_unchanged (he.unchanged ((hp hpart).resetTo hto))
  | fileDone hs ha hr hpart => trivial
  | waits hs he =>
    rename_i c w
    have hne : s.ctl ≠ .failed := by
      rcases hs with ⟨hs, -⟩ | ⟨hs, -⟩ <;> rw [hs] <;> rintro ⟨⟩
    have hst := h.steady hne
    have hret := (wp_of_ok (Wmgr.wp_getEvents_steady hst.w evs) he).2.1
    rcases hs with ⟨hs, -⟩ | ⟨hs, -⟩
    · simp only [Pending, hs] at hp ⊢
      have hun := wp_of_ok (Wmgr.wp_getEvents_unchanged hst.w hp evs) he
      exact hun
    · simp only [Pending, hs] at hp ⊢
      intro hpart
      rw [(hret.toks c.tok).part] at hpart
      have hun := wp_of_ok (Wmgr.wp_getEvents_unchanged hst.w (hp hpart) evs) he
      exact hun
  | waitFailed hs he => trivial

theorem res_of_done {cont cont' done' : Bool} {res : Iores} {w : Wmgr} (h : s.w.Steady g)
    (hc : ¬s.w.TurnsFull g evs)
    (he : Wmgr.flushCheck g cont true evs s.w = .ok (res, cont', done') w) :
    res = .success ∨ res = .fileAioWait := by
  have hfull := wp_of_ok (Wmgr.wp_flushCheck_full h cont true evs) he
  have hwait : ∀ {p : Prop} [Decidable p] {wait : Bool}, wait = (decide p && !true) → wait = false := by
    intro p _ wait hw
    rw [hw, Bool.not_true, Bool.and_false]
  cases wp_of_ok (Wmgr.wp_flushCheck_steady h cont true evs) he with
  | room _ => exact .inl rfl
  | stay _ _ hw _ =>
    rw [hwait hw]
    exact .inl rfl
  | turn _ _ hw _ hu =>
    rw [hwait hw] at hfull ⊢
    cases hu with
    | wait _ => exact .inr rfl
    | full _ => exact (hc (hfull rfl)).elim
    | reset _ _ => exact .inl rfl

theorem ProceedsTo.refused (ht : s.ProceedsTo g evs s') (h : s.InOrder g) (hp : s.Pending b)
    (hc : s.Unfilled g (.step evs)) {res : Iores} (hr : s.result g (.step evs) = some res)
    (hne : res ≠ .success) : b.Unchanged s'.w := by
  cases ht with
  | encoded hs he =>
    simp only [result, hs] at hr
    cases hr
  | encodeFailed hs he =>
    simp only [result, hs] at hr
    cases hr
  | checked hs he =>
    simp only [result, hs, he] at hr
    cases hr
  | left hs he =>
    rename_i c r cont done cont' res' w
    have hst := h.steady (by rw [hs]; rintro ⟨⟩)
    have hw : (handle c res' (released c w)).w = released c w := by cases res' <;> rfl
    simp only [result, hs, he] at hr
    simp only [Pending, Unfilled, hs] at hp hc
    rw [hw]
    cases done with
    | false =>
      have hun := wp_of_ok (Wmgr.wp_flushCheck_unchanged hst.w (hp rfl) _ _ evs) he
      exact released_unchanged hun
    | true =>
      rcases res_of_done hst.w hc he with rfl | rfl
      · cases hr
        exact (hne rfl).elim
      · cases hr
  | checkFailed hs he =>
    simp only [result, hs, he] at hr
    cases hr
  | pageFree hs hpg he =>
    simp only [Pending, hs] at hp
    exact he.unchanged hp
  | fileFree hs ha hrr hpart he =>
    rename_i c ok w
    have hto := wp_of_ok (Wmgr.wp_wrReset_to fun _ _ => False) hrr
    have htoks : w.toks = s.w.toks := by cases hto <;> rfl
    simp only [Pending, hs] at hp
    rw [htoks] at hpart
    exact he.unchanged ((hp hpart).resetTo hto)
  | fileDone hs ha hrr hpart =>
    simp only [result, hs, if_pos ha, hrr, hpart] at hr
    cases hr
    exact (hne rfl).elim
  | waits hs he =>
    rcases hs with ⟨hs, hn⟩ | ⟨hs, hn⟩
    · simp only [result, hs, if_neg hn] at hr
      cases hr
    · simp only [result, hs, if_neg hn] at hr
      cases hr
  | waitFailed hs he =>
    have hne : s.ctl ≠ .failed := by
      rcases hs with hs | hs <;> rw [hs] <;> rintro ⟨⟩
    exact (wp_of_error (Wmgr.wp_getEvents_steady (h.steady hne).w evs) he).elim

theorem outcome_unchanged {evss : List (List Nat)} (h : s.InOrder g) (hp : s.Pending b)
    (hc : s.Along g (Unfilled g) (evss.map .step)) {res : Iores}
    (ho : s.outcome g (evss.map .step) = some (res, s')) (hne : res ≠ .success) :
    b.Unchanged s'.w := by
  induction evss generalizing s with
  | nil => cases ho
  | cons evs evss ih =>
    cases evss with
    | nil =>
      rw [List.map_cons, List.map_nil, outcome] at ho
      obtain ⟨t, ht, ho⟩ := Option.bind_eq_some_iff.mp ho
      obtain ⟨res', hr, ho⟩ := Option.map_eq_some_iff.mp ho
      cases ho
      exact (proceedsTo ht).refused h hp hc.1 hr hne
    | cons evs' evss =>
      rw [List.map_cons, List.map_cons, outcome] at ho
      · obtain ⟨t, ht, ho⟩ := Option.bind_eq_some_iff.mp ho
        have hto := proceedsTo ht
        exact ih (hto.inOrder h) (hto.pending h hp) (hc.2 t ht) ho
      · rintro ⟨⟩

end Steps

/-- In a journal that has come to a state in any way, a call that is refused has no effect, unless its
record ends a file in front of a full one. -/
theorem run_refusesUnchanged {s₀ : Sys} (hs : s₀.Start g) {acts : List Act} (hr : s₀.run g acts = some s)
    (c : Call) (evss : List (List Nat)) (hc : s.Along g (Unfilled g) (.call c :: evss.map .step)) :
    s.RefusesUnchanged g c evss := by
  intro res s' ho hne
  have h : s.InOrder g := run_preserves (fun _ _ _ ht _ hto => hto.inOrder ht) hs.inOrder
    (along_of_all (P := fun _ _ => True) (fun _ _ => trivial) acts) hr
  cases evss with
  | nil =>
    rw [List.map_nil, outcome] at ho
    obtain ⟨t, ht, ho⟩ := Option.bind_eq_some_iff.mp ho
    obtain ⟨res', -, ho⟩ := Option.map_eq_some_iff.mp ho
    cases ho
    cases stepsTo ht with
    | call _ _ he => exact he.unchanged (.refl _)
  | cons evs evss =>
    rw [List.map_cons, outcome] at ho
    · obtain ⟨t, ht, ho⟩ := Option.bind_eq_some_iff.mp ho
      have hto := stepsTo ht
      have hp : t.Pending s.w := by
        cases hto with
        | call _ _ he => exact pending_of_unchanged (he.unchanged (.refl _))
      exact outcome_unchanged (hto.inOrder h) hp (hc.2 t ht) ho hne
    · rintro ⟨⟩

/-- A record is enqueued. -/
def firstRun : List Act := [.call (.enqueue 0 50 50 [] false false), .step [], .step []]

/-- A record that is too long behind the first one is refused. -/
theorem firstRun_refusesUnchanged : ∃ s, (init fourFiles).run fourFiles firstRun = some s ∧
    s.RefusesUnchanged fourFiles (.enqueue 1 320000 320000 [] false false) [] ∧
    (s.outcome fourFiles [.call (.enqueue 1 320000 320000 [] false false)]).map Prod.fst =
      some .enqCapThresh := by
  have hr : ((init fourFiles).run fourFiles firstRun).bind (fun s =>
      (s.outcome fourFiles [.call (.enqueue 1 320000 320000 [] false false)]).map Prod.fst) =
      some .enqCapThresh := by decide +kernel
  obtain ⟨s, hs, hr⟩ := Option.bind_eq_some_iff.mp hr
  have hun := run_refusesUnchanged .init hs (.enqueue 1 320000 320000 [] false false) []
    ⟨trivial, fun _ _ => trivial⟩
  exact ⟨s, hs, hun, hr⟩

def fillEvents : List (List Nat) := List.replicate 16 (List.range 12)

/-- The second record ends the last file, and is complete although it is refused. -/
theorem firstRun_not_refusesUnchanged : ¬ ∀ (g : Geom) (s₀ s : Sys) (acts : List Act) (c : Call)
    (evss : List (List Nat)), s₀.Start g → s₀.run g acts = some s → s.RefusesUnchanged g c evss := by
  intro hall
  have hr : ((init fourFiles).run fourFiles firstRun).bind (fun s =>
      (s.outcome fourFiles (.call (.enqueue 1 261972 261972 [] false false) ::
        fillEvents.map .step)).map fun x => (x.1, x.2.w.log.length, s.w.log.length)) =
      some (.full, 2, 1) := by decide +kernel
  obtain ⟨s, hs, hr⟩ := Option.bind_eq_some_iff.mp hr
  obtain ⟨⟨res, s'⟩, ho, hr⟩ := Option.map_eq_some_iff.mp hr
  simp only [Prod.mk.injEq] at hr
  obtain ⟨rfl, hl', hl⟩ := hr
  have hun := hall fourFiles _ s _ _ fillEvents .init hs .full s' ho (by rintro ⟨⟩)
  rw [hun.log, hl] at hl'
  cases hl'

end Sys

end RhmStore
