import RhmStore.Jrnl.Jcntl

/-! # What the return of writes changes -/

namespace RhmStore

structure DataTok.Returned (t t' : DataTok) : Prop where
  dsize : t'.dsize = t.dsize
  dblksWritten : t'.dblksWritten = t.dblksWritten
  fid : t'.fid = t.fid
  rid : t'.rid = t.rid
  xid : t'.xid = t.xid
  dequeueRid : t'.dequeueRid = t.dequeueRid
  externalRid : t'.externalRid = t.externalRid
  wstate : t'.wstate = t.wstate ∨ ∃ op, t.wstate.submOp = some op ∧ t'.wstate = op.compl

namespace DataTok.Returned

variable {t t' t'' : DataTok}

theorem refl (t : DataTok) : t.Returned t := ⟨rfl, rfl, rfl, rfl, rfl, rfl, rfl, Or.inl rfl⟩

private theorem submOp_compl (op : OpType) : op.compl.submOp = none := by cases op <;> rfl

theorem trans (h : t.Returned t') (h' : t'.Returned t'') : t.Returned t'' := by
  refine ⟨h'.dsize.trans h.dsize, h'.dblksWritten.trans h.dblksWritten, h'.fid.trans h.fid,
    h'.rid.trans h.rid, h'.xid.trans h.xid, h'.dequeueRid.trans h.dequeueRid,
    h'.externalRid.trans h.externalRid, ?_⟩
  rcases h.wstate with hw | ⟨op, ho, hw⟩
  · rw [← hw]
    exact h'.wstate
  · rcases h'.wstate with hw' | ⟨op', ho', -⟩
    · exact Or.inr ⟨op, ho, hw'.trans hw⟩
    · rw [hw, submOp_compl] at ho'
      cases ho'

/-- A token of a record that is written in part stays as it is. -/
theorem part (h : t.Returned t') : t'.wstate.isPart = t.wstate.isPart := by
  rcases h.wstate with hw | ⟨op, ho, hw⟩
  · rw [hw]
  · have hc : t'.wstate.isPart = false := by
      rw [hw]
      cases op <;> rfl
    rw [hc]
    revert ho
    cases t.wstate <;> simp [WState.submOp, WState.isPart]

theorem wstate_of_none (h : t.Returned t') (ht : t'.wstate = .none) : t.wstate = .none := by
  rcases h.wstate with hw | ⟨op, -, hw⟩
  · rwa [hw] at ht
  · rw [ht] at hw
    cases op <;> cases hw

end DataTok.Returned

namespace Wmgr

structure Returned (s s' : Wmgr) : Prop where
  pgIndex : s'.pgIndex = s.pgIndex
  pgCntr : s'.pgCntr = s.pgCntr
  pgOffset : s'.pgOffset = s.pgOffset
  cached : s'.cached = s.cached
  busy : s'.busy = s.busy
  fcIndex : s'.fcIndex = s.fcIndex
  rid : s'.rid = s.rid
  resetOk : s'.resetOk = s.resetOk
  owi : s'.owi = s.owi
  frot : s'.frot = s.frot
  subm : s'.subm = s.subm
  rot : s'.rot = s.rot
  resets : s'.resets = s.resets
  fresh : s'.fresh = s.fresh
  tape : s'.tape = s.tape
  cur : s'.cur = s.cur
  log : s'.log = s.log
  buff : ∀ i, (s'.pages i).buff = (s.pages i).buff
  waits : ∀ i, (s'.pages i).state = .aioPending → (s.pages i).state = .aioPending
  toks : ∀ i, (s.toks i).Returned (s'.toks i)
  wrSubm : ∀ f, (s'.fcntls f).wrSubm = (s.fcntls f).wrSubm
  aioCnt : ∀ f, (s'.fcntls f).aioCnt ≤ (s.fcntls f).aioCnt
  maps : ∀ I : Maps → Prop,
    (∀ m x r tmap, I m → m.tmap.setAioCompl x r = .ok tmap → I { m with tmap := tmap }) →
      I s.maps → I s'.maps

namespace Returned

variable {s s' s'' : Wmgr}

theorem refl (s : Wmgr) : s.Returned s :=
  ⟨rfl, rfl, rfl, rfl, rfl, rfl, rfl, rfl, rfl, rfl, rfl, rfl, rfl, rfl, rfl, rfl, rfl, fun _ => rfl,
    fun _ h => h, fun _ => .refl _, fun _ => rfl, fun _ => Nat.le_refl _, fun _ _ h => h⟩

theorem trans (h : s.Returned s') (h' : s'.Returned s'') : s.Returned s'' where
  pgIndex := h'.pgIndex.trans h.pgIndex
  pgCntr := h'.pgCntr.trans h.pgCntr
  pgOffset := h'.pgOffset.trans h.pgOffset
  cached := h'.cached.trans h.cached
  busy := h'.busy.trans h.busy
  fcIndex := h'.fcIndex.trans h.fcIndex
  rid := h'.rid.trans h.rid
  resetOk := h'.resetOk.trans h.resetOk
  owi := h'.owi.trans h.owi
  frot := h'.frot.trans h.frot
  subm := h'.subm.trans h.subm
  rot := h'.rot.trans h.rot
  resets := h'.resets.trans h.resets
  fresh := h'.fresh.trans h.fresh
  tape := h'.tape.trans h.tape
  cur := h'.cur.trans h.cur
  log := h'.log.trans h.log
  buff i := (h'.buff i).trans (h.buff i)
  waits i hi := h.waits i (h'.waits i hi)
  toks i := (h.toks i).trans (h'.toks i)
  wrSubm f := (h'.wrSubm f).trans (h.wrSubm f)
  aioCnt f := Nat.le_trans (h'.aioCnt f) (h.aioCnt f)
  maps I hI hs := h'.maps I hI (h.maps I hI hs)

theorem wp_of {α : Type} {x : WmgrM α} (h : s.Returned s')
    (hx : wp x (fun _ => s'.Returned) (fun _ => s'.Returned) s') :
    wp x (fun _ => s.Returned) (fun _ => s.Returned) s' :=
  wp_mono hx (fun _ _ ht => h.trans ht) (fun _ _ ht => h.trans ht)

end Returned

theorem Returned.wp_then {α β : Type} {s : Wmgr} {x : WmgrM α} {f : α → WmgrM β}
    (hx : wp x (fun _ => s.Returned) (fun _ => s.Returned) s)
    (hf : ∀ a s', wp (f a) (fun _ => s'.Returned) (fun _ => s'.Returned) s') :
    wp (x >>= f) (fun _ => s.Returned) (fun _ => s.Returned) s := by
  rw [wp_bind]
  exact wp_mono hx (fun a t ht => ht.wp_of (hf a t)) (fun _ _ h => h)

def Returns {α : Type} (x : WmgrM α) : Prop :=
  ∀ s, wp x (fun _ => s.Returned) (fun _ => s.Returned) s

namespace Returns

variable {α β : Type} {x : WmgrM α} {f : α → WmgrM β}

theorem pure (a : α) : Returns (Pure.pure a : WmgrM α) := fun s => .refl s

theorem throw (e : JErr) : Returns (MonadExcept.throw e : WmgrM α) := fun s => .refl s

theorem bind (hx : Returns x) (hf : ∀ a, Returns (f a)) : Returns (x >>= f) := by
  exact fun s => Returned.wp_then (hx s) hf

theorem get_bind {f : Wmgr → WmgrM β} (h : ∀ s, Returns (f s)) : Returns (get >>= f) :=
  fun s => h s s

theorem ite (c : Prop) [Decidable c] {y : WmgrM α} (hx : c → Returns x) (hy : ¬c → Returns y) :
    Returns (if c then x else y) := by
  split
  · exact hx ‹_›
  · exact hy ‹_›

end Returns

private theorem returns_modFcntl (fid : Nat) (f : Fcntl → Fcntl)
    (hw : ∀ c, (f c).wrSubm = c.wrSubm) (ha : ∀ c, (f c).aioCnt ≤ c.aioCnt) :
    Returns (modFcntl fid f) := by
  intro s
  refine { Returned.refl s with wrSubm := ?_, aioCnt := ?_ }
  · intro j
    by_cases hj : j = fid
    · subst hj
      simp [hw]
    · simp [hj]
  · intro j
    by_cases hj : j = fid
    · subst hj
      simpa using ha _
    · simp [hj]

theorem returns_modPage (i : Nat) (f : PageCb → PageCb) (hf : ∀ p, (f p).buff = p.buff)
    (hp : ∀ p, (f p).state ≠ .aioPending) : Returns (modPage i f) := by
  intro s
  refine { Returned.refl s with buff := ?_, waits := ?_ }
  · intro j
    by_cases hj : j = i
    · subst hj
      simp [hf]
    · simp [hj]
  · intro j
    by_cases hj : j = i
    · subst hj
      simp [hp]
    · simp [hj]

private theorem wp_modTok {s : Wmgr} {tok : Nat} {f : DataTok → DataTok}
    (h : (s.toks tok).Returned (f (s.toks tok))) :
    wp (modTok tok f) (fun _ => s.Returned) (fun _ => s.Returned) s := by
  refine { Returned.refl s with toks := ?_ }
  intro j
  by_cases hj : j = tok
  · subst hj
    simpa using h
  · simpa [hj] using DataTok.Returned.refl _

theorem returns_writeReturned (fid dblks : Nat) : Returns (writeReturned fid dblks) := by
  refine .get_bind fun s => .ite _ (fun _ => .throw _) fun _ => .ite _ (fun _ => .throw _) fun _ => ?_
  exact returns_modFcntl _ _ (fun _ => rfl) (fun _ => Nat.sub_le _ _)

theorem returns_eraseTxnPending (xid : Xid) : Returns (eraseTxnPending xid) := by
  intro s
  by_cases h : xid ∈ s.txnPending
  · simp only [eraseTxnPending, wp_bind, wp_get, if_pos h, wp_set]
    exact { Returned.refl s with }
  · simp only [eraseTxnPending, wp_bind, wp_get, if_neg h, wp_throw]
    exact .refl s

theorem returns_setAioCompl (xid : Xid) (rid : Nat) : Returns (setAioCompl xid rid) := by
  intro s
  refine { Returned.refl s with maps := ?_ }
  intro I hI hs
  change I { s.maps with tmap := (s.maps.tmap.setAioCompl xid rid).toOption.getD s.maps.tmap }
  cases h : s.maps.tmap.setAioCompl xid rid with
  | ok tmap => exact hI _ _ _ _ hs h
  | error e => exact hs

theorem returns_tokCompleted (tok : Nat) : Returns (tokCompleted tok) := by
  intro s
  simp only [tokCompleted, wp_bind, wp_get]
  cases ho : (s.toks tok).wstate.submOp with
  | none => exact Returns.ite _ (fun _ => .pure _) (fun _ => .throw _) s
  | some op =>
    refine Returned.wp_then
      (wp_modTok ⟨rfl, rfl, rfl, rfl, rfl, rfl, rfl, Or.inr ⟨op, ho, rfl⟩⟩) fun _ => ?_
    have hs : ∀ b : Bool, Returns (if (s.toks tok).xid ≠ [] then
        setAioCompl (s.toks tok).xid (s.toks tok).rid >>= fun _ => pure b else pure b) :=
      fun b => .ite _ (fun _ => .bind (returns_setAioCompl _ _) fun _ => .pure _) fun _ => .pure _
    cases op with
    | enqueue => exact hs true
    | dequeue => exact hs true
    | abort => exact Returns.bind (returns_eraseTxnPending _) fun _ => .pure _
    | commit => exact Returns.bind (returns_eraseTxnPending _) fun _ => .pure _

theorem returns_tokReturned (tok : Nat) : Returns (tokReturned tok) := by
  refine .get_bind fun s => .ite _ (fun _ => .throw _) fun _ => ?_
  refine .bind (fun t => wp_modTok ⟨rfl, rfl, rfl, rfl, rfl, rfl, rfl, Or.inl rfl⟩) fun _ => ?_
  exact .ite _ (fun _ => returns_tokCompleted tok) fun _ => .pure _

theorem returns_toksReturned (toks : List Nat) : Returns (toksReturned toks) := by
  induction toks with
  | nil => exact .pure _
  | cons tok toks ih =>
    exact .bind (returns_tokReturned tok) fun b => .bind ih fun l => .pure _

private theorem returns_pageReturned (pg : Nat) (toks : List Nat) (fid dblks : Nat) :
    Returns (do
      let toks ← toksReturned toks
      writeReturned fid dblks
      modPage pg fun p => { p with pdtokl := [], state := .unused }
      modify fun s => { s with acked := s.acked ++ toks.map fun tok => (tok, s.toks tok) } : WmgrM Unit) := by
  refine .bind (returns_toksReturned toks) fun l => .bind (returns_writeReturned _ _) fun _ => ?_
  exact .bind (returns_modPage _ _ (fun _ => rfl) fun _ => by rintro ⟨⟩) fun _ => fun s => { Returned.refl s with }

theorem returns_eventReturned (i : Nat) : Returns (eventReturned i) := by
  intro s
  simp only [eventReturned, wp_bind, wp_get]
  by_cases hi : i ∉ s.pending
  · rw [if_pos hi]
    exact .refl s
  · rw [if_neg hi]
    by_cases h0 : s.aioEvtRem = 0
    · rw [if_pos h0]
      exact .refl s
    · rw [if_neg h0]
      refine Returned.wp_then (x := set _) (show s.Returned _ from { Returned.refl s with })
        fun _ t => ?_
      cases s.subm[i]? with
      | none => exact .refl t
      | some w =>
        obtain ⟨fid, offs, dblks, content, page, inst⟩ := w
        cases page with
        | some pg => exact returns_pageReturned pg _ _ _ t
        | none =>
          refine Returns.bind (returns_writeReturned _ _) (fun _ => ?_) t
          exact returns_modFcntl fid _ (fun _ => rfl) fun _ => Nat.le_refl _

theorem returns_getEvents (evs : List Nat) : Returns (getEvents evs) := by
  refine .get_bind fun s => .ite _ (fun _ => .pure _) fun _ => ?_
  intro t
  exact wp_mono (wp_forM (I := t.Returned) evs (fun i _ u hu => hu.wp_of (returns_eventReturned i u))
    (.refl t)) (fun _ _ h => h) (fun _ _ h => h)

end Wmgr

end RhmStore
