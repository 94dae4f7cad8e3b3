import RhmStore.Writer.Exact

/-! # What a call leaves busy -/

namespace RhmStore

structure DataTok.SameRecord (t t' : DataTok) : Prop where
  rid : t'.rid = t.rid
  dequeueRid : t'.dequeueRid = t.dequeueRid
  xid : t'.xid = t.xid

theorem DataTok.SameRecord.refl (t : DataTok) : t.SameRecord t := ⟨rfl, rfl, rfl⟩

theorem DataTok.Returned.sameRecord {t t' : DataTok} (h : t.Returned t') : t.SameRecord t' :=
  ⟨h.rid, h.dequeueRid, h.xid⟩

namespace Wmgr

variable {g : Geom} {s s' : Wmgr} {c : Call}

def dequeuedRid (t : DataTok) : Nat := if t.externalRid then t.dequeueRid else t.rid

/-- A dequeue comes to `dequeue_check` with a new record, is rejected there, and has set its token to
something else before. -/
structure Rejects (g : Geom) (tok : Nat) (xid : Xid) (s : Wmgr) : Prop where
  free : s.busy .dequeue = false
  passes : ∃ u, preWriteCheck g .dequeue tok 0 0 false s = .ok .success u
  rejects : ¬∃ m, Maps.dequeueCheck xid (dequeuedRid (s.toks tok)) s.maps = .ok () m
  sets : ¬((s.toks tok).externalRid = true ∧ (s.toks tok).xid = xid)

theorem rejects_iff (tok : Nat) (xid : Xid) : s.Rejects g tok xid ↔ s.busy .dequeue = false ∧
    (∃ u, preWriteCheck g .dequeue tok 0 0 false s = .ok .success u) ∧
    (¬∃ m, Maps.dequeueCheck xid (dequeuedRid (s.toks tok)) s.maps = .ok () m) ∧
    ¬((s.toks tok).externalRid = true ∧ (s.toks tok).xid = xid) :=
  ⟨fun h => ⟨h.free, h.passes, h.rejects, h.sets⟩, fun h => ⟨h.1, h.2.1, h.2.2.1, h.2.2.2⟩⟩

instance decidableExistsReturns (r : EStateM.Result JErr Wmgr Iores) (res : Iores) :
    Decidable (∃ u, r = .ok res u) :=
  match r with
  | .ok res' u => decidable_of_iff (res' = res) ⟨fun h => ⟨u, by rw [h]⟩, by rintro ⟨_, ⟨⟩⟩; rfl⟩
  | .error _ _ => isFalse (by rintro ⟨_, ⟨⟩⟩)

instance decidableRejects (tok : Nat) (xid : Xid) : Decidable (s.Rejects g tok xid) :=
  decidable_of_iff _ (rejects_iff tok xid).symm

def RejectsCall (g : Geom) (s : Wmgr) : Call → Prop
  | .dequeue tok xid _ => s.Rejects g tok xid
  | _ => False

instance decidableRejectsCall : (c : Call) → Decidable (s.RejectsCall g c)
  | .dequeue tok xid _ => decidableRejects tok xid
  | .enqueue .. => isFalse id
  | .abort .. => isFalse id
  | .commit .. => isFalse id

theorem prepares_toks (s : Wmgr) : Prepares fun u => u.toks = s.toks where
  reset u b v hu _ hr := by
    cases hr with
    | held _ => exact hu
    | reset _ _ => exact hu
  use u hu _ := hu

/-- What is done or thrown before the loop, but for `dequeue_check`. -/
def Untouched (s : Wmgr) (e : Entry) (s' : Wmgr) : Prop := ∀ res, e = .done res → s'.toks = s.toks

theorem wp_enqueue_toks (tok n m : Nat) (xid : Xid) (transient external : Bool) :
    wp (enqueue g tok n m xid transient external) s.Untouched (fun _ s' => s'.toks = s.toks) s := by
  rw [enqueue, wp_bind, wp_get]
  by_cases ho : s.otherBusy .enqueue = true
  · rw [if_pos ho]
    exact fun _ _ => rfl
  · rw [if_neg ho]
    by_cases hn : m ≠ n ∧ external = false
    · rw [if_pos hn]
      exact fun _ _ => rfl
    · rw [if_neg hn]
      apply (prepares_toks s).wp_begin (c := .enqueue tok n m xid transient external)
        (fun _ _ hu => hu) rfl (fun _ t ht _ _ _ => ht.inv) (fun _ t ht => ht.inv)
      intro cont rid t _
      cases cont with
      | true =>
        intro res hres
        cases hres
      | false =>
        intro res hres
        cases hres

theorem wp_txnEnd_toks (c : Call) (mk : Nat → Xid → JRec) (xid : Xid) :
    wp (txnEnd g c.op mk c.tok xid) s.Untouched (fun _ s' => s'.toks = s.toks) s := by
  rw [txnEnd, wp_bind, wp_get]
  by_cases hx : xid = []
  · rw [if_pos hx]
    rfl
  · rw [if_neg hx]
    by_cases ho : s.otherBusy c.op = true
    · rw [if_pos ho]
      exact fun _ _ => rfl
    · rw [if_neg ho]
      apply (prepares_toks s).wp_begin (c := c) (fun _ _ hu => hu) rfl (fun _ t ht _ _ _ => ht.inv)
        (fun _ t ht => ht.inv)
      intro cont rid t _
      cases cont with
      | true =>
        intro res hres
        cases hres
      | false =>
        intro res hres
        cases hres

private theorem wp_dequeueEnd_toks {t : Wmgr} (hm : t.maps = s.maps) (tok drid : Nat) (xid : Xid)
    (r : JRec) :
    wp (modTok tok (fun t => { t with xid := xid }) >>= fun _ =>
      onMaps (Maps.dequeueCheck xid drid) >>= fun _ =>
      modTok tok (fun t => { t with dblksWritten := 0 }) >>= fun _ =>
      setBusy .dequeue true >>= fun _ => pure (Entry.encode r false)) s.Untouched
      (fun _ u => (¬∃ m, Maps.dequeueCheck xid drid s.maps = .ok () m) ∧
        u.toks tok = { t.toks tok with xid := xid }) t := by
  rw [wp_bind, modTok, wp_modify, wp_bind, onMaps, wp_onPart]
  apply wp_mono (wp_self (Maps.dequeueCheck xid drid) t.maps)
  · intro _ m _ res hres
    cases hres
  · intro e m he
    rw [hm] at he
    refine ⟨?_, Function.update_self _ _ _⟩
    rintro ⟨m', hok⟩
    rw [he] at hok
    cases hok

theorem wp_dequeue_toks (tok : Nat) (xid : Xid) (b : Bool) :
    wp (dequeue g tok xid b) s.Untouched
      (fun _ s' => (s.toks tok).SameRecord (s'.toks tok) ∨ s.Rejects g tok xid) s := by
  have hsame : ∀ {t : Wmgr}, t.toks = s.toks → (s.toks tok).SameRecord (t.toks tok) := by
    intro t ht
    rw [ht]
    exact .refl _
  rw [dequeue, wp_bind, wp_get]
  by_cases ho : s.otherBusy .dequeue = true
  · rw [if_pos ho]
    exact fun _ _ => rfl
  · rw [if_neg ho]
    by_cases hpre : ∃ u, preWriteCheck g .dequeue tok 0 0 false s = .ok .success u
    · apply (prepares_toks s).wp_begin (c := .dequeue tok xid b) (fun _ _ hu => hu) rfl
        (fun _ t ht _ _ _ => ht.inv) (fun _ t ht => .inl (hsame ht.inv))
      intro cont rid t ht
      rw [wp_bind, wp_get]
      cases cont with
      | true =>
        intro res hres
        cases hres
      | false =>
        have hm : t.maps = s.maps := ht.maps
        have htok : t.toks tok = s.toks tok := by rw [ht.inv]
        simp only [Bool.or_false, Bool.false_eq_true, if_false]
        by_cases hx : (t.toks tok).externalRid = true
        · rw [if_pos hx, if_pos hx]
          apply wp_mono (wp_dequeueEnd_toks hm tok _ xid _) (fun _ _ hu => hu)
          intro _ u hu
          obtain ⟨hrej, hut⟩ := hu
          rw [htok] at hx hrej hut
          by_cases hxid : (s.toks tok).xid = xid
          · left
            rw [hut]
            exact ⟨rfl, rfl, hxid.symm⟩
          · right
            refine ⟨ht.fresh rfl, hpre, ?_, fun hf => hxid hf.2⟩
            rw [dequeuedRid, if_pos hx]
            exact hrej
        · rw [if_neg hx, if_neg hx, wp_bind, modTok, wp_modify]
          apply wp_mono (wp_dequeueEnd_toks (by exact hm) tok _ xid _) (fun _ _ hu => hu)
          intro _ u hu
          have hrej := hu.1
          rw [htok] at hx hrej
          right
          refine ⟨ht.fresh rfl, hpre, ?_, fun hf => hx hf.1⟩
          rw [dequeuedRid, if_neg hx]
          exact hrej
    · rw [wp_bind]
      apply wp_mono (wp_and ((prepares_toks s).wp_preWriteCheck (c := .dequeue tok xid b) rfl 0 0 false)
        (wp_self (preWriteCheck g .dequeue tok 0 0 false) s))
      · intro res u hu
        obtain ⟨⟨hI, -⟩, hres⟩ := hu
        have hne : res ≠ .success := by
          rintro rfl
          exact hpre ⟨u, hres⟩
        rw [if_pos hne]
        exact fun _ _ => hI
      · intro e u hu
        exact .inl (hsame hu.1)

theorem wp_enter_sameRecord (c : Call) :
    wp (c.enter g)
      (fun e s' => ∀ res, e = .done res → (s.toks c.tok).SameRecord (s'.toks c.tok))
      (fun _ s' => (s.toks c.tok).SameRecord (s'.toks c.tok) ∨ s.RejectsCall g c) s := by
  have hsame : ∀ {t : Wmgr}, t.toks = s.toks → (s.toks c.tok).SameRecord (t.toks c.tok) := by
    intro t ht
    rw [ht]
    exact .refl _
  cases c with
  | enqueue tok n m xid transient external =>
    exact wp_mono (wp_enqueue_toks tok n m xid transient external)
      (fun _ _ hu res hres => hsame (hu res hres)) fun _ _ hu => .inl (hsame hu)
  | dequeue tok xid b =>
    exact wp_mono (wp_dequeue_toks tok xid b) (fun _ _ hu res hres => hsame (hu res hres))
      fun _ _ hu => hu
  | abort tok xid =>
    exact wp_mono (wp_txnEnd_toks (.abort tok xid) .txa xid)
      (fun _ _ hu res hres => hsame (hu res hres)) fun _ _ hu => .inl (hsame hu)
  | commit tok xid =>
    exact wp_mono (wp_txnEnd_toks (.commit tok xid) .txc xid)
      (fun _ _ hu res hres => hsame (hu res hres)) fun _ _ hu => .inl (hsame hu)

/-! ## What is busy, and where the page is -/

theorem unentered_pgOffset (c : Call) (n : Nat) : Unentered c fun s => s.pgOffset = n where
  reset s b s' h _ hr := by
    cases hr with
    | held _ => exact h
    | reset _ _ => exact h
  use s h _ := h
  rid s n h := h
  busy s h := h
  tok s t h _ _ _ _ _ := h

theorem ResetTo.busy {b : Bool} (h : s.ResetTo b s') : s'.busy = s.busy := by
  cases h with
  | held _ => rfl
  | reset _ _ => rfl

theorem ResetTo.pgOffset {b : Bool} (h : s.ResetTo b s') : s'.pgOffset = s.pgOffset := by
  cases h with
  | held _ => rfl
  | reset _ _ => rfl

theorem RotatesTo.busy {res : Iores} (h : s.RotatesTo g res s') : s'.busy = s.busy := by
  cases h <;> rfl

theorem RotatesTo.pgOffset {res : Iores} (h : s.RotatesTo g res s') : s'.pgOffset = s.pgOffset := by
  cases h <;> rfl

theorem TurnsTo.busy (h : s.TurnsTo g s') : s'.busy = s.busy := by
  cases h with
  | stay _ => rfl
  | turn _ hr => exact hr.busy

theorem TurnsTo.pgOffset (h : s.TurnsTo g s') : s'.pgOffset = s.pgOffset := by
  cases h with
  | stay _ => rfl
  | turn _ hr => exact hr.pgOffset

theorem HeaderedTo.busy (h : s.HeaderedTo s') : s'.busy = s.busy := by
  cases h with
  | kept _ => rfl
  | written _ _ => rfl

theorem EncodesTo.busy {op : OpType} {r : JRec} {tok : Nat} {done : Bool}
    (h : s.EncodesTo g op r tok done s') : s'.busy = s.busy := by
  cases h with
  | part _ hh => exact hh.busy
  | done _ _ _ _ hh => exact hh.busy

theorem busy_taken : s.taken.busy = s.busy := by
  rw [taken]
  split <;> rfl

theorem pgOffset_taken : s.taken.pgOffset = s.pgOffset := by
  rw [taken]
  split <;> rfl

theorem busy_flushed : (s.flushed g).busy = s.busy := by
  rw [flushed]
  split
  · rfl
  · rw [busy_taken]
    rfl

theorem pgOffset_flushed (h : s.cached = 0 → s.pgOffset < g.pgDblks) :
    (s.flushed g).pgOffset < g.pgDblks := by
  have hpos := g.pgDblks_pos
  rw [flushed]
  by_cases h0 : s.cached = 0
  · rw [if_pos h0]
    exact h h0
  · rw [if_neg h0, pgOffset_taken]
    show (if g.pgDblks ≤ (s.rounded g).pgOffset then 0 else (s.rounded g).pgOffset) < _
    split <;> omega

theorem FlushedFrom.pgOffset {evs : List Nat} {t : Wmgr} (h : s.FlushedFrom g evs t)
    (h0 : s.cached = 0 → s.pgOffset < g.pgDblks) : t.taken.pgOffset < g.pgDblks := by
  rw [pgOffset_taken, h.returned.pgOffset]
  exact pgOffset_flushed h0

theorem FlushedFrom.busy {evs : List Nat} {t : Wmgr} (h : s.FlushedFrom g evs t) :
    t.taken.busy = s.busy := by
  rw [busy_taken, h.returned.busy, busy_flushed]

section Check

variable {cont done : Bool} {x : Iores × Bool × Bool} {evs : List Nat}
  (h : s.ChecksTo g (s.FlushedFrom g evs) cont done x s')

include h

theorem ChecksTo.busy : s'.busy = s.busy := by
  cases h with
  | room _ => rfl
  | stay _ ht _ _ => exact ht.busy
  | turn _ ht _ _ hu => exact hu.busy.trans ht.busy

theorem ChecksTo.pgOffset (h0 : s.cached = 0 → s.pgOffset < g.pgDblks) : s'.pgOffset < g.pgDblks := by
  cases h with
  | room hlt => exact hlt
  | stay _ ht _ _ => exact ht.pgOffset h0
  | turn _ ht _ _ hu =>
    rw [hu.pgOffset]
    exact ht.pgOffset h0

end Check

/-- Where nothing is cached behind a turn of the loop, nothing was before. -/
theorem EncodesTo.pgOffset {op : OpType} {r : JRec} {tok : Nat} {done : Bool}
    (h : s.EncodesTo g op r tok done s') (hp : s.pgOffset < g.pgDblks) :
    s'.cached = 0 → s'.pgOffset < g.pgDblks := by
  have hsame : ∀ {u : Wmgr}, u.HeaderedTo s' → u.cached = s.cached + s.encodeLen g r tok →
      u.pgOffset = s.pgOffset + s.encodeLen g r tok → s'.cached = 0 → s'.pgOffset < g.pgDblks := by
    intro u hh hc ho
    cases hh with
    | kept _ => omega
    | written _ _ =>
      show u.cached = 0 → u.pgOffset < g.pgDblks
      omega
  cases h with
  | part _ hh => exact hsame hh rfl rfl
  | done _ _ _ _ hh => exact hsame hh rfl rfl

end Wmgr

namespace Sys

variable {g : Geom} {s s' : Sys}

def calling (s : Sys) : Act → Option Call
  | .call c => some c
  | .step _ => match s.ctl with
    | .encode c _ _ => some c
    | .check c _ _ _ => some c
    | .pageWait c => some c
    | .fileWait c => some c
    | .idle => none
    | .failed => none
  | _ => none

/-- A call of `wmgr` is in its loop. -/
def inLoop (s : Sys) : Bool :=
  match s.ctl with
  | .encode .. => true
  | .check .. => true
  | _ => false

/-- Only the operation of this call is busy, and its token has its record in part. -/
def HeldBy (s : Sys) (c : Call) : Prop :=
  ∀ op, s.w.busy op = true → op = c.op ∧ (s.w.toks c.tok).wstate = op.part

/-- What is left by a call of `wmgr` that returns or throws: it or the call whose record was written in part
before is all that is busy, and without a turn of the loop its token refers to the same record. -/
structure Leaves (s : Sys) (c : Call) (s' : Sys) : Prop where
  busy : s'.HeldBy c ∨ ∃ c' ∈ s.part, s'.HeldBy c'
  token : s.inLoop = false → (s.w.toks c.tok).SameRecord (s'.w.toks c.tok)

/-- Whatever call of `wmgr` ends in the step leaves the journal so. -/
def LeavesOrder (g : Geom) (s : Sys) (a : Act) : Prop :=
  ∀ c ∈ s.calling a, ∀ s' ∈ s.step g a, s'.inLoop = false → s.Leaves c s'

def BusyAt (s : Sys) : Prop :=
  match s.ctl with
  | .encode c _ _ => (∀ op, s.w.busy op = true ↔ op = c.op) ∧ (s.part = none ∨ s.part = some c)
  | .check c _ _ _ => (∀ op, s.w.busy op = true ↔ op = c.op) ∧ (s.part = none ∨ s.part = some c)
  | .failed => True
  | _ => ∀ op, s.w.busy op = true ↔ ∃ c ∈ s.part, c.op = op

def RoomAt (g : Geom) (s : Sys) : Prop :=
  match s.ctl with
  | .check .. => s.w.cached = 0 → s.w.pgOffset < g.pgDblks
  | .failed => True
  | _ => s.w.pgOffset < g.pgDblks

/-- The journal where it stands, unless something has thrown within a loop or a flush. -/
structure InOrder (g : Geom) (s : Sys) : Prop where
  steady : s.ctl ≠ .failed → s.Steady g
  busy : s.BusyAt
  room : s.RoomAt g

/-- What a call of `wmgr` finds. -/
structure Ready (g : Geom) (s : Sys) (c : Call) : Prop where
  steady : s.w.Steady g
  owned : s.Owned
  own : s.Own c
  free : Wmgr.Free c s.w
  busy : ∀ op, s.w.busy op = true ↔ ∃ c ∈ s.part, c.op = op
  room : s.w.pgOffset < g.pgDblks

theorem held_of_part {c : Call} (hb : ∀ op, s.w.busy op = true ↔ ∃ c ∈ s.part, c.op = op)
    (ho : s.Owned) : s.HeldBy c ∨ ∃ c' ∈ s.part, s.HeldBy c' := by
  cases hp : s.part with
  | none =>
    left
    intro op hop
    obtain ⟨c', hc', -⟩ := (hb op).mp hop
    rw [hp] at hc'
    cases hc'
  | some c' =>
    right
    refine ⟨c', rfl, ?_⟩
    intro op hop
    obtain ⟨c₁, hc₁, rfl⟩ := (hb op).mp hop
    rw [hp] at hc₁
    cases hc₁
    exact ⟨rfl, (ho c' hp).1⟩

theorem EntersTo.inOrder {c : Call} (ht : s.EntersTo g c s') (h : s.Ready g c) : s'.InOrder g := by
  have hsteady := ht.steady h.steady h.owned h.own h.free
  have hent := Wmgr.wp_enter (g := g) (c := c) (Wmgr.unentered_pgOffset c s.w.pgOffset) rfl
  have hroom := h.room
  cases ht with
  | encode he =>
    rename_i r cont w
    have ha := wp_of_ok hent he
    refine ⟨fun _ => hsteady, ?_, ha.inv.trans_lt hroom⟩
    cases cont with
    | false =>
      obtain ⟨hfree, hbusy, -⟩ := ha.fresh rfl
      have hpart : s.part = none := by
        cases hp : s.part with
        | none => rfl
        | some c' =>
          have hb := (h.busy c'.op).mpr ⟨c', hp, rfl⟩
          rw [hfree] at hb
          cases hb
      refine ⟨fun op => ?_, .inl hpart⟩
      show w.busy op = true ↔ _
      rw [hbusy]
      by_cases hop : op = c.op
      · rw [hop, Function.update_self]
        exact ⟨fun _ => rfl, fun _ => rfl⟩
      · rw [Function.update_of_ne hop, hfree]
        exact ⟨(by rintro ⟨⟩), fun he => (hop he).elim⟩
    | true =>
      obtain ⟨hb, hst, htoks, hbusy⟩ := ha.goesOn rfl
      have hpart : s.part = some c := by
        rcases h.own with hp | hp
        · exact hp
        · rw [hst, c.op.part_isPart] at hp
          cases hp
      refine ⟨fun op => ?_, .inr hpart⟩
      show w.busy op = true ↔ _
      rw [hbusy, h.busy, hpart]
      constructor
      · rintro ⟨c', ⟨⟩, rfl⟩
        rfl
      · rintro rfl
        exact ⟨c, rfl, rfl⟩
  | wait he =>
    have ha := (wp_of_ok hent he).1
    refine ⟨fun _ => hsteady, ?_, ha.inv.trans_lt hroom⟩
    intro op
    rw [ha.busy]
    exact h.busy op
  | done he =>
    have ha := (wp_of_ok hent he).1
    refine ⟨fun _ => hsteady, ?_, ha.inv.trans_lt hroom⟩
    intro op
    rw [ha.busy]
    exact h.busy op
  | assert he => exact ⟨fun hf => (hf rfl).elim, trivial, trivial⟩
  | refused he =>
    have ha := wp_of_error hent he
    refine ⟨fun _ => hsteady, ?_, ha.inv.trans_lt hroom⟩
    intro op
    rw [ha.busy]
    exact h.busy op

theorem EntersTo.leaves {c : Call} (ht : s.EntersTo g c s') (h : s.Ready g c)
    (hr : ¬s.w.RejectsCall g c) (hl : s'.inLoop = false) :
    (s'.HeldBy c ∨ ∃ c' ∈ s.part, s'.HeldBy c') ∧
      (s.w.toks c.tok).SameRecord (s'.w.toks c.tok) := by
  have hent := Wmgr.wp_enter (g := g) (c := c) (Wmgr.unentered_pgOffset c s.w.pgOffset) rfl
  have htok := Wmgr.wp_enter_sameRecord (g := g) (s := s.w) c
  have hrefused : ∀ {w : Wmgr} {ctl : Ctl}, Wmgr.Refused c (fun w => w.pgOffset = s.w.pgOffset) s.w w →
      HeldBy ⟨w, ctl, s.part⟩ c ∨ ∃ c' ∈ s.part, HeldBy ⟨w, ctl, s.part⟩ c' := by
    intro w ctl hw
    apply held_of_part (s := ⟨w, ctl, s.part⟩)
    · intro op
      show w.busy op = true ↔ _
      rw [hw.busy]
      exact h.busy op
    · exact (h.owned.refused h.own hw).1
  cases ht with
  | encode he => cases hl
  | wait he => exact ⟨hrefused (wp_of_ok hent he).1, wp_of_ok htok he _ rfl⟩
  | done he => exact ⟨hrefused (wp_of_ok hent he).1, wp_of_ok htok he _ rfl⟩
  | assert he =>
    have ha := wp_of_error hent he
    exact ⟨hrefused ha, (wp_of_error htok he).resolve_right hr⟩
  | refused he =>
    have ha := wp_of_error hent he
    exact ⟨hrefused ha, (wp_of_error htok he).resolve_right hr⟩

theorem Start.inOrder (h : s.Start g) : s.InOrder g := by
  have hstart : ∀ w : Wmgr, Steady g ⟨w, .idle, none⟩ → w.busy = (fun _ => false) →
      w.pgOffset < g.pgDblks → InOrder g ⟨w, .idle, none⟩ := by
    intro w hw hb hp
    refine ⟨fun _ => hw, fun op => ?_, hp⟩
    show w.busy op = true ↔ _
    rw [hb]
    constructor
    · rintro ⟨⟩
    · rintro ⟨_, ⟨⟩, _⟩
  have hs := h.steady
  cases h with
  | init => exact hstart _ hs rfl g.pgDblks_pos
  | recovered rd hrd =>
    have hpg : (Wmgr.resumed g rd).pgOffset < g.pgDblks := by
      show _ - _ / g.pgDblks * g.pgDblks < g.pgDblks
      rw [← Nat.mod_eq_sub_div_mul]
      exact Nat.mod_lt _ g.pgDblks_pos
    rcases Wmgr.recovered_to g rd with he | ⟨res, hto⟩
    · exact hstart _ hs (by rw [he]; rfl) (by rw [he]; exact hpg)
    · exact hstart _ hs hto.busy (by rw [hto.pgOffset]; exact hpg)

section Steps

variable {c : Call} {evs : List Nat}

theorem InOrder.ready_idle (h : s.InOrder g) (hi : s.ctl = .idle) (hg : s.given c = true) :
    s.Ready g c := by
  have hs := h.steady (by rw [hi]; rintro ⟨⟩)
  obtain ⟨hown, hfree⟩ := hs.of_given hi hg
  have hctl := hs.ctl
  have hb := h.busy
  have hr := h.room
  simp only [AtCtl, BusyAt, RoomAt, hi] at hctl hb hr
  exact ⟨hs.w, hctl, hown, hfree, hb, hr⟩

theorem InOrder.ready_pageWait (h : s.InOrder g) (hs : s.ctl = .pageWait c) : s.Ready g c := by
  have hst := h.steady (by rw [hs]; rintro ⟨⟩)
  have hctl := hst.ctl
  have hb := h.busy
  have hr := h.room
  simp only [AtCtl, BusyAt, RoomAt, hs] at hctl hb hr
  exact ⟨hst.w, hctl.1, hctl.2.1, hctl.2.2.1, hb, hr⟩

theorem InOrder.ready_fileWait (h : s.InOrder g) (hs : s.ctl = .fileWait c) {b : Bool} {w : Wmgr}
    (hr : Wmgr.wrReset s.w = .ok b w) (hp : (w.toks c.tok).wstate.isPart = true) :
    Ready g ⟨w, .idle, s.part⟩ c := by
  have hst := h.steady (by rw [hs]; rintro ⟨⟩)
  have hctl := hst.ctl
  have hb := h.busy
  have hroom := h.room
  simp only [AtCtl, BusyAt, RoomAt, hs] at hctl hb hroom
  obtain ⟨ho, hown⟩ := hctl
  have hto := wp_of_ok (Wmgr.wp_wrReset_to fun _ _ => False) hr
  have htoks : w.toks = s.w.toks := by cases hto <;> rfl
  constructor
  · exact hst.w.resetTo hto
  · intro c' hc'
    simp only [htoks]
    exact ho c' hc'
  · rcases hown with hown | hown
    · exact .inl hown
    · rw [htoks, hown] at hp
      cases hp
  · exact fun _ => WState.submOp_of_isPart hp
  · intro op
    show w.busy op = true ↔ _
    rw [hto.busy]
    exact hb op
  · show w.pgOffset < g.pgDblks
    rw [hto.pgOffset]
    exact hroom

theorem busyAt_handle {res : Iores} {w : Wmgr} (hb : ∀ op, w.busy op = true ↔ op = c.op)
    (hw : (w.toks c.tok).wstate = c.op.part ∨ (w.toks c.tok).wstate = c.op.subm ∨
      (w.toks c.tok).wstate = c.op.compl) : (handle c res (released c w)).BusyAt := by
  have hidle : ∀ op, (released c w).busy op = true ↔
      ∃ c' ∈ (if ((released c w).toks c.tok).wstate.isPart then some c else none), c'.op = op := by
    intro op
    rw [(released_same c w).1]
    rcases hw with hw | hw
    · have hnot : (w.toks c.tok).wstate.atLeast c.op.subm = false := by
        rw [hw]
        cases c.op <;> rfl
      rw [released, if_neg (by rw [hnot]; exact Bool.false_ne_true), hb, if_pos (by
        rw [hw]; exact c.op.part_isPart)]
      constructor
      · rintro rfl
        exact ⟨c, rfl, rfl⟩
      · rintro ⟨c', ⟨⟩, rfl⟩
        rfl
    · have hall : (w.toks c.tok).wstate.atLeast c.op.subm = true ∧
          (w.toks c.tok).wstate.isPart = false := by
        rcases hw with hw | hw <;> rw [hw] <;> cases c.op <;> exact ⟨rfl, rfl⟩
      rw [released, if_pos hall.1, if_neg (by rw [hall.2]; exact Bool.false_ne_true)]
      constructor
      · intro hop
        replace hop : Function.update w.busy c.op false op = true := hop
        by_cases he : op = c.op
        · rw [he, Function.update_self] at hop
          cases hop
        · rw [Function.update_of_ne he] at hop
          exact (he ((hb op).mp hop)).elim
      · rintro ⟨c', ⟨⟩, -⟩
  cases res <;> exact hidle

theorem wstate_of_check {r : JRec} {cont done : Bool} {w : Wmgr} (hs : s.ctl = .check c r cont done)
    (h : s.AtCtl) (hr : (s.w.toks c.tok).Returned (w.toks c.tok)) :
    (w.toks c.tok).wstate = c.op.part ∨ (w.toks c.tok).wstate = c.op.subm ∨
      (w.toks c.tok).wstate = c.op.compl := by
  simp only [AtCtl, hs] at h
  obtain ⟨-, -, hw⟩ := h
  rcases hr.wstate with he | ⟨op, hop, he⟩
  · rw [he, hw]
    cases done with
    | true => exact .inr (.inl rfl)
    | false => exact .inl rfl
  · rw [hw] at hop
    cases done with
    | true =>
      have hsub : op = c.op := by
        simp only [if_true] at hop
        cases hc : c.op <;> rw [hc] at hop <;> cases hop <;> rfl
      exact .inr (.inr (he.trans (by rw [hsub])))
    | false =>
      rw [if_neg Bool.false_ne_true, c.op.part_submOp] at hop
      cases hop

theorem ProceedsTo.inOrder (ht : s.ProceedsTo g evs s') (h : s.InOrder g) : s'.InOrder g := by
  have hsteady : s'.ctl ≠ .failed → s.ctl ≠ .failed → s'.Steady g := fun hn hs =>
    ht.steady (h.steady hs) fun hf => (hn hf).elim
  have hb := h.busy
  have hr := h.room
  cases ht with
  | encoded hs he =>
    have hto := wp_of_ok (Wmgr.wp_encodePart_to _) he
    simp only [BusyAt, RoomAt, hs] at hb hr
    refine ⟨fun hn => hsteady hn (by rw [hs]; rintro ⟨⟩), ⟨fun op => ?_, hb.2⟩, hto.pgOffset hr⟩
    rw [hto.busy]
    exact hb.1 op
  | encodeFailed hs he => exact ⟨fun hn => (hn rfl).elim, trivial, trivial⟩
  | checked hs he =>
    have hst := h.steady (by rw [hs]; rintro ⟨⟩)
    have hto := wp_of_ok (Wmgr.wp_flushCheck_steady hst.w _ _ evs) he
    simp only [BusyAt, RoomAt, hs] at hb hr
    refine ⟨fun hn => hsteady hn (by rw [hs]; rintro ⟨⟩), ⟨fun op => ?_, hb.2⟩, hto.pgOffset hr⟩
    rw [hto.busy]
    exact hb.1 op
  | left hs he =>
    rename_i c r cont done cont' res w
    have hst := h.steady (by rw [hs]; rintro ⟨⟩)
    have hctl := hst.ctl
    have hto := wp_of_ok (Wmgr.wp_flushCheck_steady hst.w _ _ evs) he
    have hpage : (s.w.pages s.w.pgIndex).state = .inUse := by
      simp only [AtCtl, hs] at hctl
      exact hctl.1
    have hret := (hto.steady hst.w hpage).2.1 c.tok
    simp only [BusyAt, RoomAt, hs] at hb hr
    have hroom : (released c w).pgOffset < g.pgDblks := by
      have hw := hto.pgOffset hr
      rw [released]
      split <;> exact hw
    have hbusy : (handle c res (released c w)).BusyAt := by
      apply busyAt_handle _ (wstate_of_check hs hctl hret)
      intro op
      rw [hto.busy]
      exact hb.1 op
    refine ⟨fun hn => hsteady hn (by rw [hs]; rintro ⟨⟩), hbusy, ?_⟩
    cases res <;> exact hroom
  | checkFailed hs he => exact ⟨fun hn => (hn rfl).elim, trivial, trivial⟩
  | pageFree hs hp he => exact he.inOrder (h.ready_pageWait hs)
  | fileFree hs ha hr hp he => exact he.inOrder (h.ready_fileWait hs hr hp)
  | fileDone hs ha hrr hp =>
    have hto := wp_of_ok (Wmgr.wp_wrReset_to fun _ _ => False) hrr
    simp only [BusyAt, RoomAt, hs] at hb hr
    refine ⟨fun hn => hsteady hn (by rw [hs]; rintro ⟨⟩), fun op => ?_, hto.pgOffset.trans_lt hr⟩
    rw [hto.busy]
    exact hb op
  | waits hs he =>
    have hne : s.ctl ≠ .failed := by
      rcases hs with ⟨hs, -⟩ | ⟨hs, -⟩ <;> rw [hs] <;> rintro ⟨⟩
    have hto := (wp_of_ok (Wmgr.wp_getEvents_steady (h.steady hne).w evs) he).2.1
    refine ⟨fun hn => hsteady hn hne, ?_, ?_⟩
    · rcases hs with ⟨hs, -⟩ | ⟨hs, -⟩ <;> simp only [BusyAt, hs, hto.busy] at hb ⊢ <;> exact hb
    · rcases hs with ⟨hs, -⟩ | ⟨hs, -⟩ <;> simp only [RoomAt, hs, hto.pgOffset] at hr ⊢ <;> exact hr
  | waitFailed hs he => exact ⟨fun hn => (hn rfl).elim, trivial, trivial⟩

theorem StepsTo.inOrder {a : Act} (ht : s.StepsTo g a s') (h : s.InOrder g) : s'.InOrder g := by
  have hsteady : s'.ctl ≠ .failed → s.ctl ≠ .failed → s'.Steady g := fun hn hs =>
    ht.steady (h.steady hs) fun hf => (hn hf).elim
  have hb := h.busy
  have hr := h.room
  cases ht with
  | token hi hf hp =>
    have hne : s.ctl ≠ .failed := by rw [hi]; rintro ⟨⟩
    refine ⟨fun hn => hsteady hn hne, ?_, ?_⟩
    · simp only [BusyAt, hi] at hb ⊢
      exact hb
    · simp only [RoomAt, hi] at hr ⊢
      exact hr
  | call hi hg he => exact he.inOrder (h.ready_idle hi hg)
  | step he => exact he.inOrder h
  | collected hi he =>
    rcases hi with hi | hi
    · have hne : s.ctl ≠ .failed := by rw [hi]; rintro ⟨⟩
      have hto := (wp_of_ok (Wmgr.wp_getEvents_steady (h.steady hne).w _) he).2.1
      refine ⟨fun hn => hsteady hn hne, ?_, ?_⟩
      · simp only [BusyAt, hi, hto.busy] at hb ⊢
        exact hb
      · simp only [RoomAt, hi, hto.pgOffset] at hr ⊢
        exact hr
    · refine ⟨fun hn => (hn hi).elim, ?_, ?_⟩
      · simp only [BusyAt, hi]
      · simp only [RoomAt, hi]
  | collectFailed hi he => exact ⟨fun hn => (hn rfl).elim, trivial, trivial⟩
  | flushed hi he =>
    rcases hi with hi | hi
    · have hne : s.ctl ≠ .failed := by rw [hi]; rintro ⟨⟩
      obtain ⟨t, hf, hto⟩ := wp_of_ok (Wmgr.wp_flush_steady (h.steady hne).w _) he
      refine ⟨fun hn => hsteady hn hne, ?_, ?_⟩
      · simp only [BusyAt, hi, hto.busy, hf.busy] at hb ⊢
        exact hb
      · simp only [RoomAt, hi, hto.pgOffset] at hr ⊢
        exact hf.pgOffset fun _ => hr
    · refine ⟨fun hn => (hn hi).elim, ?_, ?_⟩
      · simp only [BusyAt, hi]
      · simp only [RoomAt, hi]
  | flushFailed hi he => exact ⟨fun hn => (hn rfl).elim, trivial, trivial⟩

/-- Outside of a loop, what is busy is held. -/
theorem InOrder.held (h : s.InOrder g) (hl : s.inLoop = false) (hf : s.ctl ≠ .failed) :
    s.HeldBy c ∨ ∃ c' ∈ s.part, s.HeldBy c' := by
  have hctl := (h.steady hf).ctl
  have hb := h.busy
  cases hc : s.ctl with
  | idle =>
    simp only [AtCtl, BusyAt, hc] at hctl hb
    exact held_of_part hb hctl
  | encode => rw [inLoop, hc] at hl; cases hl
  | check => rw [inLoop, hc] at hl; cases hl
  | pageWait =>
    simp only [AtCtl, BusyAt, hc] at hctl hb
    exact held_of_part hb hctl.1
  | fileWait =>
    simp only [AtCtl, BusyAt, hc] at hctl hb
    exact held_of_part hb hctl.1
  | failed => exact (hf hc).elim

/-- The maps take the record that is complete, its last page fits into the file, and `dequeue_check` rejects
no dequeue behind the change of its token. -/
def Clean (g : Geom) (s : Sys) : Act → Prop
  | .call c => ¬s.w.RejectsCall g c
  | .step _ => match s.ctl with
    | .encode c r _ => r.recSizeDblks ≤ s.w.dblksAfter g r c.tok →
        (∃ m, Maps.complete (s.w.headFid c.tok) r s.w.maps = .ok () m) ∧
          ∀ xid ∈ r.endXid, xid ∉ s.w.txnPending
    | .check _ _ _ done => done = true → g.pgDblks ≤ s.w.pgOffset → s.w.Room g
    | .pageWait c => (s.w.pages s.w.pgIndex).state = .unused → ¬s.w.RejectsCall g c
    | _ => True
  | _ => True

instance decidableClean : (a : Act) → Decidable (s.Clean g a)
  | .call c => inferInstanceAs (Decidable (¬s.w.RejectsCall g c))
  | .step _ => match hc : s.ctl with
    | .encode c r _ => decidable_of_iff (r.recSizeDblks ≤ s.w.dblksAfter g r c.tok →
        (∃ m, Maps.complete (s.w.headFid c.tok) r s.w.maps = .ok () m) ∧
          ∀ xid ∈ r.endXid, xid ∉ s.w.txnPending) (by simp only [Clean, hc])
    | .check _ _ _ done => decidable_of_iff (done = true → g.pgDblks ≤ s.w.pgOffset → s.w.Room g)
        (by simp only [Clean, hc])
    | .pageWait c => decidable_of_iff
        ((s.w.pages s.w.pgIndex).state = .unused → ¬s.w.RejectsCall g c) (by simp only [Clean, hc])
    | .idle => isTrue (by simp only [Clean, hc])
    | .fileWait _ => isTrue (by simp only [Clean, hc])
    | .failed => isTrue (by simp only [Clean, hc])
  | .token _ _ => isTrue trivial
  | .collect _ => isTrue trivial
  | .flush _ => isTrue trivial

theorem ProceedsTo.leaves (ht : s.ProceedsTo g evs s') (h : s.InOrder g)
    (hc : s.Clean g (.step evs)) (hcall : s.calling (.step evs) = some c) (hl : s'.inLoop = false) :
    s.Leaves c s' := by
  have h' := ht.inOrder h
  have hb := h.busy
  have hr := h.room
  cases ht with
  | encoded hs he => cases hl
  | encodeFailed hs he =>
    simp only [Clean, RoomAt, hs] at hc hr
    cases wp_of_error (Wmgr.wp_encodePart_to _) he with
    | full hfull => omega
    | maps m hge hm =>
      obtain ⟨⟨m', hm'⟩, hx⟩ := hc hge
      rcases hm with hm | ⟨xid, hxid, hin⟩
      · exact (hm m' hm').elim
      · exact (hx xid hxid hin).elim
  | checked hs he => cases hl
  | left hs he =>
    rename_i c' r cont done cont' res w
    simp only [calling, hs] at hcall
    obtain rfl := Option.some.inj hcall
    have hf : (handle c' res (released c' w)).ctl ≠ .failed := by cases res <;> rintro ⟨⟩
    constructor
    · left
      rcases h'.held (c := c') hl hf with hheld | ⟨c₁, hc₁, hheld⟩
      · exact hheld
      · have hpart : (handle c' res (released c' w)).part =
            if ((released c' w).toks c'.tok).wstate.isPart then some c' else none := by
          cases res <;> rfl
        rw [hpart] at hc₁
        split at hc₁
        · cases hc₁
          exact hheld
        · cases hc₁
    · intro hin
      rw [inLoop, hs] at hin
      cases hin
  | checkFailed hs he =>
    rename_i c' r cont done e w
    simp only [calling, hs] at hcall
    obtain rfl := Option.some.inj hcall
    have hst := h.steady (by rw [hs]; rintro ⟨⟩)
    have hctl := hst.ctl
    obtain ⟨hfull, hroom, rfl⟩ := wp_of_error (Wmgr.wp_flushCheck_steady hst.w _ _ evs) he
    simp only [Clean, AtCtl, BusyAt, hs] at hc hctl hb
    constructor
    · left
      intro op hop
      obtain rfl := (hb.1 op).mp hop
      refine ⟨rfl, ?_⟩
      show (s.w.toks c'.tok).wstate = _
      rw [hctl.2.2]
      cases done with
      | true => exact (hroom (hc rfl hfull)).elim
      | false => rfl
    · intro hin
      rw [inLoop, hs] at hin
      cases hin
  | pageFree hs hp he =>
    simp only [calling, hs] at hcall
    obtain rfl := Option.some.inj hcall
    simp only [Clean, hs] at hc
    obtain ⟨hheld, hsame⟩ := he.leaves (h.ready_pageWait hs) (hc hp) hl
    exact ⟨hheld, fun _ => hsame⟩
  | fileFree hs ha hrr hp he =>
    rename_i c' b w
    simp only [calling, hs] at hcall
    obtain rfl := Option.some.inj hcall
    have hready := h.ready_fileWait hs hrr hp
    have htoks : w.toks = s.w.toks := by
      cases wp_of_ok (Wmgr.wp_wrReset_to fun _ _ => False) hrr <;> rfl
    have hnot : ¬w.RejectsCall g c' := by
      -- the operation goes on with its record
      have hpart : s.part = some c' := by
        rcases hready.own with hown | hown
        · exact hown
        · rw [hp] at hown
          cases hown
      have hbc : w.busy c'.op = true := (hready.busy c'.op).mpr ⟨c', hpart, rfl⟩
      intro hrej
      cases c' with
      | dequeue tok xid b =>
        have hfree : w.busy .dequeue = false := hrej.free
        rw [show Call.op (.dequeue tok xid b) = .dequeue from rfl, hfree] at hbc
        cases hbc
      | enqueue => exact hrej
      | abort => exact hrej
      | commit => exact hrej
    obtain ⟨hheld, hsame⟩ := he.leaves hready hnot hl
    refine ⟨hheld, fun _ => ?_⟩
    rw [← htoks]
    exact hsame
  | fileDone hs ha hrr hp =>
    rename_i c' b w
    have htoks : w.toks = s.w.toks := by
      cases wp_of_ok (Wmgr.wp_wrReset_to fun _ _ => False) hrr <;> rfl
    refine ⟨h'.held hl (by rintro ⟨⟩), fun _ => ?_⟩
    rw [htoks]
    exact .refl _
  | waits hs he =>
    have hne : s.ctl ≠ .failed := by
      rcases hs with ⟨hs, -⟩ | ⟨hs, -⟩ <;> rw [hs] <;> rintro ⟨⟩
    have hto := (wp_of_ok (Wmgr.wp_getEvents_steady (h.steady hne).w evs) he).2.1
    exact ⟨h'.held hl hne, fun _ => (hto.toks c.tok).sameRecord⟩
  | waitFailed hs he =>
    have hne : s.ctl ≠ .failed := by
      rcases hs with hs | hs <;> rw [hs] <;> rintro ⟨⟩
    exact (wp_of_error (Wmgr.wp_getEvents_steady (h.steady hne).w evs) he).elim

theorem InOrder.leavesOrder {a : Act} (h : s.InOrder g) (hc : s.Clean g a) : s.LeavesOrder g a := by
  intro c hcall s' hs' hl
  have hto := stepsTo hs'
  cases hto with
  | call hi hg he =>
    obtain rfl := Option.some.inj hcall
    obtain ⟨hheld, hsame⟩ := he.leaves (h.ready_idle hi hg) hc hl
    exact ⟨hheld, fun _ => hsame⟩
  | step he => exact he.leaves h hc hcall hl
  | token => cases hcall
  | collected => cases hcall
  | collectFailed => cases hcall
  | flushed => cases hcall
  | flushFailed => cases hcall

end Steps

/-- Every call of a run whose steps are clean leaves the journal in order. -/
theorem run_leavesOrder (hs : s.Start g) {acts : List Act} (hc : s.Along g (Clean g) acts) :
    s.Along g (LeavesOrder g) acts := by
  apply along_of_step _ _ hs.inOrder hc
  · intro t a t' ht _ hto
    exact hto.inOrder ht
  · intro t a ht ha
    exact ht.leavesOrder ha

/-- A record is enqueued, flushed and dequeued. -/
def dequeueRun : List Act :=
  [.call (.enqueue 0 100 100 [] false false), .step [], .step [], .flush [], .collect [0, 1],
    .call (.dequeue 0 [] false), .step [], .step []]

theorem dequeueRun_leavesOrder : (init fourFiles).Along fourFiles (LeavesOrder fourFiles) dequeueRun :=
  run_leavesOrder .init (by decide +kernel)

/-- Two records are enqueued, the second with the rid of the first. -/
def sameRidRun : List Act :=
  [.call (.enqueue 0 100 100 [] false false), .step [], .step [], .token 1 { externalRid := true },
    .call (.enqueue 1 100 100 [] false false)]

/-- The second enqueue throws when its record is complete, and is still busy. -/
theorem sameRidRun_not_leavesOrder : ¬ ∀ (g : Geom) (s : Sys) (acts : List Act), s.Start g →
    s.Along g (LeavesOrder g) acts := by
  intro hall
  have hl := hall fourFiles _ (sameRidRun ++ [.step []]) .init
  have hr : ((init fourFiles).run fourFiles sameRidRun).bind (fun s =>
      (s.step fourFiles (.step [])).map fun s' => (s.calling (.step []), s.part, s'.inLoop,
        s'.w.busy .enqueue, (s'.w.toks 1).wstate)) =
      some (some (.enqueue 1 100 100 [] false false), none, false, true, .enqSubm) := by decide +kernel
  obtain ⟨s, hs, hr⟩ := Option.bind_eq_some_iff.mp hr
  obtain ⟨s', hs', hr⟩ := Option.map_eq_some_iff.mp hr
  simp only [Prod.mk.injEq] at hr
  obtain ⟨hcall, hpart, hin, hbusy, hst⟩ := hr
  rcases (hl.last hs _ hcall s' hs' hin).busy with hheld | ⟨c', hc', -⟩
  · obtain ⟨-, hw⟩ := hheld .enqueue hbusy
    rw [Call.tok, hst] at hw
    cases hw
  · rw [hpart] at hc'
    cases hc'

end Sys

end RhmStore
