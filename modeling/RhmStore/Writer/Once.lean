import RhmStore.Writer.Reports

/-! # Each record is reported complete once, and not early -/

namespace RhmStore

namespace Wmgr

variable {g : Geom} {s s' : Wmgr} {c : Call}

/-- Pages, writes and tokens tell of the parts of all records. -/
structure Tracked (s : Wmgr) : Prop where
  listed : s.Listed
  carried : s.Carried
  reports : s.Reports

theorem Tracked.of_eq (h : s.Tracked) (hl : s'.log = s.log) (hc : s'.cur = s.cur) (hs : s'.subm = s.subm)
    (hq : s'.pending = s.pending) (hp : s'.pages = s.pages) (hx : s'.pgIndex = s.pgIndex)
    (hd : s'.cached = s.cached) (ho : s'.pgOffset = s.pgOffset) (ha : s'.acked = s.acked)
    (ht : s'.toks = s.toks) (hn : s'.txnPending = s.txnPending) : s'.Tracked where
  listed := h.listed.of_eq (by rw [partsOf, hl, hc, partsOf]) hs hq hx (fun _ => by rw [hp])
    fun _ => by rw [hp]
  carried := h.carried.of_eq (by rw [partsOf, hl, hc, partsOf]) hs hx (by rw [hp]) hd ho
  reports := h.reports.of_eq hl hc ha ht hn fun _ _ => by rw [Waits, hs, hq, Waits]

theorem Tracked.used (h : s.Tracked) (hp : (s.pages s.pgIndex).state = .unused) : s.used.Tracked := by
  have hpage : ∀ pg, s.used.pages pg = if pg = s.pgIndex then { s.pages pg with state := .inUse }
      else s.pages pg := by
    intro pg
    by_cases hpg : pg = s.pgIndex
    · subst hpg
      simp [Wmgr.used]
    · simp [Wmgr.used, hpg]
  refine ⟨h.listed.of_eq rfl rfl rfl rfl (fun pg => ?_) fun pg => ?_, h.carried.of_eq rfl rfl rfl ?_ rfl rfl,
    h.reports.of_eq rfl rfl rfl rfl rfl fun _ _ => Iff.rfl⟩
  · rw [hpage]
    split <;> rfl
  · rw [hpage]
    split
    · rename_i hpg
      rw [hpg, hp]
      exact ⟨(by rintro ⟨⟩), by rintro ⟨⟩⟩
    · exact Iff.rfl
  · rw [hpage, if_pos rfl]

theorem Tracked.taken (h : s.Tracked) : s.taken.Tracked := by
  rw [Wmgr.taken]
  split
  · exact h.used ‹_›
  · exact h

theorem Tracked.resetTo (h : s.Tracked) {ok : Bool} (hr : s.ResetTo ok s') : s'.Tracked := by
  cases hr with
  | held _ => exact h.of_eq rfl rfl rfl rfl rfl rfl rfl rfl rfl rfl rfl
  | reset _ _ => exact h.of_eq rfl rfl rfl rfl rfl rfl rfl rfl rfl rfl rfl

theorem Tracked.rotatesTo (h : s.Tracked) {res : Iores} (hr : s.RotatesTo g res s') : s'.Tracked := by
  cases hr with
  | wait _ => exact h.of_eq rfl rfl rfl rfl rfl rfl rfl rfl rfl rfl rfl
  | full _ => exact h.of_eq rfl rfl rfl rfl rfl rfl rfl rfl rfl rfl rfl
  | reset _ _ => exact h.of_eq rfl rfl rfl rfl rfl rfl rfl rfl rfl rfl rfl

theorem Tracked.flushed (h : s.Tracked) (hst : s.Steady g) : (s.flushed g).Tracked := by
  rw [Wmgr.flushed]
  split
  · exact h
  · rename_i h0
    have hs : (s.pageSubmitted g).Tracked := ⟨h.listed.pageSubmitted hst.toBooked (hst.page h0),
      h.carried.pageSubmitted h.listed, h.reports.of_eq rfl rfl rfl rfl rfl fun _ hx =>
        h.listed.waits_submit rfl rfl hx⟩
    exact hs.taken

theorem EventTo.carried {i : Nat} (ht : s.EventTo i s') (h : s.Carried) : s'.Carried := by
  cases ht with
  | none _ => exact h
  | header hi hw hp => exact h.of_eq rfl rfl rfl rfl rfl rfl
  | page hi hw hp htoks =>
    obtain ⟨t, x, m, rfl⟩ := htoks.frame
    rename_i w pg out
    refine h.of_eq rfl rfl rfl ?_ rfl rfl
    by_cases hpg : s.pgIndex = pg
    · subst hpg
      simp only [Function.update_self]
    · simp only [Function.update_of_ne hpg]

theorem wp_getEvents_tracked (h : s.Steady g) (ht : s.Tracked) (evs : List Nat) :
    wp (getEvents evs) (fun _ t => t.Tracked) (fun _ _ => False) s := by
  apply wp_mono (wp_getEvents_to (I := Tracked) _ h.toAccounted ht evs) (fun _ _ ht => ht.2.2)
    fun _ _ he => he
  intro u i t hu hI hto ht
  exact ⟨hI.listed.eventTo hu.toBooked ht.toBooked hto, hto.carried hI.carried,
    hI.reports.eventTo hI.listed hI.carried hu.toBooked hto⟩

theorem wp_flush_tracked (h : s.Steady g) (ht : s.Tracked) (evs : List Nat) :
    wp (flush g evs) (fun _ t => t.Tracked) (fun _ _ => True) s := by
  have hev : wp (getEvents evs) (fun _ => Tracked) (fun _ _ => True) (s.flushed g) :=
    wp_mono (wp_getEvents_tracked h.flushed (ht.flushed h) evs) (fun _ _ ht => ht) fun _ _ _ => trivial
  apply wp_mono (wp_flush_of h.page_ne (fun _ _ => trivial) (fun _ _ => trivial) hev) _ fun _ _ he => he
  intro _ u hu
  obtain ⟨t, ht, hto⟩ := hu
  cases hto with
  | stay _ => exact ht.taken
  | turn _ hr => exact ht.taken.rotatesTo hr

theorem wp_flushCheck_tracked (h : s.Steady g) (ht : s.Tracked) (cont done : Bool) (evs : List Nat) :
    wp (flushCheck g cont done evs) (fun _ t => t.Tracked) (fun _ _ => True) s := by
  have hev : wp (getEvents evs) (fun _ => Tracked) (fun _ _ => True) (s.flushed g) :=
    wp_mono (wp_getEvents_tracked h.flushed (ht.flushed h) evs) (fun _ _ ht => ht) fun _ _ _ => trivial
  apply wp_mono (wp_flushCheck_of h.page_ne (fun _ _ _ => trivial) (fun _ _ _ => trivial) fun _ => hev) _
    fun _ _ he => he
  intro _ u hu
  cases hu with
  | room _ => exact ht
  | stay _ ht _ _ => exact ht.taken
  | turn _ ht _ _ hr => exact ht.taken.rotatesTo hr

section Encode

variable {op : OpType} {r : JRec} {tok : Nat}

theorem Tracked.headeredTo (h : s.Tracked) (hlt : ∀ i ∈ s.pending, i < s.subm.length) (ht : s.HeaderedTo s') :
    s'.Tracked := by
  refine ⟨h.listed.headeredTo hlt ht, h.carried.headeredTo h.listed ht, ?_⟩
  cases ht with
  | kept _ => exact h.reports
  | written h0 hdr =>
    exact h.reports.of_eq rfl rfl rfl rfl rfl fun _ hx => h.listed.waits_submit rfl rfl hx

theorem Tracked.completed (h : s.Tracked) (hb : s.Booked g) (hp : (s.pages s.pgIndex).state = .inUse)
    (hs : (s.toks tok).wstate.submOp = none) (hc : ∀ w ∈ s.cur, w.tok = tok ∧ w.jrec = r) (hop : r.opType = op)
    (hx : ∀ xid ∈ r.endXid, (s.toks tok).xid = xid) (hn : ∀ xid ∈ r.endXid, xid ∉ s.txnPending) (m : Maps) :
    ({ (s.encoded g r tok).completed op r tok m with
      txnPending := r.endXid.toList ++ s.txnPending } : Wmgr).Tracked where
  listed := (h.listed.encoded hb hp hc).of_eq (partsOf_completed op r tok _ m) rfl rfl rfl (fun _ => rfl)
    fun _ => Iff.rfl
  carried := (h.carried.encoded hc).of_eq (partsOf_completed op r tok _ m) rfl rfl rfl rfl rfl
  reports := h.reports.completed hs hc hop hx hn m

/-- The record that goes on is the call's. -/
theorem EncodesTo.tracked {done : Bool} (ht : s.EncodesTo g op r tok done s') (h : s.Tracked) (hb : s.Booked g)
    (hp : (s.pages s.pgIndex).state = .inUse) (hs : (s.toks tok).wstate.submOp = none)
    (hc : ∀ w ∈ s.cur, w.tok = tok ∧ w.jrec = r) (hop : r.opType = op)
    (hx : ∀ xid ∈ r.endXid, (s.toks tok).xid = xid) : s'.Tracked ∧
      (if done = true then s'.cur = none else (s'.toks tok).rid = (s.toks tok).rid ∧
        (s'.toks tok).dequeueRid = (s.toks tok).dequeueRid ∧ ∀ w ∈ s'.cur, w.tok = tok ∧ w.jrec = r) := by
  have hlt : ∀ i ∈ s.pending, i < s.subm.length := fun i hi => hb.lt_of_pending hi
  cases ht with
  | part _ hh =>
    have hpart : (s.partEncoded g op r tok).Tracked :=
      ⟨(h.listed.encoded hb hp hc).of_eq rfl rfl rfl rfl (fun _ => rfl) fun _ => Iff.rfl,
        (h.carried.encoded hc).of_eq rfl rfl rfl rfl rfl rfl, h.reports.partEncoded hs hc⟩
    refine ⟨hpart.headeredTo hlt hh, ?_⟩
    obtain ⟨-, -, htoks⟩ := hh.same
    obtain ⟨w, hw, hwt⟩ := cur_encoded (g := g) hc
    have hcur : s'.cur = some w := by
      cases hh <;> exact hw
    rw [if_neg Bool.false_ne_true, htoks, hcur]
    refine ⟨by simp [Wmgr.partEncoded, Wmgr.encoded], by simp [Wmgr.partEncoded, Wmgr.encoded], fun v hv => ?_⟩
    obtain rfl := Option.some.inj hv
    exact hwt
  | done hge hm hpend hx' hh =>
    subst hpend
    refine ⟨(h.completed hb hp hs hc hop hx hx' _).headeredTo hlt hh, ?_⟩
    rw [if_pos rfl]
    cases hh <;> rfl

theorem EncodeFails.tracked (ht : s.EncodeFails g op r tok s') (h : s.Tracked) (hb : s.Booked g)
    (hp : (s.pages s.pgIndex).state = .inUse) (hs : (s.toks tok).wstate.submOp = none)
    (hc : ∀ w ∈ s.cur, w.tok = tok ∧ w.jrec = r) (hop : r.opType = op)
    (hclear : r.endXid ≠ none → r.recSizeDblks ≤ s.dblksAfter g r tok →
      (∃ m, Maps.complete (s.headFid tok) r s.maps = .ok () m) ∧ ∀ xid ∈ r.endXid, xid ∉ s.txnPending) :
    s'.Tracked := by
  cases ht with
  | full _ => exact h
  | maps m hge hm =>
    have hnone : r.endXid = none := by
      by_contra hne
      obtain ⟨⟨m', hm'⟩, hxid⟩ := hclear hne hge
      rcases hm with hm | ⟨xid, hmem, hin⟩
      · exact hm m' hm'
      · exact hxid xid hmem hin
    have hdone := h.completed hb hp hs hc hop (by simp [hnone]) (by simp [hnone]) m
    rw [hnone] at hdone
    exact hdone

end Encode

/-- Tracked before the loop of a call, with the same record going on. -/
theorem unentered_tracked (v : Option Written) :
    Unentered c fun s => (s.Steady g ∧ Free c s) ∧ s.Tracked ∧ s.cur = v where
  reset s ok s' h hr ht := by
    refine ⟨unentered_steady.reset s ok s' h.1 hr ht, h.2.1.resetTo ht, ?_⟩
    cases ht with
    | held _ => exact h.2.2
    | reset _ _ => exact h.2.2
  use s h hp := ⟨unentered_steady.use s h.1 hp, h.2.1.used hp, h.2.2⟩
  rid s n h := ⟨unentered_steady.rid s n h.1, h.2.1.of_eq rfl rfl rfl rfl rfl rfl rfl rfl rfl rfl rfl, h.2.2⟩
  busy s h := ⟨unentered_steady.busy s h.1, h.2.1.of_eq rfl rfl rfl rfl rfl rfl rfl rfl rfl rfl rfl, h.2.2⟩
  tok s t h h1 h2 h3 h4 h5 := by
    have hs := submOp_of_takes h1 h.1.2
    exact ⟨unentered_steady.tok s t h.1 h1 h2 h3 h4 h5,
      ⟨h.2.1.listed.of_eq rfl rfl rfl rfl (fun _ => rfl) fun _ => Iff.rfl,
        h.2.1.carried.of_eq rfl rfl rfl rfl rfl rfl, h.2.1.reports.setTok hs (h2 ▸ hs) h3⟩, h.2.2⟩

/-- The callbacks of each token are for its records in their order, each in its last state: those of
which no part waits any more. -/
structure ReportedOnce (s : Wmgr) : Prop where
  reported : ∀ tok, ∃ old new, s.recordsOf tok = old ++ new ∧
    s.callbacks tok = old.map (fun w => w.jrec.opType.compl) ∧
    (∀ w ∈ old, ∀ p ∈ w.parts, ¬s.Waits p) ∧ ∀ w ∈ new, ∃ p ∈ w.parts, s.Waits p
  pending : s.txnPending.Nodup ∧ ∀ xid, xid ∈ s.txnPending ↔
    ∃ w ∈ s.log, w.jrec.endXid = some xid ∧ ∃ p ∈ w.parts, s.Waits p
  carried : s.Carried

theorem Reported.waits {tok : Nat} {old new : List Written} (hr : s.Reported tok old new) (h : s.Reports)
    (ha : s.Awaits (s.queued g)) : ∀ w ∈ new, ∃ p ∈ w.parts, s.Waits p := by
  intro w hw
  cases hs : (s.toks tok).wstate.submOp with
  | none =>
    rw [hr.rest hs] at hw
    cases hw
  | some op =>
    obtain ⟨w', rfl, -⟩ := hr.last op hs
    obtain rfl := List.mem_singleton.mp hw
    have hcnt := ha.subm tok (by rw [hs]; rintro ⟨⟩)
    rw [h.count] at hcnt
    obtain ⟨x, hx, hwait⟩ := List.countP_pos_iff.mp (Nat.pos_of_ne_zero hcnt)
    simp only [decide_eq_true_eq] at hwait
    obtain ⟨v, hv, hxv⟩ := List.mem_flatMap.mp hx
    obtain ⟨p, hp, rfl⟩ := List.mem_map.mp hxv
    obtain ⟨hvt, hwait⟩ := hwait
    rcases List.mem_append.mp hv with hv | hv
    · have hvr : v ∈ s.recordsOf tok := List.mem_filter.mpr ⟨hv, by simpa using hvt⟩
      rw [hr.records] at hvr
      rcases List.mem_append.mp hvr with hvr | hvr
      · exact (hr.returned v hvr p hp hwait).elim
      · obtain rfl := List.mem_singleton.mp hvr
        exact ⟨p, hp, hwait⟩
    · -- a token whose record goes on waits for no other one
      have hnone := h.cur v (by simpa using hv)
      rw [show v.tok = tok from hvt, hs] at hnone
      cases hnone

theorem Tracked.reportedOnce (h : s.Tracked) (ha : s.Accounted g) : s.ReportedOnce := by
  refine ⟨fun tok => ?_, ⟨h.reports.ends.nodup, fun xid => ?_⟩, h.carried⟩
  · obtain ⟨old, new, hr⟩ := h.reports.reported tok
    exact ⟨old, new, hr.records, hr.callbacks, hr.returned, hr.waits h.reports ha.awaits⟩
  · rw [h.reports.ends.pending]
    constructor
    · rintro ⟨tok, hends, rfl⟩
      obtain ⟨old, new, hr⟩ := h.reports.reported tok
      cases hs : (s.toks tok).wstate.submOp with
      | none =>
        rw [WState.ends_of_none hs] at hends
        cases hends
      | some op =>
        obtain ⟨w, rfl, hop, hx⟩ := hr.last op hs
        have hw := List.mem_append_right old (List.mem_singleton_self w)
        obtain ⟨p, hp, hwait⟩ := hr.waits h.reports ha.awaits w (List.mem_singleton_self w)
        rw [WState.ends_eq hs, ← hop] at hends
        obtain ⟨xid, hxid⟩ := JRec.ends_iff.mp hends
        exact ⟨w, (hr.mem hw).1, hxid.trans (congrArg some (hx xid hxid).symm), p, hp, hwait⟩
    · rintro ⟨w, hw, hxid, p, hp, hwait⟩
      obtain ⟨old, new, hr⟩ := h.reports.reported w.tok
      have hmem : w ∈ s.recordsOf w.tok := List.mem_filter.mpr ⟨hw, by simp⟩
      rw [hr.records] at hmem
      rcases List.mem_append.mp hmem with hmem | hmem
      · exact (hr.returned w hmem p hp hwait).elim
      · cases hs : (s.toks w.tok).wstate.submOp with
        | none =>
          rw [hr.rest hs] at hmem
          cases hmem
        | some op =>
          obtain ⟨v, rfl, hop, hx⟩ := hr.last op hs
          obtain rfl := List.mem_singleton.mp hmem
          refine ⟨w.tok, ?_, hx xid hxid⟩
          rw [WState.ends_eq hs, ← hop]
          exact JRec.ends_iff.mpr ⟨xid, hxid⟩

end Wmgr

namespace Sys

variable {g : Geom} {s s' : Sys} {c : Call} {evs : List Nat}

/-- The record that goes on is of this call. -/
structure GoesOn (c : Call) (r : JRec) (w : Wmgr) : Prop where
  jrec : r = c.jrec (w.toks c.tok)
  cur : ∀ v ∈ w.cur, v.tok = c.tok ∧ v.jrec = r

theorem GoesOn.opType {r : JRec} {w : Wmgr} (h : GoesOn c r w) : r.opType = c.op := by
  rw [h.jrec, c.opType_jrec]

/-- The record that goes on is of the call that was written in part. -/
def Rests (part : Option Call) (w : Wmgr) : Prop :=
  ∀ v ∈ w.cur, ∃ c ∈ part, v.tok = c.tok ∧ v.jrec = c.jrec (w.toks c.tok)

def CurAt (s : Sys) : Prop :=
  match s.ctl with
  | .failed => True
  | .encode c r _ => GoesOn c r s.w
  | .check c r _ done => if done = true then s.w.cur = none else GoesOn c r s.w
  | .idle => Rests s.part s.w
  | .pageWait _ => Rests s.part s.w
  | .fileWait _ => Rests s.part s.w

theorem jrec_of_same (c : Call) {t t' : DataTok} (hr : t'.rid = t.rid) (hd : t'.dequeueRid = t.dequeueRid) :
    c.jrec t' = c.jrec t := by
  cases c <;> simp only [Call.jrec, hr, hd]

theorem Rests.of_toks {part : Option Call} {w w' : Wmgr} (h : Rests part w) (hc : w'.cur = w.cur)
    (ht : ∀ c ∈ part, (w'.toks c.tok).rid = (w.toks c.tok).rid ∧
      (w'.toks c.tok).dequeueRid = (w.toks c.tok).dequeueRid) : Rests part w' := by
  intro v hv
  obtain ⟨c, hp, htok, hj⟩ := h v (hc ▸ hv)
  obtain ⟨h1, h2⟩ := ht c hp
  exact ⟨c, hp, htok, hj.trans (jrec_of_same c h1 h2).symm⟩

theorem Rests.returned {part : Option Call} {w w' : Wmgr} (h : Rests part w) (hc : w'.cur = w.cur)
    (ht : ∀ i, (w.toks i).Returned (w'.toks i)) : Rests part w' :=
  h.of_toks hc fun c _ => ⟨(ht c.tok).rid, (ht c.tok).dequeueRid⟩

/-- With nothing written in part no record goes on. -/
theorem Ready.cur_of_free (h : s.Ready g c) (hr : Rests s.part s.w) (hf : ∀ op, s.w.busy op = false) :
    s.w.cur = none := by
  cases hv : s.w.cur with
  | none => rfl
  | some v =>
    obtain ⟨c', hp, -⟩ := hr v hv
    have hb := (h.busy c'.op).mpr ⟨c', hp, rfl⟩
    rw [hf] at hb
    cases hb

theorem EntersTo.tracked (ht : s.EntersTo g c s') (h : s.Ready g c) (hw : s.w.Tracked)
    (hr : Rests s.part s.w) : s'.w.Tracked ∧ s'.CurAt := by
  have hent := Wmgr.wp_enter (g := g) (c := c) (Wmgr.unentered_tracked s.w.cur) ⟨⟨h.steady, h.free⟩, hw, rfl⟩
  have hrefused : ∀ {w : Wmgr}, Wmgr.Refused c (fun u => (u.Steady g ∧ Wmgr.Free c u) ∧ u.Tracked ∧
      u.cur = s.w.cur) s.w w → Rests s.part w := by
    intro w hw
    rcases hw.toks with htoks | ⟨hfree, -⟩
    · exact hr.of_toks hw.inv.2.2 fun _ _ => by rw [htoks]; exact ⟨rfl, rfl⟩
    · intro v hv
      rw [hw.inv.2.2, h.cur_of_free hr hfree] at hv
      cases hv
  cases ht with
  | encode he =>
    have ha := wp_of_ok hent he
    refine ⟨ha.inv.2.1, ha.jrec, fun v hv => ?_⟩
    rw [ha.inv.2.2] at hv
    rename_i r cont w
    cases cont with
    | false =>
      rw [h.cur_of_free hr (ha.fresh rfl).1] at hv
      cases hv
    | true =>
      obtain ⟨-, hst, htoks, -⟩ := ha.goesOn rfl
      obtain ⟨c', hp, htok, hj⟩ := hr v hv
      have hpart : s.part = some c := by
        rcases h.own with hp | hp
        · exact hp
        · rw [hst, c.op.part_isPart] at hp
          cases hp
      obtain rfl := Option.some.inj (hpart.symm.trans hp)
      exact ⟨htok, by rw [hj, ha.jrec, htoks]⟩
  | wait he =>
    have ha := (wp_of_ok hent he).1
    exact ⟨ha.inv.2.1, hrefused ha⟩
  | done he =>
    have ha := (wp_of_ok hent he).1
    exact ⟨ha.inv.2.1, hrefused ha⟩
  | assert he => exact ⟨(wp_of_error hent he).inv.2.1, trivial⟩
  | refused he =>
    have ha := wp_of_error hent he
    exact ⟨ha.inv.2.1, hrefused ha⟩

theorem cur_taken (w : Wmgr) : w.taken.cur = w.cur := by
  rw [Wmgr.taken]
  split <;> rfl

theorem cur_flushedFrom {w t : Wmgr} (h : w.FlushedFrom g evs t) : t.taken.cur = w.cur := by
  rw [cur_taken, h.returned.cur, Wmgr.flushed]
  split
  · rfl
  · exact cur_taken _

theorem cur_checksTo {w w' : Wmgr} {cont done : Bool} {x : Iores × Bool × Bool}
    (h : w.ChecksTo g (w.FlushedFrom g evs) cont done x w') : w'.cur = w.cur := by
  cases h with
  | room _ => rfl
  | stay _ ht _ _ => exact cur_flushedFrom ht
  | turn _ ht _ _ hu =>
    have hsame := cur_flushedFrom ht
    cases hu <;> exact hsame

theorem ProceedsTo.tracked (ht : s.ProceedsTo g evs s') (h : s.w.Tracked) (hcur : s.CurAt) (hi : s.InOrder g)
    (hst : s.Steady g) (hc : s.Clear g (.step evs)) : s'.w.Tracked ∧ s'.CurAt := by
  have hctl := hst.ctl
  have hb := hst.w.toBooked
  cases ht with
  | encoded hs he =>
    simp only [AtCtl, CurAt, hs] at hctl hcur
    obtain ⟨hp, hwr, hsub⟩ := hctl
    obtain ⟨h1, h2⟩ := (wp_of_ok (Wmgr.wp_encodePart_to _) he).tracked h hb hp hsub hcur.cur
      hcur.opType hwr.endsAs.xid
    rename_i c r cont done w
    refine ⟨h1, ?_⟩
    cases done with
    | true => exact h2
    | false => exact ⟨hcur.jrec.trans (jrec_of_same c h2.1 h2.2.1).symm, h2.2.2⟩
  | encodeFailed hs he =>
    simp only [AtCtl, CurAt, Clear, hs] at hctl hcur hc
    obtain ⟨hp, hwr, hsub⟩ := hctl
    exact ⟨(wp_of_error (Wmgr.wp_encodePart_to _) he).tracked h hb hp hsub hcur.cur hcur.opType hc, trivial⟩
  | checked hs he =>
    simp only [AtCtl, CurAt, hs] at hctl hcur
    have hto := wp_of_ok (Wmgr.wp_flushCheck_steady hst.w _ _ evs) he
    obtain ⟨-, h2, h3, -⟩ := hto.steady hst.w hctl.1
    obtain ⟨rfl, -⟩ := h3 rfl
    rename_i c r cont cont' res w
    refine ⟨wp_of_ok (Wmgr.wp_flushCheck_tracked hst.w h _ _ evs) he, ?_, ?_⟩
    · exact hcur.jrec.trans (jrec_of_same c (h2 c.tok).rid (h2 c.tok).dequeueRid).symm
    · rw [cur_checksTo hto]
      exact hcur.cur
  | left hs he =>
    simp only [AtCtl, CurAt, hs] at hctl hcur
    have hto := wp_of_ok (Wmgr.wp_flushCheck_steady hst.w _ _ evs) he
    obtain ⟨-, h2, -, -⟩ := hto.steady hst.w hctl.1
    have hw := wp_of_ok (Wmgr.wp_flushCheck_tracked hst.w h _ _ evs) he
    rename_i c r cont done cont' res w
    have hrel : (released c w).Tracked ∧ (released c w).cur = s.w.cur ∧ (released c w).toks = w.toks := by
      refine ⟨?_, ?_, (released_same c w).1⟩
      · rw [released]
        split
        · exact hw.of_eq rfl rfl rfl rfl rfl rfl rfl rfl rfl rfl rfl
        · exact hw
      · rw [released, ← cur_checksTo hto]
        split <;> rfl
    have hrests : Rests (if ((released c w).toks c.tok).wstate.isPart then some c else none) (released c w) := by
      intro v hv
      rw [hrel.2.1] at hv
      cases done with
      | true =>
        rw [show s.w.cur = none from hcur] at hv
        cases hv
      | false =>
        replace hcur : GoesOn c r s.w := hcur
        have hpart : ((released c w).toks c.tok).wstate = c.op.part := by
          rw [hrel.2.2]
          exact ((h2 c.tok).wstate_of_submOp (hctl.2.2 ▸ c.op.part_submOp)).trans hctl.2.2
        rw [hpart, if_pos c.op.part_isPart]
        obtain ⟨hv1, hv2⟩ := hcur.cur v hv
        refine ⟨c, rfl, hv1, hv2.trans (hcur.jrec.trans ?_)⟩
        rw [hrel.2.2]
        exact (jrec_of_same c (h2 c.tok).rid (h2 c.tok).dequeueRid).symm
    cases res <;> exact ⟨hrel.1, hrests⟩
  | checkFailed hs he =>
    simp only [Clear, hs] at hc
    obtain ⟨hf, hr, -⟩ := wp_of_error (Wmgr.wp_flushCheck_steady hst.w _ _ evs) he
    exact (hr (hc hf)).elim
  | pageFree hs hp he =>
    simp only [CurAt, hs] at hcur
    exact he.tracked (hi.ready_pageWait hs) h hcur
  | fileFree hs ha hr hp he =>
    simp only [CurAt, hs] at hcur
    have hto := wp_of_ok (Wmgr.wp_wrReset_to fun _ _ => False) hr
    refine he.tracked (hi.ready_fileWait hs hr hp) (h.resetTo hto) ?_
    cases hto <;> exact hcur
  | fileDone hs ha hr hp =>
    simp only [CurAt, hs] at hcur
    have hto := wp_of_ok (Wmgr.wp_wrReset_to fun _ _ => False) hr
    refine ⟨h.resetTo hto, ?_⟩
    cases hto <;> exact hcur
  | waits hs he =>
    obtain ⟨-, h2, -⟩ := wp_of_ok (Wmgr.wp_getEvents_steady hst.w evs) he
    refine ⟨wp_of_ok (Wmgr.wp_getEvents_tracked hst.w h evs) he, ?_⟩
    rcases hs with ⟨hs, -⟩ | ⟨hs, -⟩ <;> simp only [CurAt, hs] at hcur ⊢ <;> exact hcur.returned h2.cur h2.toks
  | waitFailed hs he => exact (wp_of_error (Wmgr.wp_getEvents_steady hst.w evs) he).elim

theorem StepsTo.tracked {a : Act} (ht : s.StepsTo g a s') (h : s.w.Tracked) (hcur : s.CurAt) (hi : s.InOrder g)
    (hst : s.Steady g) (hc : s.Clear g a) : s'.w.Tracked ∧ s'.CurAt := by
  have hctl := hst.ctl
  cases ht with
  | token hs hf hp =>
    simp only [AtCtl, CurAt, hs] at hctl hcur ⊢
    simp only [free, Bool.and_eq_true, decide_eq_true_eq, Bool.not_eq_true'] at hf
    simp only [pristine, Bool.and_eq_true, decide_eq_true_eq, Bool.or_eq_true] at hp
    rename_i tok t
    have hsub : (s.w.toks tok).wstate.submOp = none := by
      by_contra hn
      exact hst.w.awaits.subm tok hn hf.1
    have hnew : t.wstate.submOp = none := by
      rcases hp.2 with hp | hp <;> rw [hp] <;> rfl
    refine ⟨⟨h.listed.of_eq rfl rfl rfl rfl (fun _ => rfl) fun _ => Iff.rfl,
      h.carried.of_eq rfl rfl rfl rfl rfl rfl, h.reports.setTok hsub hnew (hp.1.1.trans hf.1.symm)⟩, ?_⟩
    refine hcur.of_toks rfl fun c hpart => ?_
    have hct : c.tok ≠ tok := by
      rintro rfl
      rw [(hctl c hpart).1, c.op.part_isPart] at hf
      cases hf.2
    simp only [Function.update_of_ne hct]
    exact ⟨trivial, trivial⟩
  | call hs hg he =>
    simp only [CurAt, hs] at hcur
    exact he.tracked (hi.ready_idle hs hg) h hcur
  | step he => exact he.tracked h hcur hi hst hc
  | collected hs he =>
    obtain ⟨-, h2, -⟩ := wp_of_ok (Wmgr.wp_getEvents_steady hst.w _) he
    refine ⟨wp_of_ok (Wmgr.wp_getEvents_tracked hst.w h _) he, ?_⟩
    rcases hs with hs | hs
    · simp only [CurAt, hs] at hcur ⊢
      exact hcur.returned h2.cur h2.toks
    · simp only [CurAt, hs]
  | collectFailed hs he => exact (wp_of_error (Wmgr.wp_getEvents_steady hst.w _) he).elim
  | flushed hs he =>
    obtain ⟨t, hf, hto⟩ := wp_of_ok (Wmgr.wp_flush_steady hst.w _) he
    refine ⟨wp_of_ok (Wmgr.wp_flush_tracked hst.w h _) he, ?_⟩
    rename_i w
    rcases hs with hs | hs
    · simp only [CurAt, hs] at hcur ⊢
      have hc' : w.cur = s.w.cur := by
        have htaken := cur_flushedFrom hf
        cases hto with
        | stay _ => exact htaken
        | turn _ hr => cases hr <;> exact htaken
      exact hcur.returned hc' (hto.same.2.2 ▸ hf.toks)
    · simp only [CurAt, hs]
  | flushFailed hs he =>
    obtain ⟨h0, hr, -⟩ := wp_of_error (Wmgr.wp_flush_steady hst.w _) he
    exact (hr (hc h0)).elim

section Starts

private theorem tracked_start {w : Wmgr} (hl : w.log = []) (hc : w.cur = none)
    (hp : w.pages = (Wmgr.init g).pages) (hq : w.pending = []) (hd : w.cached = 0) (ha : w.acked = [])
    (ht : w.toks = (Wmgr.init g).toks) (hn : w.txnPending = []) : w.Tracked := by
  have hparts : w.partsOf = [] := by simp [Wmgr.partsOf, hl, hc]
  have hlist : ∀ pg, (w.pages pg).pdtokl = [] := by
    intro pg
    rw [hp]
    by_cases h0 : pg = 0
    · subst h0
      simp [Wmgr.init]
    · simp [Wmgr.init, h0]
  have hnone : ∀ tok, (w.toks tok).wstate.submOp = none ∧ (w.toks tok).pgCnt = 0 := by
    intro tok
    rw [ht]
    exact ⟨rfl, rfl⟩
  refine ⟨⟨?_, fun tok => ?_, fun pg _ _ => hlist pg, ?_⟩, ⟨by omega, ?_, ?_⟩, ⟨fun tok => ?_, fun tok => ?_, ?_,
    ⟨?_, fun xid => ?_, fun tok tok' he => ?_⟩⟩⟩
  · rw [hparts]
    exact fun x hx => (List.not_mem_nil hx).elim
  · simp [Wmgr.within, hparts, hlist]
  · rw [hq]
    exact fun i hi => (List.not_mem_nil hi).elim
  · rw [hparts]
    exact fun x hx => (List.not_mem_nil hx).elim
  · rw [hparts]
    exact fun x hx => (List.not_mem_nil hx).elim
  · rw [hparts, (hnone tok).2]
    rfl
  · refine ⟨[], [], by simp [Wmgr.recordsOf, hl], by simp [Wmgr.callbacks, ha],
      fun w hw => (List.not_mem_nil hw).elim, fun _ => rfl, fun op hop => ?_⟩
    rw [(hnone tok).1] at hop
    cases hop
  · rw [hc]
    rintro _ ⟨⟩
  · rw [hn]
    exact List.nodup_nil
  · rw [hn]
    constructor
    · exact fun hx => (List.not_mem_nil hx).elim
    · rintro ⟨tok, he, -⟩
      rw [WState.ends_of_none (hnone tok).1] at he
      cases he
  · rw [WState.ends_of_none (hnone tok).1] at he
    cases he

theorem Start.tracked (h : s.Start g) : s.w.Tracked ∧ s.CurAt := by
  cases h with
  | init => exact ⟨tracked_start rfl rfl rfl rfl rfl rfl rfl rfl, by rintro _ ⟨⟩⟩
  | recovered rd hrd =>
    have hr : (Wmgr.resumed g rd).Tracked := tracked_start (g := g) rfl rfl rfl rfl rfl rfl rfl rfl
    have hc : (Wmgr.recovered g rd).Tracked ∧ (Wmgr.recovered g rd).cur = none := by
      rcases Wmgr.recovered_to g rd with he | ⟨res, hto⟩
      · rw [he]
        exact ⟨hr, rfl⟩
      · refine ⟨hr.rotatesTo hto, ?_⟩
        revert hto
        generalize Wmgr.recovered g rd = w
        intro hto
        cases hto <;> rfl
    refine ⟨hc.1, fun v hv => ?_⟩
    change v ∈ (Wmgr.recovered g rd).cur at hv
    rw [hc.2] at hv
    cases hv

end Starts

/-- In every run each record is reported complete once, behind the writes of all its parts. -/
theorem run_reportedOnce (hs : s.Start g) {acts : List Act} (hc : s.Along g (Clear g) acts)
    (hr : s.run g acts = some s') : s'.w.ReportedOnce := by
  have h : (s'.w.Tracked ∧ s'.CurAt) ∧ s'.InOrder g ∧ s'.Steady g := by
    apply run_preserves (J := fun t => (t.w.Tracked ∧ t.CurAt) ∧ t.InOrder g ∧ t.Steady g) _
      ⟨hs.tracked, hs.inOrder, hs.steady⟩ hc hr
    intro t a u ht hclear hu
    obtain ⟨⟨h1, h2⟩, h3, h4⟩ := ht
    exact ⟨hu.tracked h1 h2 h3 h4 hclear, hu.inOrder h3, hu.steady h4 fun _ => hclear⟩
  exact h.1.1.reportedOnce h.2.2.w.toAccounted

theorem commitRun_reportedOnce : ∃ s, (init fourFiles).run fourFiles commitRun = some s ∧ s.w.ReportedOnce ∧
    s.w.acked.map (fun x => (x.1, x.2.wstate)) = [(0, .enq), (1, .committed)] := by
  have hc : (init fourFiles).Along fourFiles (Clear fourFiles) commitRun := by decide +kernel
  have hr : ((init fourFiles).run fourFiles commitRun).map
      (fun s => s.w.acked.map fun x => (x.1, x.2.wstate)) = some [(0, .enq), (1, .committed)] := by
    decide +kernel
  obtain ⟨s, hs, ha⟩ := Option.map_eq_some_iff.mp hr
  exact ⟨s, hs, run_reportedOnce .init hc hs, ha⟩

/-- The commit of a transaction that dequeues a record twice is refused by the maps with its record encoded; the
page of all four records returns. -/
def doubleRun : List Act :=
  [.call (.enqueue 0 100 100 [1] false false), .step [], .step [],
    .token 1 { wstate := .enq }, .token 2 { wstate := .enq },
    .call (.dequeue 1 [1] false), .step [], .step [], .call (.dequeue 2 [1] false), .step [], .step [],
    .call (.commit 3 [1]), .step [], .flush [0, 1]]

theorem doubleRun_not_reportedOnce : ¬ ∀ (g : Geom) (s s' : Sys) (acts : List Act), s.Start g →
    s.run g acts = some s' → s'.w.ReportedOnce := by
  intro h
  have hr : ((init fourFiles).run fourFiles doubleRun).map (fun s => (s.w.callbacks 0, (s.w.recordsOf 0).length,
      decide (∀ w ∈ s.w.recordsOf 0, ∀ p ∈ w.parts, ¬s.w.Waits p))) = some ([], 1, true) := by
    decide +kernel
  obtain ⟨s, hs, he⟩ := Option.map_eq_some_iff.mp hr
  simp only [Prod.mk.injEq, decide_eq_true_eq] at he
  obtain ⟨hcall, hlen, hret⟩ := he
  obtain ⟨old, new, h1, h2, -, h4⟩ := (h fourFiles _ s doubleRun .init hs).reported 0
  rw [hcall] at h2
  obtain rfl := List.map_eq_nil_iff.mp h2.symm
  rw [List.nil_append] at h1
  obtain ⟨w, hw⟩ := List.length_eq_one_iff.mp hlen
  have hmem : w ∈ s.w.recordsOf 0 := hw ▸ List.mem_singleton_self w
  obtain ⟨p, hp, hwait⟩ := h4 w (h1 ▸ hmem)
  exact hret w hmem p hp hwait

end Sys

end RhmStore
