import RhmStore.Writer.Booked
import RhmStore.Writer.Enter

/-! # All accounts are kept, and completions are taken without an exception -/

namespace RhmStore

open Finset

namespace Wmgr

variable {g : Geom} {s s' : Wmgr}

def queued (g : Geom) (s : Wmgr) (tok : Nat) : Nat :=
  ∑ j ∈ range g.numPages, (s.pages j).pdtokl.count tok

/-- All that is counted of outstanding writes and of the tokens that wait for them. -/
structure Accounted (g : Geom) (s : Wmgr) : Prop extends s.Booked g where
  awaits : s.Awaits (s.queued g)

inductive EventTo (s : Wmgr) (i : Nat) : Wmgr → Prop
  | none (h : i ∉ s.pending) : EventTo s i s
  | page {w : Write} {pg : Nat} {out : List Nat} {t : Wmgr} (hi : i ∈ s.pending)
    (hw : s.subm[i]? = some w) (hp : w.page = some pg)
    (ht : ({ s with aioEvtRem := s.aioEvtRem - 1, pending := s.pending.erase i } : Wmgr).ToksTo
      (s.pages pg).pdtokl out t) : EventTo s i { t with
        fcntls := Function.update s.fcntls w.fid { s.fcntls w.fid with
          wrCmpl := (s.fcntls w.fid).wrCmpl + w.dblks
          aioCnt := (s.fcntls w.fid).aioCnt - 1 }
        pages := Function.update s.pages pg { s.pages pg with pdtokl := [], state := .unused }
        acked := s.acked ++ out.map fun tok => (tok, t.toks tok) }
  | header {w : Write} (hi : i ∈ s.pending) (hw : s.subm[i]? = some w) (hp : w.page = none) :
    EventTo s i { s with
      aioEvtRem := s.aioEvtRem - 1
      pending := s.pending.erase i
      fcntls := Function.update s.fcntls w.fid { s.fcntls w.fid with
        wrCmpl := (s.fcntls w.fid).wrCmpl + jrnlSblkSize
        aioCnt := (s.fcntls w.fid).aioCnt - 1
        wrFhdrAioOutstanding := false } }

private theorem wp_writeReturned_of {Q : PUnit → Wmgr → Prop} {E : JErr → Wmgr → Prop}
    {fid dblks : Nat} (hs : (s.fcntls fid).wrCmpl + dblks ≤ (s.fcntls fid).wrSubm)
    (ha : (s.fcntls fid).aioCnt ≠ 0) (h : Q ⟨⟩ { s with
      fcntls := Function.update s.fcntls fid { s.fcntls fid with
        wrCmpl := (s.fcntls fid).wrCmpl + dblks
        aioCnt := (s.fcntls fid).aioCnt - 1 } }) : wp (writeReturned fid dblks) Q E s := by
  rw [writeReturned, wp_bind, wp_get, if_neg (Nat.not_lt.mpr hs), if_neg ha]
  exact h

theorem wp_eventReturned_to (h : s.Accounted g) (i : Nat) :
    wp (eventReturned i) (fun _ s' => s.EventTo i s' ∧ s'.Accounted g) (fun _ _ => False) s := by
  rw [eventReturned, wp_bind, wp_get]
  by_cases hi : i ∉ s.pending
  · rw [if_pos hi]
    exact ⟨.none hi, h⟩
  · rw [if_neg hi]
    rw [not_not] at hi
    obtain ⟨w, hw, -⟩ := h.events i hi
    have ht := h.taken_of_pending hi hw
    have hrem := h.evtRem
    have hsubm := h.subm w.fid
    have hcnt := h.aioCnt w.fid
    cases hp : w.page with
    | some pg =>
      obtain ⟨hst, hlt, hwf, hwd⟩ := h.pending_page hi hw hp
      have h1 : (s.pages pg).out = 1 := by simp [PageCb.out, hst]
      have h2 : (s.pages pg).outTo w.fid = 1 := by simp [PageCb.outTo, hst, hwf]
      have h3 : (s.pages pg).dblksTo w.fid = w.dblks := by simp [PageCb.dblksTo, hst, hwf, hwd]
      have l1 := le_sum_range s.pages PageCb.out hlt
      have l2 := le_sum_range s.pages (PageCb.outTo w.fid) hlt
      have l3 := le_sum_range s.pages (PageCb.dblksTo w.fid) hlt
      rw [if_neg (by omega), wp_bind, wp_set]
      simp only [hw, hp]
      rw [wp_bind, hwf, hwd]
      have hq : ∀ tok, (∑ j ∈ range g.numPages, (Function.update s.pages pg
          { s.pages pg with pdtokl := [], state := .unused } j).pdtokl.count tok) +
          (s.pages pg).pdtokl.count tok = s.queued g tok := fun tok =>
        sum_range_update s.pages (fun p => p.pdtokl.count tok)
          { s.pages pg with pdtokl := [], state := .unused } hlt
      have ha : ({ s with aioEvtRem := s.aioEvtRem - 1, pending := s.pending.erase i } :
          Wmgr).Awaits fun tok => (∑ j ∈ range g.numPages, (Function.update s.pages pg
          { s.pages pg with pdtokl := [], state := .unused } j).pdtokl.count tok) +
          (s.pages pg).pdtokl.count tok := by
        simp only [hq]
        exact ⟨h.awaits.count, h.awaits.live, h.awaits.subm, h.awaits.ends, h.awaits.distinct⟩
      apply wp_mono (wp_toksReturned_to _ ha) _ (fun _ _ he => he)
      intro out t htoks
      obtain ⟨htoks, hat⟩ := htoks
      have hto := EventTo.page hi hw hp htoks
      obtain ⟨t, x, m, rfl⟩ := htoks.frame
      rw [wp_bind]
      refine wp_writeReturned_of ?_ ?_ ?_
      · change (s.fcntls w.fid).wrCmpl + w.dblks ≤ (s.fcntls w.fid).wrSubm
        omega
      · change (s.fcntls w.fid).aioCnt ≠ 0
        omega
      · exact ⟨hto, h.toBooked.returnPage hi hw hp rfl rfl rfl rfl rfl rfl rfl,
          ⟨hat.count, hat.live, hat.subm, hat.ends, hat.distinct⟩⟩
    | none =>
      simp only [Write.seat, hp, Option.map_none, Option.getD_none, seatTaken] at ht
      have hlt : w.fid < g.numJfiles := by
        apply h.headers
        by_contra hn
        simp [Fcntl.out, hn] at ht
      have l1 := le_sum_range s.fcntls Fcntl.out hlt
      rw [if_neg (by omega), wp_bind, wp_set]
      simp only [hw, hp]
      rw [wp_bind]
      refine wp_writeReturned_of ?_ ?_ ?_
      · change (s.fcntls w.fid).wrCmpl + jrnlSblkSize ≤ (s.fcntls w.fid).wrSubm
        rw [ht] at hsubm
        omega
      · change (s.fcntls w.fid).aioCnt ≠ 0
        omega
      · have hto := EventTo.header hi hw hp
        simp only [modFcntl, wp_modify, Function.update_idem, Function.update_self]
        exact ⟨hto, h.toBooked.returnHeader hi hw hp rfl rfl rfl rfl rfl rfl rfl,
          ⟨h.awaits.count, h.awaits.live, h.awaits.subm, h.awaits.ends, h.awaits.distinct⟩⟩

inductive EventsTo : Wmgr → List Nat → Wmgr → Prop
  | nil (s : Wmgr) : EventsTo s [] s
  | cons {s t u : Wmgr} {i : Nat} {evs : List Nat} (h : s.EventTo i t) (ht : EventsTo t evs u) :
    EventsTo s (i :: evs) u

theorem Booked.pending_nil (h : s.Booked g) (h0 : s.aioEvtRem = 0) : s.pending = [] := by
  rw [List.eq_nil_iff_forall_not_mem]
  intro i hi
  obtain ⟨w, hw, -⟩ := h.events i hi
  have ht := h.taken_of_pending hi hw
  have hr := h.evtRem
  cases hp : w.page with
  | some pg =>
    obtain ⟨hst, hlt, -⟩ := h.pending_page hi hw hp
    have h1 : (s.pages pg).out = 1 := by simp [PageCb.out, hst]
    have := le_sum_range s.pages PageCb.out hlt
    omega
  | none =>
    simp only [Write.seat, hp, Option.map_none, Option.getD_none, seatTaken] at ht
    have hlt : w.fid < g.numJfiles := by
      apply h.headers
      by_contra hn
      simp [Fcntl.out, hn] at ht
    have := le_sum_range s.fcntls Fcntl.out hlt
    omega

/-- What each event keeps, `get_events` keeps. -/
theorem wp_getEvents_to {I : Wmgr → Prop} (hI : ∀ s i s', s.Accounted g → I s → s.EventTo i s' →
      s'.Accounted g → I s') (h : s.Accounted g) (hs : I s) (evs : List Nat) :
    wp (getEvents evs) (fun _ s' => s.EventsTo evs s' ∧ s'.Accounted g ∧ I s')
      (fun _ _ => False) s := by
  rw [getEvents, wp_bind, wp_get]
  by_cases h0 : s.aioEvtRem = 0
  · rw [if_pos h0]
    refine ⟨?_, h, hs⟩
    have hn := h.pending_nil h0
    clear h h0
    induction evs with
    | nil => exact .nil s
    | cons i evs ih => exact .cons (.none (by simp [hn])) ih
  · rw [if_neg h0]
    clear h0
    induction evs generalizing s with
    | nil => exact ⟨.nil s, h, hs⟩
    | cons i evs ih =>
      change wp (eventReturned i >>= fun _ => evs.forM eventReturned) _ _ s
      rw [wp_bind]
      apply wp_mono (wp_eventReturned_to h i) _ (fun _ _ he => he)
      intro _ t ht
      apply wp_mono (ih ht.2 (hI s i t h hs ht.1 ht.2)) _ (fun _ _ he => he)
      intro _ u hu
      exact ⟨.cons ht.1 hu.1, hu.2⟩

section Keeps

theorem Accounted.of_eq (h : s.Accounted g) (hx : s'.pgIndex = s.pgIndex) (hf : s'.fcIndex = s.fcIndex)
    (hp : s'.pages = s.pages) (hc : s'.fcntls = s.fcntls) (he : s'.aioEvtRem = s.aioEvtRem)
    (hs : s'.subm = s.subm) (hq : s'.pending = s.pending) (ht : s'.toks = s.toks)
    (hn : s'.txnPending = s.txnPending) : s'.Accounted g where
  toBooked := h.toBooked.of_eq hx (hf ▸ h.fcIndex) (fun _ => hp ▸ ⟨rfl, rfl, rfl⟩) hc he hs hq
  awaits := by
    have hqueue : s'.queued g = s.queued g := by
      funext tok
      simp only [queued, hp]
    rw [hqueue]
    obtain ⟨h1, h2, h3, h4, h5⟩ := h.awaits
    constructor <;> rw [ht]
    · exact h1
    · exact h2
    · exact h3
    · rw [hn]
      exact h4
    · exact h5

private theorem Accounted.of_booked (h : s.Accounted g) (hb : s'.Booked g)
    (hp : ∀ pg, (s'.pages pg).pdtokl = (s.pages pg).pdtokl) (ht : s'.toks = s.toks)
    (hn : s'.txnPending = s.txnPending) : s'.Accounted g where
  toBooked := hb
  awaits := by
    have hqueue : s'.queued g = s.queued g := by
      funext tok
      simp only [queued, hp]
    rw [hqueue]
    obtain ⟨h1, h2, h3, h4, h5⟩ := h.awaits
    constructor <;> rw [ht]
    · exact h1
    · exact h2
    · exact h3
    · rw [hn]
      exact h4
    · exact h5

theorem Accounted.used (h : s.Accounted g) (hp : (s.pages s.pgIndex).state = .unused) :
    s.used.Accounted g := by
  refine h.of_booked (h.toBooked.used hp) (fun pg => ?_) rfl rfl
  by_cases hpg : pg = s.pgIndex
  · subst hpg
    simp [Wmgr.used]
  · simp [Wmgr.used, hpg]

theorem Accounted.resetTo (h : s.Accounted g) {b : Bool} (hr : s.ResetTo b s') :
    s'.Accounted g := by
  have hb := h.toBooked.resetTo hr
  cases hr with
  | held _ => exact h.of_booked hb (fun _ => rfl) rfl rfl
  | reset _ _ => exact h.of_booked hb (fun _ => rfl) rfl rfl

theorem Accounted.rotatesTo (h : s.Accounted g) {res : Iores} (hr : s.RotatesTo g res s') :
    s'.Accounted g := by
  have hb := h.toBooked.rotatesTo hr
  cases hr with
  | wait _ => exact h.of_booked hb (fun _ => rfl) rfl rfl
  | full _ => exact h.of_booked hb (fun _ => rfl) rfl rfl
  | reset _ _ => exact h.of_booked hb (fun _ => rfl) rfl rfl

theorem Accounted.headeredTo (h : s.Accounted g) (hr : s.HeaderedTo s') : s'.Accounted g := by
  have hb := h.toBooked.headeredTo hr
  cases hr with
  | kept _ => exact h
  | written _ _ => exact h.of_booked hb (fun _ => rfl) rfl rfl

theorem Accounted.pageSubmitted (h : s.Accounted g) (hp : (s.pages s.pgIndex).state = .inUse) :
    (s.pageSubmitted g).Accounted g := by
  refine h.of_booked (h.toBooked.pageSubmitted hp) (fun pg => ?_) rfl rfl
  by_cases hpg : pg = s.pgIndex
  · subst hpg
    simp [Wmgr.pageSubmitted, Wmgr.rounded]
  · simp [Wmgr.pageSubmitted, Wmgr.rounded, hpg]

/-- Change of a token that no operation waits for. -/
theorem Accounted.setTok (h : s.Accounted g) {tok : Nat} {t : DataTok}
    (hs : (s.toks tok).wstate.submOp = none) (hp : t.pgCnt = (s.toks tok).pgCnt)
    (ht : t.wstate.submOp = none) (hl : t.pgCnt ≠ 0 → t.wstate.isPart = true) :
    ({ s with toks := Function.update s.toks tok t } : Wmgr).Accounted g where
  toBooked := h.toBooked.of_eq rfl h.fcIndex (fun _ => ⟨rfl, rfl, rfl⟩) rfl rfl rfl rfl
  awaits := by
    have he : t.wstate.ends = false := WState.ends_of_none ht
    constructor
    · intro i
      by_cases hi : i = tok
      · subst hi
        simpa [hp, queued] using h.awaits.count i
      · simpa [hi, queued] using h.awaits.count i
    · intro i
      by_cases hi : i = tok
      · subst hi
        simpa using fun h0 => Or.inl (hl h0)
      · simpa [hi] using h.awaits.live i
    · intro i
      by_cases hi : i = tok
      · subst hi
        simp [ht]
      · simpa [hi] using h.awaits.subm i
    · intro i
      by_cases hi : i = tok
      · subst hi
        simp [he]
      · simpa [hi] using h.awaits.ends i
    · intro i j
      by_cases hi : i = tok
      · subst hi
        simp [he]
      · by_cases hj : j = tok
        · subst hj
          simp [he]
        · simpa [hi, hj] using h.awaits.distinct i j

variable {op : OpType} {r : JRec} {tok : Nat}

/-- One more page holds a part of the token's record, which its state says. -/
private theorem Accounted.encoded (h : s.Accounted g) (hs : (s.toks tok).wstate.submOp = none)
    {t : DataTok} {x : List Xid} (hp : t.pgCnt = (s.toks tok).pgCnt + 1)
    (hl : t.wstate.isPart = true ∨ t.wstate.submOp ≠ none) (hx : ∀ y ∈ s.txnPending, y ∈ x)
    (he : t.wstate.ends = true → t.xid ∈ x ∧ t.xid ∉ s.txnPending) :
    ({ s.encoded g r tok with
      toks := Function.update s.toks tok t
      txnPending := x } : Wmgr).Accounted g where
  toBooked := by
    refine h.toBooked.of_eq rfl h.fcIndex (fun pg => ?_) rfl rfl rfl rfl
    by_cases hpg : pg = s.pgIndex
    · subst hpg
      simp [Wmgr.encoded, PageCb.out]
    · simp [Wmgr.encoded, hpg]
  awaits := by
    have hq : ∀ i, (∑ j ∈ range g.numPages, ((s.encoded g r tok).pages j).pdtokl.count i) =
        s.queued g i + if i = tok then 1 else 0 := by
      intro i
      have hsum := sum_range_update s.pages (fun p => p.pdtokl.count i)
        ((s.encoded g r tok).pages s.pgIndex) h.pgIndex
      have hpages : (s.encoded g r tok).pages = Function.update s.pages s.pgIndex
          ((s.encoded g r tok).pages s.pgIndex) := by
        simp [Wmgr.encoded]
      have hcount : ((s.encoded g r tok).pages s.pgIndex).pdtokl.count i =
          (s.pages s.pgIndex).pdtokl.count i + if i = tok then 1 else 0 := by
        have hone : [tok].count i = if i = tok then 1 else 0 := by
          by_cases hit : i = tok
          · simp [hit]
          · simp [hit, Ne.symm hit]
        simp only [Wmgr.encoded, Function.update_self, List.count_append, hone]
      rw [← hpages, hcount] at hsum
      simp only [queued]
      omega
    constructor
    · intro i
      have hi := h.awaits.count i
      simp only [queued, hq]
      by_cases hit : i = tok
      · subst hit
        simp [hp, hi, queued]
      · simp [hit, hi, queued]
    · intro i
      by_cases hit : i = tok
      · subst hit
        simpa using fun _ => hl
      · simpa [hit] using h.awaits.live i
    · intro i
      by_cases hit : i = tok
      · subst hit
        simp [hp]
      · simpa [hit] using h.awaits.subm i
    · intro i
      by_cases hit : i = tok
      · subst hit
        simpa using fun h => (he h).1
      · simpa [hit] using fun h' => hx _ (h.awaits.ends i h')
    · intro i j
      have hother : ∀ k, k ≠ tok → (s.toks k).wstate.ends = true → t.wstate.ends = true →
          (s.toks k).xid ≠ t.xid := by
        intro k _ hk ht heq
        exact (he ht).2 (heq ▸ h.awaits.ends k hk)
      by_cases hi : i = tok
      · subst hi
        by_cases hj : j = i
        · simp [hj]
        · simp only [Function.update_self, Function.update_of_ne hj]
          intro h1 h2 h3
          exact (hother j hj h2 h1 h3.symm).elim
      · by_cases hj : j = tok
        · subst hj
          simp only [Function.update_self, Function.update_of_ne hi]
          intro h1 h2 h3
          exact (hother i hi h1 h2 h3).elim
        · simpa [hi, hj] using h.awaits.distinct i j

/-- The end of a transaction is what an abort or a commit writes, with the xid of its token. -/
structure EndsAs (op : OpType) (r : JRec) (t : DataTok) : Prop where
  op : op.subm.ends = true → r.endXid ≠ none
  xid : ∀ xid ∈ r.endXid, t.xid = xid

private theorem toks_encoded : (s.encoded g r tok).toks = Function.update s.toks tok
    ((s.encoded g r tok).toks tok) := by
  simp [Wmgr.encoded]

theorem EncodesTo.accounted {done : Bool} (ht : s.EncodesTo g op r tok done s') (h : s.Accounted g)
    (hs : (s.toks tok).wstate.submOp = none) (he : EndsAs op r (s.toks tok)) : s'.Accounted g := by
  cases ht with
  | part hlt hh =>
    refine Accounted.headeredTo ?_ hh
    have hacc := h.encoded (r := r) hs
      (t := { (s.encoded g r tok).toks tok with wstate := op.part }) (x := s.txnPending)
      (by simp [Wmgr.encoded]) (Or.inl op.part_isPart) (fun _ hy => hy) fun hends => by
        simp [WState.ends_of_none op.part_submOp] at hends
    refine hacc.of_eq rfl rfl rfl rfl rfl rfl rfl ?_ rfl
    simp only [partEncoded]
    rw [toks_encoded, Function.update_idem, Function.update_self]
  | done hge hm hp hx hh =>
    refine Accounted.headeredTo ?_ hh
    have hacc := h.encoded (r := r) hs
      (t := ((s.encoded g r tok).completed op r tok s.maps).toks tok) (x := r.endXid.toList ++ s.txnPending)
      (by simp [Wmgr.encoded, completed]) (Or.inr (by simp [completed, op.subm_submOp]))
      (fun _ hy => List.mem_append_right _ hy) fun hends => by
        have hends' : op.subm.ends = true := by simpa [completed] using hends
        obtain ⟨xid, hxid⟩ := Option.ne_none_iff_exists'.mp (he.op hends')
        have heq : (((s.encoded g r tok).completed op r tok s.maps).toks tok).xid = xid := by
          simpa [completed, Wmgr.encoded] using he.xid xid hxid
        rw [heq]
        exact ⟨by simp [hxid], hx xid hxid⟩
    refine hacc.of_eq rfl rfl rfl rfl rfl rfl rfl ?_ hp
    simp only [completed]
    rw [toks_encoded]
    simp only [Function.update_idem, Function.update_self]

theorem EncodeFails.accounted (ht : s.EncodeFails g op r tok s') (h : s.Accounted g)
    (hs : (s.toks tok).wstate.submOp = none) (he : EndsAs op r (s.toks tok))
    (hx : r.endXid ≠ none → r.recSizeDblks ≤ s.dblksAfter g r tok →
      (∃ m, Maps.complete (s.headFid tok) r s.maps = .ok () m) ∧
        ∀ xid ∈ r.endXid, xid ∉ s.txnPending) : s'.Accounted g := by
  cases ht with
  | full _ => exact h
  | maps m hge hm =>
    have hnone : r.endXid = none := by
      by_contra hne
      obtain ⟨⟨m', hm'⟩, hxid⟩ := hx hne hge
      rcases hm with hm | ⟨xid, hmem, hp⟩
      · exact hm m' hm'
      · exact hxid xid hmem hp
    have hends : op.subm.ends = false := by
      by_contra hne
      exact he.op (by simpa using hne) hnone
    have hacc := h.encoded (r := r) hs
      (t := ((s.encoded g r tok).completed op r tok s.maps).toks tok) (x := s.txnPending)
      (by simp [Wmgr.encoded, completed]) (Or.inr (by simp [completed, op.subm_submOp]))
      (fun _ hy => hy) fun hends' => by simp [completed, hends] at hends'
    refine hacc.of_eq rfl rfl rfl rfl rfl rfl rfl ?_ rfl
    simp only [completed]
    rw [toks_encoded]
    simp only [Function.update_idem, Function.update_self]

end Keeps

end Wmgr

end RhmStore
