import RhmStore.Writer.Carried
import RhmStore.Writer.Unchanged

/-! # What is passed to the callback -/

namespace RhmStore

def JRec.opType : JRec → OpType
  | enq .. => .enqueue
  | deq .. => .dequeue
  | txa .. => .abort
  | txc .. => .commit

theorem JRec.ends_iff {r : JRec} : (r.opType = .abort || r.opType = .commit) = true ↔ ∃ xid, r.endXid = some xid := by
  cases r <;> simp [opType, endXid]

theorem Call.opType_jrec (c : Call) (t : DataTok) : (c.jrec t).opType = c.op := by cases c <;> rfl

namespace Wmgr

variable {g : Geom} {s s' : Wmgr} {tok : Nat}

/-! ## The tokens in a page that returns -/

/-- A token that is in the page as often as it still waits for pages is passed to the callback once, in its last state,
if its record is complete. -/
theorem ToksTo.report {toks out : List Nat} (h : s.ToksTo toks out s') (i : Nat)
    (hn : toks.count i ≤ (s.toks i).pgCnt) : (s'.toks i).pgCnt + toks.count i = (s.toks i).pgCnt ∧
      ((s'.toks i).wstate = (s.toks i).wstate ∧ out.filter (· = i) = [] ∨
        ∃ op, (s.toks i).wstate.submOp = some op ∧ (s'.toks i).pgCnt = 0 ∧
          (s'.toks i).wstate = op.compl ∧ out.filter (· = i) = [i]) := by
  induction h with
  | nil s => exact ⟨rfl, Or.inl ⟨rfl, rfl⟩⟩
  | cons h ht ih =>
    rename_i s t u tok toks out b
    by_cases hi : tok = i
    · subst hi
      rw [List.count_cons_self] at hn ⊢
      cases h with
      | waits hw =>
        simp only [Function.update_self] at ih
        obtain ⟨h1, h2⟩ := ih (by omega)
        exact ⟨by omega, h2⟩
      | complete op h1 ho m =>
        simp only [Function.update_self, op.compl_submOp] at ih
        obtain ⟨h2, h3⟩ := ih (by omega)
        refine ⟨by omega, Or.inr ⟨op, ho, by omega, ?_⟩⟩
        rcases h3 with ⟨h3, h4⟩ | ⟨op', h3, -⟩
        · exact ⟨h3, by simp [h4]⟩
        · cases h3
    · have hsame : t.toks i = s.toks i := by
        cases h <;> simp only [Function.update_of_ne (Ne.symm hi)]
      have hout : (if b then tok :: out else out).filter (· = i) = out.filter (· = i) := by
        cases b <;> simp [hi]
      rw [List.count_cons_of_ne hi] at hn ⊢
      rw [hsame] at ih
      rw [hout]
      exact ih hn

/-- `_txn_pending_set` holds the transactions whose end is waited for, each once. -/
structure Ends (s : Wmgr) : Prop where
  nodup : s.txnPending.Nodup
  pending : ∀ xid, xid ∈ s.txnPending ↔ ∃ tok, (s.toks tok).wstate.ends = true ∧ (s.toks tok).xid = xid
  distinct : ∀ tok tok', (s.toks tok).wstate.ends = true → (s.toks tok').wstate.ends = true →
    (s.toks tok).xid = (s.toks tok').xid → tok = tok'

theorem Ends.of_eq (h : s.Ends) (hp : s'.txnPending = s.txnPending)
    (hw : ∀ i, (s'.toks i).wstate.ends = (s.toks i).wstate.ends)
    (hx : ∀ i, (s.toks i).wstate.ends = true → (s'.toks i).xid = (s.toks i).xid) : s'.Ends := by
  obtain ⟨h1, h2, h3⟩ := h
  constructor
  · rwa [hp]
  · intro xid
    rw [hp, h2]
    constructor
    · rintro ⟨i, hi, rfl⟩
      exact ⟨i, (hw i).trans hi, hx i hi⟩
    · rintro ⟨i, hi, rfl⟩
      rw [hw] at hi
      exact ⟨i, hi, (hx i hi).symm⟩
  · intro i j hi hj he
    rw [hw] at hi hj
    rw [hx i hi, hx j hj] at he
    exact h3 i j hi hj he

theorem Ends.tokTo {b : Bool} (h : s.Ends) (ht : s.TokTo tok b s') : s'.Ends := by
  cases ht with
  | waits hw =>
    refine h.of_eq rfl (fun i => ?_) fun i _ => ?_
    · by_cases hi : i = tok
      · subst hi
        simp only [Function.update_self]
      · simp only [Function.update_of_ne hi]
    · by_cases hi : i = tok
      · subst hi
        simp only [Function.update_self]
      · simp only [Function.update_of_ne hi]
  | complete op h1 ho m =>
    have hends := WState.ends_eq ho
    have hnone : op.compl.ends = false := WState.ends_of_none op.compl_submOp
    have hne : ∀ i, (Function.update s.toks tok
        { s.toks tok with pgCnt := 0, wstate := op.compl } i).wstate.ends = true → i ≠ tok := by
      rintro i hi rfl
      simp [hnone] at hi
    by_cases hop : op = .abort ∨ op = .commit
    · have hend : (s.toks tok).wstate.ends = true := by simpa [hends] using hop
      simp only [if_pos hop]
      constructor
      · exact h.nodup.erase _
      · intro xid
        rw [h.nodup.mem_erase_iff, h.pending]
        constructor
        · rintro ⟨hx, i, hi, rfl⟩
          have hit : i ≠ tok := fun he => hx (he ▸ rfl)
          exact ⟨i, by simpa only [Function.update_of_ne hit] using hi, by simp only [Function.update_of_ne hit]⟩
        · rintro ⟨i, hi, rfl⟩
          have hit := hne i hi
          simp only [Function.update_of_ne hit] at hi ⊢
          exact ⟨fun hx => hit (h.distinct i tok hi hend hx), i, hi, rfl⟩
      · intro i j hi hj
        have hit := hne i hi
        have hjt := hne j hj
        simp only [Function.update_of_ne hit, Function.update_of_ne hjt] at hi hj ⊢
        exact h.distinct i j hi hj
    · have hend : (s.toks tok).wstate.ends = false := by
        rw [hends]
        simpa [not_or] using hop
      simp only [if_neg hop]
      refine h.of_eq rfl (fun i => ?_) fun i _ => ?_
      · by_cases hi : i = tok
        · subst hi
          simp only [Function.update_self, hnone, hend]
        · simp only [Function.update_of_ne hi]
      · by_cases hi : i = tok
        · subst hi
          simp only [Function.update_self]
        · simp only [Function.update_of_ne hi]

theorem Ends.toksTo {toks out : List Nat} (h : s.Ends) (ht : s.ToksTo toks out s') : s'.Ends := by
  induction ht with
  | nil s => exact h
  | cons ht _ ih => exact ih (h.tokTo ht)

/-! ## The records of each token -/

def recordsOf (s : Wmgr) (tok : Nat) : List Written := s.log.filter fun w => w.tok = tok

def callbacks (s : Wmgr) (tok : Nat) : List WState := (s.acked.filter fun x => x.1 = tok).map fun x => x.2.wstate

/-- The records `old` of the token were passed to the callback, each in its last state, and it waits for `new`. -/
structure Reported (s : Wmgr) (tok : Nat) (old new : List Written) : Prop where
  records : s.recordsOf tok = old ++ new
  callbacks : s.callbacks tok = old.map fun w => w.jrec.opType.compl
  returned : ∀ w ∈ old, ∀ p ∈ w.parts, ¬s.Waits p
  rest : (s.toks tok).wstate.submOp = none → new = []
  last : ∀ op ∈ (s.toks tok).wstate.submOp, ∃ w, new = [w] ∧ w.jrec.opType = op ∧
    ∀ xid ∈ w.jrec.endXid, (s.toks tok).xid = xid

/-- Each token counts the parts that it waits for. -/
structure Reports (s : Wmgr) : Prop where
  count : ∀ tok, (s.toks tok).pgCnt = s.partsOf.countP fun x => x.tok = tok ∧ s.Waits x.part
  reported : ∀ tok, ∃ old new, s.Reported tok old new
  cur : ∀ w ∈ s.cur, (s.toks w.tok).wstate.submOp = none
  ends : s.Ends

theorem mem_partsOf {w : Written} (hw : w ∈ s.log ++ s.cur.toList) {p : Part} (hp : p ∈ w.parts) :
    ⟨w.tok, w.jrec, p⟩ ∈ s.partsOf :=
  List.mem_flatMap.mpr ⟨w, hw, List.mem_map.mpr ⟨p, hp, rfl⟩⟩

theorem Reported.mem {old new : List Written} (h : s.Reported tok old new) {w : Written} (hw : w ∈ old ++ new) :
    w ∈ s.log ∧ w.tok = tok := by
  rw [← h.records] at hw
  simpa [recordsOf] using hw

theorem Reports.of_eq (h : s.Reports) (hl : s'.log = s.log) (hc : s'.cur = s.cur) (ha : s'.acked = s.acked)
    (ht : s'.toks = s.toks) (hp : s'.txnPending = s.txnPending)
    (hw : ∀ x ∈ s.partsOf, s'.Waits x.part ↔ s.Waits x.part) : s'.Reports := by
  have hparts : s'.partsOf = s.partsOf := by rw [partsOf, hl, hc, partsOf]
  constructor
  · intro tok
    rw [ht, h.count, hparts]
    apply List.countP_congr
    intro x hx
    simp only [decide_eq_true_eq, hw x hx]
  · intro tok
    obtain ⟨old, new, hr⟩ := h.reported tok
    refine ⟨old, new, ?_, ?_, fun w hm p hpw => ?_, ?_, ?_⟩
    · rw [recordsOf, hl]
      exact hr.records
    · rw [Wmgr.callbacks, ha]
      exact hr.callbacks
    · have hmem := (hr.mem (List.mem_append_left _ hm)).1
      rw [hw _ (mem_partsOf (List.mem_append_left _ hmem) hpw)]
      exact hr.returned w hm p hpw
    · rw [ht]
      exact hr.rest
    · rw [ht]
      exact hr.last
  · rw [hc, ht]
    exact h.cur
  · exact h.ends.of_eq hp (fun _ => by rw [ht]) fun _ _ => by rw [ht]

/-- Whatever is written, what is waited for stays the same. -/
theorem Listed.waits_submit (h : s.Listed) {w : Write} (hs : s'.subm = s.subm ++ [w])
    (hq : s'.pending = s.pending ++ [s.subm.length]) {x : PartOf} (hx : x ∈ s.partsOf) :
    s'.Waits x.part ↔ s.Waits x.part := by
  rw [Waits, h.carrier_submit hx hs, hq, Waits]
  cases hc : x.part.carrier s.subm with
  | none => by_cases hw : w.page.isSome = true <;> simp [hw]
  | some i =>
    have hlt := Part.carrier_lt hc
    simp only [Option.some_or, Option.mem_some, forall_eq', List.mem_append, List.mem_singleton]
    exact ⟨fun h => h.resolve_right (Nat.ne_of_lt hlt), Or.inl⟩

/-- Another token, or another state that is not waited in. -/
theorem Reports.setTok (h : s.Reports) {t : DataTok} (hs : (s.toks tok).wstate.submOp = none)
    (ht : t.wstate.submOp = none) (hp : t.pgCnt = (s.toks tok).pgCnt) :
    ({ s with toks := Function.update s.toks tok t } : Wmgr).Reports := by
  have hsub : ∀ i, (Function.update s.toks tok t i).wstate.submOp = (s.toks i).wstate.submOp := by
    intro i
    by_cases hi : i = tok
    · subst hi
      rw [Function.update_self, ht, hs]
    · rw [Function.update_of_ne hi]
  constructor
  · intro i
    by_cases hi : i = tok
    · subst hi
      simp only [Function.update_self]
      exact hp.trans (h.count i)
    · simp only [Function.update_of_ne hi]
      exact h.count i
  · intro i
    obtain ⟨old, new, h1, h2, h3, h4, h5⟩ := h.reported i
    refine ⟨old, new, h1, h2, h3, fun hn => h4 ((hsub i).symm.trans hn), fun op hop => ?_⟩
    have hi : i ≠ tok := by
      rintro rfl
      simp [ht] at hop
    simp only [Function.update_of_ne hi] at hop ⊢
    exact h5 op hop
  · exact fun w hw => (hsub w.tok).trans (h.cur w hw)
  · have hne : ∀ i, (s.toks i).wstate.ends = true → i ≠ tok := by
      rintro i hi rfl
      rw [WState.ends_of_none hs] at hi
      cases hi
    refine h.ends.of_eq rfl (fun i => ?_) fun i hi => ?_
    · by_cases hi : i = tok
      · subst hi
        simp only [Function.update_self, WState.ends_of_none ht, WState.ends_of_none hs]
      · simp only [Function.update_of_ne hi]
    · simp only [Function.update_of_ne (hne i hi)]

section Encode

variable {op : OpType} {r : JRec}

theorem cur_encoded (hc : ∀ w ∈ s.cur, w.tok = tok ∧ w.jrec = r) :
    ∃ w, (s.encoded g r tok).cur = some w ∧ w.tok = tok ∧ w.jrec = r := by
  cases h : s.cur with
  | none => exact ⟨⟨tok, r, s.owi, [s.nextPart g r tok]⟩, by simp only [encoded, h], rfl, rfl⟩
  | some w =>
    exact ⟨{ w with parts := w.parts ++ [s.nextPart g r tok] }, by simp only [encoded, h], hc w h⟩

/-- The token waits for one part more. -/
theorem Reports.count_encoded (h : s.Reports) (hc : ∀ w ∈ s.cur, w.tok = tok ∧ w.jrec = r) (i : Nat) :
    ((s.encoded g r tok).toks i).pgCnt =
      (s.encoded g r tok).partsOf.countP fun x => x.tok = i ∧ (s.encoded g r tok).Waits x.part := by
  have hw : (s.encoded g r tok).Waits (s.nextPart g r tok) := by
    intro j hj
    rw [Part.carrier_self rfl] at hj
    cases hj
  have hold := h.count i
  rw [partsOf_encoded hc, List.countP_append, List.countP_singleton]
  change _ = s.partsOf.countP (fun x => decide (x.tok = i ∧ s.Waits x.part)) +
    if decide (tok = i ∧ (s.encoded g r tok).Waits (s.nextPart g r tok)) = true then 1 else 0
  rw [← hold]
  by_cases hi : i = tok
  · subst hi
    rw [if_pos (by simpa using hw)]
    simp only [Wmgr.encoded, Function.update_self]
  · rw [if_neg (by simp [Ne.symm hi])]
    simp only [Wmgr.encoded, Function.update_of_ne hi]
    rfl

theorem Reports.partEncoded (h : s.Reports) (hs : (s.toks tok).wstate.submOp = none)
    (hc : ∀ w ∈ s.cur, w.tok = tok ∧ w.jrec = r) : (s.partEncoded g op r tok).Reports := by
  obtain ⟨w, hw, hwt, -⟩ := cur_encoded (g := g) hc
  have hself : ((s.partEncoded g op r tok).toks tok).wstate = op.part := by
    simp [Wmgr.partEncoded]
  have hother : ∀ i ≠ tok, (s.partEncoded g op r tok).toks i = s.toks i := by
    intro i hi
    simp [Wmgr.partEncoded, Wmgr.encoded, hi]
  have hsub : ∀ i, ((s.partEncoded g op r tok).toks i).wstate.submOp = (s.toks i).wstate.submOp := by
    intro i
    by_cases hi : i = tok
    · rw [hi, hself, op.part_submOp, hs]
    · rw [hother i hi]
  constructor
  · intro i
    refine Eq.trans ?_ (h.count_encoded (g := g) hc i)
    by_cases hi : i = tok
    · subst hi
      simp [Wmgr.partEncoded]
    · simp [Wmgr.partEncoded, hi]
  · intro i
    obtain ⟨old, new, h1, h2, h3, h4, h5⟩ := h.reported i
    refine ⟨old, new, h1, h2, h3, fun hn => h4 ((hsub i).symm.trans hn), fun op' hop => ?_⟩
    have hi : i ≠ tok := by
      rintro rfl
      rw [hself, op.part_submOp] at hop
      cases hop
    rw [hother i hi] at hop ⊢
    exact h5 op' hop
  · intro w' hw'
    obtain rfl := Option.some.inj (hw.symm.trans hw')
    rw [hwt, hself, op.part_submOp]
  · refine h.ends.of_eq rfl (fun i => ?_) fun i hi => ?_
    · by_cases hi : i = tok
      · rw [hi, hself, WState.ends_of_none op.part_submOp, WState.ends_of_none hs]
      · rw [hother i hi]
    · have hit : i ≠ tok := by
        rintro rfl
        rw [WState.ends_of_none hs] at hi
        cases hi
      rw [hother i hit]

/-- A record is complete and not yet passed to the callback. -/
theorem Reports.completed (h : s.Reports) (hs : (s.toks tok).wstate.submOp = none)
    (hc : ∀ w ∈ s.cur, w.tok = tok ∧ w.jrec = r) (hop : r.opType = op)
    (hx : ∀ xid ∈ r.endXid, (s.toks tok).xid = xid) (hn : ∀ xid ∈ r.endXid, xid ∉ s.txnPending) (m : Maps) :
    ({ (s.encoded g r tok).completed op r tok m with
      txnPending := r.endXid.toList ++ s.txnPending } : Wmgr).Reports := by
  obtain ⟨w, hw, rfl, rfl⟩ := cur_encoded (g := g) hc
  generalize hu : ({ (s.encoded g w.jrec w.tok).completed op w.jrec w.tok m with
      txnPending := w.jrec.endXid.toList ++ s.txnPending } : Wmgr) = u
  have hself : (u.toks w.tok).wstate = op.subm ∧ (u.toks w.tok).xid = (s.toks w.tok).xid ∧
      (u.toks w.tok).pgCnt = ((s.encoded g w.jrec w.tok).toks w.tok).pgCnt := by
    subst hu
    simp [Wmgr.completed, Wmgr.encoded]
  have hother : ∀ i ≠ w.tok, u.toks i = s.toks i := by
    intro i hi
    subst hu
    simp [Wmgr.completed, Wmgr.encoded, hi]
  have hlog : u.log = s.log ++ [w] := by
    subst hu
    change s.log ++ (s.encoded g w.jrec w.tok).cur.toList = _
    rw [hw]
    rfl
  have hends : op.subm.ends = true ↔ ∃ xid, w.jrec.endXid = some xid := by
    rw [WState.ends_eq op.subm_submOp, ← hop]
    exact JRec.ends_iff
  have hfree : (s.toks w.tok).wstate.ends = false := WState.ends_of_none hs
  constructor
  · intro i
    have hparts : u.partsOf = (s.encoded g w.jrec w.tok).partsOf := by
      subst hu
      exact partsOf_completed op w.jrec w.tok _ m
    rw [hparts]
    subst hu
    refine Eq.trans ?_ (h.count_encoded (g := g) hc i)
    by_cases hi : i = w.tok
    · rw [hi, hself.2.2]
    · rw [hother i hi]
      simp [Wmgr.encoded, hi]
  · intro i
    obtain ⟨old, new, h1, h2, h3, h4, h5⟩ := h.reported i
    have hrec : u.recordsOf i = s.recordsOf i ++ if i = w.tok then [w] else [] := by
      rw [recordsOf, hlog, List.filter_append, recordsOf]
      by_cases hi : i = w.tok <;> simp [hi, eq_comm]
    have hcall : u.callbacks i = s.callbacks i := by
      subst hu
      rfl
    have hret : ∀ x ∈ old, ∀ p ∈ x.parts, ¬u.Waits p := by
      subst hu
      exact h3
    by_cases hi : i = w.tok
    · subst hi
      rw [h4 hs, List.append_nil] at h1
      refine ⟨old, [w], by rw [hrec, h1, if_pos rfl], hcall.trans h2, hret, fun hn' => ?_, fun op' hop' => ?_⟩
      · rw [hself.1, op.subm_submOp] at hn'
        cases hn'
      · rw [hself.1, op.subm_submOp] at hop'
        obtain rfl := Option.some.inj hop'
        exact ⟨w, rfl, hop, fun xid hxid => hself.2.1.trans (hx xid hxid)⟩
    · refine ⟨old, new, by rw [hrec, h1, if_neg hi, List.append_nil], hcall.trans h2, hret, ?_, ?_⟩
      · rw [hother i hi]
        exact h4
      · rw [hother i hi]
        exact h5
  · subst hu
    rintro _ ⟨⟩
  · have hp : u.txnPending = w.jrec.endXid.toList ++ s.txnPending := by
      subst hu
      rfl
    cases he : w.jrec.endXid with
    | none =>
      have hno : op.subm.ends = false := by
        rw [← Bool.not_eq_true, hends, he]
        rintro ⟨_, ⟨⟩⟩
      rw [he] at hp
      refine h.ends.of_eq hp (fun i => ?_) fun i hi => ?_
      · by_cases hi : i = w.tok
        · rw [hi, hself.1, hno, hfree]
        · rw [hother i hi]
      · have hit : i ≠ w.tok := by
          rintro rfl
          rw [hfree] at hi
          cases hi
        rw [hother i hit]
    | some xid =>
      have hyes : op.subm.ends = true := hends.mpr ⟨xid, he⟩
      have hxid := hx xid he
      have hnew := hn xid he
      rw [he] at hp
      constructor
      · rw [hp]
        exact List.nodup_cons.mpr ⟨hnew, h.ends.nodup⟩
      · intro y
        rw [hp]
        change y ∈ xid :: s.txnPending ↔ _
        rw [List.mem_cons, h.ends.pending]
        constructor
        · rintro (rfl | ⟨i, hi, rfl⟩)
          · exact ⟨w.tok, by rw [hself.1, hyes], hself.2.1.trans hxid⟩
          · have hit : i ≠ w.tok := by
              rintro rfl
              rw [hfree] at hi
              cases hi
            exact ⟨i, by rw [hother i hit]; exact hi, by rw [hother i hit]⟩
        · rintro ⟨i, hi, rfl⟩
          by_cases hit : i = w.tok
          · left
            rw [hit, hself.2.1, hxid]
          · right
            rw [hother i hit] at hi ⊢
            exact ⟨i, hi, rfl⟩
      · have hnot : ∀ i ≠ w.tok, (u.toks i).wstate.ends = true → (u.toks i).xid ≠ xid := by
          intro i hit hi hx'
          rw [hother i hit] at hi hx'
          exact hnew ((h.ends.pending xid).mpr ⟨i, hi, hx'⟩)
        intro i j hi hj hij
        by_cases hit : i = w.tok
        · by_cases hjt : j = w.tok
          · rw [hit, hjt]
          · rw [hit, hself.2.1, hxid] at hij
            exact (hnot j hjt hj hij.symm).elim
        · by_cases hjt : j = w.tok
          · rw [hjt, hself.2.1, hxid] at hij
            exact (hnot i hit hi hij).elim
          · rw [hother i hit] at hi hij
            rw [hother j hjt] at hj hij
            exact h.ends.distinct i j hi hj hij

end Encode

section Events

/-- What a write has carried is not waited for when it has returned. -/
theorem Reports.eventTo (h : s.Reports) (hl : s.Listed) (hc : s.Carried) (hb : s.Booked g) {i : Nat}
    (ht : s.EventTo i s') : s'.Reports := by
  have hn := hb.pending_nodup
  cases ht with
  | none _ => exact h
  | header hi hw hp =>
    refine h.of_eq rfl rfl rfl rfl rfl fun x hx => ?_
    constructor
    · exact fun hwait j hj => List.mem_of_mem_erase (hwait j hj)
    · intro hwait j hj
      obtain ⟨v, hv, hpg, -⟩ := hc.content x hx j hj
      have hne : j ≠ i := by
        rintro rfl
        obtain rfl := Option.some.inj (hw.symm.trans hv)
        exact hpg hp
      exact (List.mem_erase_of_ne hne).mpr (hwait j hj)
  | page hi hw hp htoks =>
    rename_i w pg out t
    have hret := htoks.report
    have hxid := htoks.xid
    have hends : t.Ends := Ends.toksTo (⟨h.ends.nodup, h.ends.pending, h.ends.distinct⟩ : Ends
      { s with aioEvtRem := s.aioEvtRem - 1, pending := s.pending.erase i }) htoks
    obtain ⟨toks, x, m, rfl⟩ := htoks.frame
    -- what still waits, and what was in the page
    have hsplit : ∀ tok, s.partsOf.countP (fun x => x.tok = tok ∧ s.Waits x.part) =
        s.partsOf.countP (fun x => x.tok = tok ∧ ∀ j ∈ x.part.carrier s.subm, j ∈ s.pending.erase i) +
          (s.pages pg).pdtokl.count tok := by
      intro tok
      rw [hl.written i hi w pg hw hp tok, within,
        List.countP_eq_countP_filter_add _ _ (fun x => decide (x.part.carrier s.subm = some i)),
        List.countP_filter, List.countP_filter, Nat.add_comm]
      congr 1
      · apply List.countP_congr
        intro x _
        simp only [Bool.and_eq_true, decide_eq_true_eq, Bool.not_eq_true', decide_eq_false_iff_not, and_assoc]
        refine and_congr_right fun _ => ?_
        constructor
        · rintro ⟨hwait, hne⟩ j hj
          have hji : j ≠ i := by
            rintro rfl
            exact hne hj
          exact (List.mem_erase_of_ne hji).mpr (hwait j hj)
        · intro hwait
          refine ⟨fun j hj => List.mem_of_mem_erase (hwait j hj), fun he => ?_⟩
          exact hn.not_mem_erase (hwait i he)
      · apply List.countP_congr
        intro x _
        simp only [Bool.and_eq_true, decide_eq_true_eq, and_assoc]
        refine and_congr_right fun _ => ⟨And.right, fun he => ⟨fun j hj => ?_, he⟩⟩
        obtain rfl := Option.some.inj (he.symm.trans hj)
        exact hi
    have hle : ∀ tok, (s.pages pg).pdtokl.count tok ≤ (s.toks tok).pgCnt := by
      intro tok
      rw [h.count, hsplit]
      exact Nat.le_add_left _ _
    have hcount : ∀ tok, (toks tok).pgCnt =
        s.partsOf.countP fun x => x.tok = tok ∧ ∀ j ∈ x.part.carrier s.subm, j ∈ s.pending.erase i := by
      intro tok
      have h1 := (hret tok (hle tok)).1
      have h2 := h.count tok
      rw [hsplit] at h2
      change (toks tok).pgCnt + _ = (s.toks tok).pgCnt at h1
      omega
    constructor
    · exact hcount
    · intro tok
      obtain ⟨old, new, hr⟩ := h.reported tok
      have hfewer : ∀ w ∈ old, ∀ p ∈ w.parts, ¬∀ j ∈ p.carrier s.subm, j ∈ s.pending.erase i :=
        fun w hm p hpw hwait => hr.returned w hm p hpw fun j hj => List.mem_of_mem_erase (hwait j hj)
      have hcall : Wmgr.callbacks { s with
          acked := s.acked ++ out.map fun tok => (tok, toks tok) } tok =
          s.callbacks tok ++ (out.filter (· = tok)).map fun tok => (toks tok).wstate := by
        simp only [Wmgr.callbacks, List.filter_append, List.map_append, List.filter_map, List.map_map]
        rfl
      rcases (hret tok (hle tok)).2 with ⟨hst, hout⟩ | ⟨op, hop, hzero, hst, hout⟩
      · change (toks tok).wstate = (s.toks tok).wstate at hst
        rw [hout, List.map_nil, List.append_nil] at hcall
        refine ⟨old, new, hr.records, hcall.trans hr.callbacks, hfewer, fun hn' => ?_, fun op hop => ?_⟩
        · exact hr.rest (hst ▸ hn')
        · obtain ⟨w, hw', hwop, hwx⟩ := hr.last op (hst ▸ hop)
          exact ⟨w, hw', hwop, fun xid hx' => (hxid tok).trans (hwx xid hx')⟩
      · change (s.toks tok).wstate.submOp = some op at hop
        change (toks tok).pgCnt = 0 at hzero
        change (toks tok).wstate = op.compl at hst
        obtain ⟨w, rfl, hwop, -⟩ := hr.last op hop
        rw [hout] at hcall
        refine ⟨old ++ [w], [], by rw [List.append_nil]; exact hr.records, ?_, ?_, fun _ => rfl, fun op' hop' => ?_⟩
        · refine hcall.trans ?_
          rw [hr.callbacks, List.map_append, List.map_singleton, List.map_singleton, hst, hwop]
        · intro v hv p hpv
          rcases List.mem_append.mp hv with hv | hv
          · exact hfewer v hv p hpv
          · obtain ⟨hlog, rfl⟩ := hr.mem (List.mem_append_right _ hv)
            intro hwait
            rw [hcount, List.countP_eq_zero] at hzero
            have hmem := mem_partsOf (List.mem_append_left s.cur.toList hlog) hpv
            exact hzero _ hmem (decide_eq_true ⟨rfl, hwait⟩)
        · change op' ∈ (toks tok).wstate.submOp at hop'
          rw [hst, op.compl_submOp] at hop'
          cases hop'
    · intro w hw'
      have hnone := h.cur w hw'
      rcases (hret w.tok (hle w.tok)).2 with ⟨hst, -⟩ | ⟨op, hop, -⟩
      · exact (congrArg WState.submOp hst).trans hnone
      · change (s.toks w.tok).wstate.submOp = some op at hop
        rw [hnone] at hop
        cases hop
    · exact ⟨hends.nodup, hends.pending, hends.distinct⟩

end Events

end Wmgr

end RhmStore
