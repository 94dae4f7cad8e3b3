import RhmStore.Store.Handed

/-! # Recovery gives the broker its messages

The verdict over each message is the right one, although it is made before the prepared transactions
are completed, unless a lock is missing. -/

namespace RhmStore

open Function Std

/-- The rids in the maps are those of records. -/
theorem Orderly.uses {log : List Placed} (h : Orderly log) : (View.empty.applyAll log).Uses (rids log) := by
  have hf := View.fromLog_applyAll h.nodup
  refine ⟨fun r hs => ?_, fun x td hm => ?_⟩
  · obtain ⟨d, hd⟩ := Option.isSome_iff_exists.mp hs
    obtain ⟨p, hp, -, x, ds, t, e, hj⟩ := hf.enq r d hd
    exact List.mem_map.mpr ⟨p, hp, by rw [hj]; rfl⟩
  · rw [hf.opn] at hm
    obtain ⟨p, hp, hpe⟩ := mem_openEntries hm
    have hent := mem_entry hpe
    refine ⟨hent.1 ▸ List.mem_map_of_mem hp, fun he => ?_⟩
    obtain ⟨c, hj⟩ := hent.2.2.2.2.2.1 he
    exact h.dequeued_mem hp ⟨td.rid, x, c, hj⟩

theorem Orderly.distinct {log : List Placed} (h : Orderly log) : (View.empty.applyAll log).Distinct := by
  have hf := View.fromLog_applyAll h.nodup
  refine ⟨fun x y td td' hm hm' hr => ?_, hf.fresh⟩
  rw [hf.opn] at hm hm'
  exact (openEntries_inj h.nodup hm hm' hr).1

namespace Jnl

/-- A journal that no recovery was made of: the maps are what its records make, and the locks are
exact in each front part of them. -/
structure Fresh (j : Jnl) : Prop where
  view : j.maps.view = View.empty.applyAll j.recs
  locks : ∀ pre, pre <+: j.recs → (View.empty.applyAll pre).Locks

variable {j j' : Jnl}

theorem init_fresh (files : Nat) : (init files).Fresh := by
  refine ⟨Maps.view_init files, fun pre hp => ?_⟩
  rw [List.prefix_nil.mp hp]
  exact View.locks_empty

/-- As long as there is no crash. -/
theorem Fresh.live (h : j.Fresh) (ho : Orderly j.recs) (hl : Live j j') : j'.Fresh := by
  cases hl with
  | sync k => exact ⟨h.view, h.locks⟩
  | returned rid =>
    refine ⟨?_, ?_⟩
    · rw [view_returned, recs_returned]
      exact h.view
    · rw [recs_returned]
      exact h.locks
  | @write k w _ hw =>
    have hrecs := recs_write hw
    change j'.recs = j.recs ++ [w.placed] at hrecs
    obtain ⟨hn, -, m, hm, rfl⟩ := write_ok hw
    have hv : m.view = View.empty.applyAll (j.recs ++ [w.placed]) := by
      rw [Maps.view_complete _ _ (Maps.ok_perform hm).2, h.view, View.applyAll_concat]
    have hold := h.locks _ List.prefix_rfl
    have huses := ho.uses
    have hdistinct := ho.distinct
    rw [← h.view] at hold huses hdistinct
    have hlocks : m.view.Locks := Maps.locks_perform hm hold huses hdistinct hn
    refine ⟨hrecs ▸ hv, fun pre hp => ?_⟩
    rw [hrecs] at hp
    rcases List.prefix_concat_iff.mp hp with rfl | hp
    · exact hv ▸ hlocks
    · exact h.locks pre hp

theorem recover_held {files : Nat} {log : Wal DataRec} {prepared : List Xid} (ho : Orderly (placeds log.recs))
    (hj : recover files log prepared = some j) : j.maps.view.Held := by
  obtain ⟨m, hm, hv, hs, -⟩ := Maps.replay_isOk files ho.nodup ho.persistent
  obtain ⟨m', hm', hd, -⟩ := Maps.discard_spec prepared m hs
  have hok : janalyze files (placeds log.recs) prepared = .ok () m' := ok_bind.mpr ⟨(), m, hm, hm'⟩
  unfold recover at hj
  rw [hok] at hj
  obtain rfl := Option.some.inj hj
  refine hd.held ?_
  rw [hv]
  exact View.held_applyAll View.locks_empty.held _

theorem recover_locks {files : Nat} {log : Wal DataRec} {prepared : List Xid} (ho : Orderly (placeds log.recs))
    (hl : (View.empty.applyAll (placeds log.recs)).Locks) (hj : recover files log prepared = some j) :
    j.maps.view.Locks := by
  obtain ⟨m, hm, hv, hs, -⟩ := Maps.replay_isOk files ho.nodup ho.persistent
  obtain ⟨m', hm', -, -, -, hlocks⟩ := Maps.discard_spec prepared m hs
  have hok : janalyze files (placeds log.recs) prepared = .ok () m' := ok_bind.mpr ⟨(), m, hm, hm'⟩
  unfold recover at hj
  rw [hok] at hj
  obtain rfl := Option.some.inj hj
  exact hlocks (hv ▸ hl)

end Jnl

section Loop

variable {maps : Nat → Maps} {rm : TplRecoverMap} {reads : Nat → List MsgRead} {es : Nat → List (Nat × Bool)}

/-- The loop over the queues, when the verdicts are `v` however far the list has been populated. -/
theorem recoverQueues_eq (v : Nat → Nat → Verdict) {qs done : List Nat} {txns : List PreparedTransaction}
    (hreads : ∀ q ∈ qs, DeliversMsgs 0 (es q) (reads q)) (hint : ∀ q ∈ qs, ∀ e ∈ es q, e.2 = false)
    (hv : ∀ q ∈ qs, ∀ done txns, Populated maps done txns → txns.map (·.xid) = recoverLockedMappings rm →
      q ∈ done → ∀ e ∈ es q, verdict (maps q) rm txns q e.1 = .ok (v q e.1))
    (hpop : Populated maps done txns) (hxs : txns.map (·.xid) = recoverLockedMappings rm) (r : RecoveredMsgs) :
    ∃ txns' r', recoverQueues maps rm reads qs txns r = .ok (txns', r') ∧
      Populated maps (qs.reverse ++ done) txns' ∧ txns'.map (·.xid) = recoverLockedMappings rm ∧
      r'.given = r.given ++ qs.flatMap (fun q => ((es q).filter fun e => v q e.1 = .recover).map fun e => (q, e.1)) ∧
      r'.messages = r.messages ++ qs.flatMap (fun q => ((es q).filter fun e => v q e.1 = .inDoubt).map fun e => e.1) := by
  induction qs generalizing done txns r with
  | nil => exact ⟨txns, r, rfl, hpop, hxs, by simp, by simp⟩
  | cons q qs ih =>
    have hpop' := hpop.next q
    have hxs' : (populate q (maps q).tmap txns).map (·.xid) = recoverLockedMappings rm :=
      (xids_populate q _ txns).trans hxs
    have hq : q ∈ q :: qs := List.mem_cons_self
    have hone := recoverMessages_eq (hreads q hq) (hint q hq) (v := v q)
      (hv q hq _ _ hpop' hxs' List.mem_cons_self) r
    obtain ⟨hg, hm⟩ := @foldl_add q (es q) (v q) r
    obtain ⟨txns', r', hok, hpop'', hxs'', hg', hm'⟩ := ih (fun q' h => hreads q' (List.mem_cons_of_mem _ h))
      (fun q' h => hint q' (List.mem_cons_of_mem _ h)) (fun q' h => hv q' (List.mem_cons_of_mem _ h)) hpop' hxs' _
    refine ⟨txns', r', ?_, ?_, hxs'', ?_, ?_⟩
    · rw [recoverQueues]
      simp only [hone]
      exact hok
    · rwa [List.reverse_cons, List.append_assoc, List.singleton_append]
    · rw [hg', hg, List.flatMap_cons, List.append_assoc]
    · rw [hm', hm, List.flatMap_cons, List.append_assoc]

theorem verdict_of_recoverQueues {qs done : List Nat} {txns : List PreparedTransaction}
    (hreads : ∀ q ∈ qs, DeliversMsgs 0 (es q) (reads q)) (hpop : Populated maps done txns)
    (hxs : txns.map (·.xid) = recoverLockedMappings rm) {r : RecoveredMsgs}
    {out : List PreparedTransaction × RecoveredMsgs} (hok : recoverQueues maps rm reads qs txns r = .ok out) :
    ∀ q ∈ qs, ∃ done txns, Populated maps done txns ∧ txns.map (·.xid) = recoverLockedMappings rm ∧ q ∈ done ∧
      ∀ e ∈ es q, ∃ v, verdict (maps q) rm txns q e.1 = .ok v := by
  induction qs generalizing done txns r with
  | nil => exact fun q hq => absurd hq List.not_mem_nil
  | cons q qs ih =>
    have hpop' := hpop.next q
    have hxs' : (populate q (maps q).tmap txns).map (·.xid) = recoverLockedMappings rm :=
      (xids_populate q _ txns).trans hxs
    rw [recoverQueues] at hok
    cases hone : recoverMessages (maps q) rm (populate q (maps q).tmap txns) q (reads q) 0 r with
    | error err =>
      simp only [hone] at hok
      cases hok
    | ok r' =>
      simp only [hone] at hok
      intro q' hq'
      rcases List.mem_cons.mp hq' with rfl | hq'
      · exact ⟨_, _, hpop', hxs', List.mem_cons_self,
          verdict_of_recoverMessages (hreads q' List.mem_cons_self) hone⟩
      · exact ih (fun q h => hreads q (List.mem_cons_of_mem _ h)) hpop' hxs' hok q' hq'

theorem nodup_collected (v : Nat → Nat → Verdict) {qs : List Nat} (hqs : qs.Nodup)
    (hn : ∀ q ∈ qs, ((es q).map fun e => e.1).Nodup) :
    (qs.flatMap fun q => ((es q).filter fun e => v q e.1 = .recover).map fun e => (q, e.1)).Nodup := by
  rw [List.nodup_flatMap]
  refine ⟨fun q hq => ?_, hqs.imp fun hne => ?_⟩
  · have hsub : ((es q).filter fun e => v q e.1 = .recover).Nodup := (hn q hq).of_map.filter _
    refine hsub.map_on fun e he e' he' heq => ?_
    exact List.inj_on_of_nodup_map (hn q hq) (List.mem_of_mem_filter he) (List.mem_of_mem_filter he')
      (Prod.mk.inj heq).2
  · intro m hm hm'
    obtain ⟨e, -, rfl⟩ := List.mem_map.mp hm
    obtain ⟨e', -, heq⟩ := List.mem_map.mp hm'
    exact hne (Prod.mk.inj heq).1.symm

theorem mem_collected (v : Nat → Nat → Verdict) {qs : List Nat} (q rid : Nat) :
    (q, rid) ∈ (qs.flatMap fun q => ((es q).filter fun e => v q e.1 = .recover).map fun e => (q, e.1)) ↔
      q ∈ qs ∧ v q rid = .recover ∧ ∃ e ∈ es q, e.1 = rid := by
  simp only [List.mem_flatMap, List.mem_map, List.mem_filter, decide_eq_true_iff, Prod.mk.injEq]
  constructor
  · rintro ⟨q', hq, e, ⟨he, hv⟩, rfl, rfl⟩
    exact ⟨hq, hv, e, he, rfl⟩
  · rintro ⟨hq, hv, e, he, rfl⟩
    exact ⟨q, hq, e, ⟨he, hv⟩, rfl, rfl⟩

theorem mem_indexed (v : Nat → Nat → Verdict) {qs : List Nat} (rid : Nat) :
    rid ∈ (qs.flatMap fun q => ((es q).filter fun e => v q e.1 = .inDoubt).map fun e => e.1) ↔
      ∃ q ∈ qs, v q rid = .inDoubt ∧ ∃ e ∈ es q, e.1 = rid := by
  simp only [List.mem_flatMap, List.mem_map, List.mem_filter, decide_eq_true_iff]
  refine exists_congr fun q => and_congr_right fun _ => ?_
  constructor
  · rintro ⟨e, ⟨he, hv⟩, rfl⟩
    exact ⟨hv, e, he, rfl⟩
  · rintro ⟨hv, e, he, rfl⟩
    exact ⟨e, ⟨he, hv⟩, rfl⟩

end Loop

namespace TxnSys

variable {n files tplFiles tplKept : Nat} {kept : Nat → Nat} {s s₁ s₂ : TxnSys} {x : Xid}
  {acts loop : List TxnAct}

/-- A transaction that is still open, or in doubt, has an operation on the record. -/
def Held (s : TxnSys) (q r : Nat) : Prop := ∃ x, s.ctxs x ≠ none ∧ (s.queues q).maps.view.Touches x r

/-- The record that a transaction to be completed dequeues is locked. -/
def HoldsLocks (s : TxnSys) (q : Nat) : Prop := ∀ x c, s.ctxs x = some c → c.commit ≠ none →
  ∀ r, View.Dequeues ((s.queues q).maps.view.opn x) r → ∀ d, (s.queues q).maps.view.enq r = some d → d.lock = true

open Classical in
noncomputable def rightVerdict (s : TxnSys) (q r : Nat) : Verdict :=
  if s.Held q r then .inDoubt
  else if (s.queues q).maps.emap.isEnqueued r true = true then .recover
  else .skip

section Right

variable {q r : Nat}

theorem rightVerdict_eq_inDoubt : s.rightVerdict q r = .inDoubt ↔ s.Held q r := by
  unfold rightVerdict
  by_cases hh : s.Held q r
  · simp [hh]
  · by_cases he : (s.queues q).maps.emap.isEnqueued r true = true
    · simp [hh, he]
    · simp [hh, he]

theorem rightVerdict_eq_recover : s.rightVerdict q r = .recover ↔
    (s.queues q).maps.emap.isEnqueued r true = true ∧ ¬s.Held q r := by
  unfold rightVerdict
  by_cases hh : s.Held q r
  · simp [hh]
  · by_cases he : (s.queues q).maps.emap.isEnqueued r true = true
    · simp [hh, he]
    · simp [hh, he]

theorem rightVerdict_eq_skip (hh : ¬s.Held q r) (he : ¬(s.queues q).maps.emap.isEnqueued r true = true) :
    s.rightVerdict q r = .skip := by
  unfold rightVerdict
  rw [if_neg hh, if_neg he]

end Right

theorem any_core (m : Maps) (x : Xid) (f : TxnData → Bool) (hf : ∀ td, f td.core = f td) :
    (m.tmap.getTdataList x).any f = true ↔ ∃ td ∈ m.view.opn x, f td = true := by
  rw [List.any_eq_true]
  constructor
  · rintro ⟨td, hm, ht⟩
    exact ⟨td.core, List.mem_map_of_mem hm, (hf td).trans ht⟩
  · rintro ⟨td, hm, ht⟩
    obtain ⟨td', hm', rfl⟩ := List.mem_map.mp hm
    exact ⟨td', hm', (hf td').symm.trans ht⟩

namespace Handing

variable {q r : Nat} {rm : TplRecoverMap} {done : List Nat} {txns : List PreparedTransaction}

theorem not_held_of_untouched (h : Handing n q s₁ s₂) (hn : ∀ x, ¬(s₁.queues q).maps.view.Touches x r) :
    ¬s₂.Held q r := by
  rintro ⟨x, hx, ht⟩
  exact hn x ((h.left hx).2.mp ht)

theorem not_held_of_told (h : Handing n q s₁ s₂) (ht : (s₁.queues q).maps.view.Touches x r)
    (hx : s₂.ctxs x = none) : ¬s₂.Held q r := by
  rintro ⟨y, hy, ht'⟩
  have heq := h.one ht ((h.left hy).2.mp ht')
  exact hy (heq ▸ hx)

theorem verdict_eq (h : Handing n q s₁ s₂) (hlocks : s₁.HoldsLocks q) (hrm : ∀ x, s₁.ctxs x = (rm[x]?).map (recoverCtxt n s₁.queues x))
    (hpop : Populated (fun q => (s₁.queues q).maps) done txns) (hxs : txns.map (·.xid) = recoverLockedMappings rm)
    (hq : q ∈ done) (hread : (∃ d, (s₁.queues q).maps.view.enq r = some d ∧ d.lock = false) ∨
      ∃ x, (s₁.queues q).maps.view.Touches x r) :
    verdict (s₁.queues q).maps rm txns q r = .ok (s₂.rightVerdict q r) := by
  by_cases hopen : ∃ x, (s₁.queues q).maps.view.Touches x r
  · obtain ⟨x, ht⟩ := hopen
    obtain ⟨c, hc⟩ := Option.isSome_iff_exists.mp (h.live_of_touches ht)
    obtain ⟨t, hget, rfl⟩ := Option.map_eq_some_iff.mp ((hrm x).symm.trans hc)
    have hmem : x ∈ txns.map (·.xid) := by
      rw [hxs, mem_recoverLockedMappings, hget]
      rfl
    obtain ⟨i, hi, rfl⟩ := getLocked_touched hpop hq hmem ht fun y hy => h.one ht hy
    unfold verdict
    simp only [hi, hget]
    cases hb : (t.deqFlag || !t.tpcFlag) with
    | false =>
      -- it waits for its outcome
      have hcom : (recoverCtxt n s₁.queues i.xid t).commit = none := by
        simp only [recoverCtxt, hb, Bool.false_eq_true, if_false]
      obtain ⟨c₂, hc₂, -⟩ := (h.looped.waits _ _ hc hcom).ctxt
      have hsome : s₂.ctxs i.xid ≠ none := by
        rw [hc₂]
        exact Option.some_ne_none c₂
      rw [rightVerdict_eq_inDoubt.mpr ⟨i.xid, hsome, (h.left hsome).2.mpr ht⟩]
      rfl
    | true =>
      have hcom : (recoverCtxt n s₁.queues i.xid t).commit = some t.commitFlag := by
        simp only [recoverCtxt, hb, if_true]
      have hfree := h.not_held_of_told ht (h.looped.told _ _ _ hc hcom).2
      simp only [if_true]
      by_cases hs : ((s₁.queues q).maps.view.enq r).isSome
      · -- it dequeues a record that is there
        obtain ⟨hdeq, hiff⟩ := h.enq_of_dequeued hc ht hs
        obtain ⟨d, hd⟩ := Option.isSome_iff_exists.mp hs
        have hlk : (s₁.queues q).maps.emap.isLocked r = .ok true := by
          have hlock := hlocks _ _ hc (by rw [hcom]; exact Option.some_ne_none _) r hdeq d hd
          change (s₁.queues q).maps.emap.map[r]? = some d at hd
          simp only [EnqMap.isLocked, hd, hlock]
        rw [if_pos ((isEnqueued_iff_view _ r).mpr hs), hlk]
        rw [hcom] at hiff
        cases hflag : t.commitFlag with
        | true => rw [rightVerdict_eq_skip hfree fun he => hiff.mp he (congrArg some hflag), if_pos rfl]
        | false =>
          have hno : some t.commitFlag ≠ some true := by
            rw [hflag]
            decide
          rw [rightVerdict_eq_recover.mpr ⟨hiff.mpr hno, hfree⟩, if_neg Bool.false_ne_true]
      · -- it enqueues the record
        have hiff := h.enq_of_open hc ht hs
        rw [if_neg fun he => hs ((isEnqueued_iff_view _ r).mp he)]
        have henq := any_core (s₁.queues q).maps i.xid (fun j => j.enqFlag && j.rid == r) fun _ => rfl
        have hdeq := any_core (s₁.queues q).maps i.xid (fun j => !j.enqFlag && j.drid == r) fun _ => rfl
        simp only [Bool.and_eq_true, Bool.not_eq_true', beq_iff_eq] at henq hdeq
        rw [hcom, Option.some.injEq, ← henq, ← hdeq, Bool.not_eq_true] at hiff
        by_cases he : (s₂.queues q).maps.emap.isEnqueued r true = true
        · obtain ⟨hf, hen, hde⟩ := hiff.mp he
          rw [rightVerdict_eq_recover.mpr ⟨he, hfree⟩, if_pos]
          simp only [hf, hen, hde, Bool.not_false, Bool.and_self]
        · rw [rightVerdict_eq_skip hfree he, if_neg]
          intro hall
          simp only [Bool.and_eq_true, Bool.not_eq_true'] at hall
          exact he (hiff.mpr ⟨hall.2, hall.1.1, hall.1.2⟩)
  · have hn : ∀ x, ¬(s₁.queues q).maps.view.Touches x r := fun x ht => hopen ⟨x, ht⟩
    obtain ⟨d, hd, -⟩ := hread.resolve_right hopen
    have henq : (s₂.queues q).maps.emap.isEnqueued r true = true := by
      rw [h.enq_of_untouched hn, hd]
      rfl
    rw [rightVerdict_eq_recover.mpr ⟨henq, h.not_held_of_untouched hn⟩]
    exact verdict_untouched hpop rm fun t _ => hn t.xid

theorem holdsLocks_of_verdict (h : Handing n q s₁ s₂) (hrm : ∀ x, s₁.ctxs x = (rm[x]?).map (recoverCtxt n s₁.queues x))
    (hpop : Populated (fun q => (s₁.queues q).maps) done txns) (hxs : txns.map (·.xid) = recoverLockedMappings rm)
    (hq : q ∈ done) (hv : ∀ e ∈ deliveredMsgs (s₁.queues q).maps (s₁.queues q).recs,
      ∃ v, verdict (s₁.queues q).maps rm txns q e.1 = .ok v) : s₁.HoldsLocks q := by
  intro x c hc hcom r hdeq d hd
  by_contra hl
  rw [Bool.not_eq_true] at hl
  have hs : ((s₁.queues q).maps.view.enq r).isSome := by
    rw [hd]
    rfl
  have ht : (s₁.queues q).maps.view.Touches x r := by
    obtain ⟨td, hm, hf, hr⟩ := hdeq
    exact ⟨td, hm, by rw [TxnData.Touches, hf, if_neg Bool.false_ne_true, hr]⟩
  -- the record is read
  have hsnd := h.inv₁.logs.sound q
  obtain ⟨⟨p, hp, hen, -⟩, -⟩ := (hsnd.orderly.content.enq r).mp (hsnd.enq r ▸ hs)
  obtain ⟨e, he, rfl⟩ := (delivered_iff _ _ r).mpr ⟨⟨p, hp, hen⟩, .inl ⟨d, hd, hl⟩⟩
  obtain ⟨v, hv⟩ := hv e he
  obtain ⟨t, hget, rfl⟩ := Option.map_eq_some_iff.mp ((hrm x).symm.trans hc)
  have hmem : x ∈ txns.map (·.xid) := by
    rw [hxs, mem_recoverLockedMappings, hget]
    rfl
  obtain ⟨i, hi, rfl⟩ := getLocked_touched hpop hq hmem ht fun y hy => h.one ht hy
  have htold : (t.deqFlag || !t.tpcFlag) = true := by
    by_contra hno
    rw [Bool.not_eq_true] at hno
    simp only [recoverCtxt, hno, Bool.false_eq_true, if_false] at hcom
    exact hcom rfl
  have hlk : (s₁.queues q).maps.emap.isLocked e.1 = .ok false := by
    change (s₁.queues q).maps.emap.map[e.1]? = some d at hd
    simp only [EnqMap.isLocked, hd, hl]
  unfold verdict at hv
  simp only [hi, hget, htold, if_true, (isEnqueued_iff_view _ e.1).mpr hs, hlk] at hv
  cases hv

theorem read_of_enq (h : Handing n q s₁ s₂) (he : (s₂.queues q).maps.emap.isEnqueued r true = true) :
    ∃ e ∈ deliveredMsgs (s₁.queues q).maps (s₁.queues q).recs, e.1 = r := by
  obtain ⟨⟨p, hp, hen, -⟩, -⟩ := (h.isEnqueued_after r).mp he
  refine (delivered_iff _ _ r).mpr ⟨⟨p, hp, hen⟩, ?_⟩
  by_cases hopen : ∃ x, (s₁.queues q).maps.view.Touches x r
  · exact .inr hopen
  · have hn : ∀ x, ¬(s₁.queues q).maps.view.Touches x r := fun x ht => hopen ⟨x, ht⟩
    obtain ⟨d, hd⟩ := Option.isSome_iff_exists.mp ((h.enq_of_untouched hn).mp he)
    refine .inl ⟨d, hd, ?_⟩
    by_contra hl
    rw [Bool.not_eq_false] at hl
    obtain ⟨x, td, hm, hf, hr⟩ := h.held r d hd hl
    exact hn x ⟨td, hm, by rw [TxnData.Touches, hf, if_neg Bool.false_ne_true, hr]⟩

theorem read_of_held (h : Handing n q s₁ s₂) (hh : s₂.Held q r) :
    (∃ e ∈ deliveredMsgs (s₁.queues q).maps (s₁.queues q).recs, e.1 = r) ↔
      ∃ p ∈ (s₂.queues q).recs, p.jrec.Enqueues r := by
  obtain ⟨x, hx, ht⟩ := hh
  rw [delivered_iff, and_iff_left (.inr ⟨x, (h.left hx).2.mp ht⟩)]
  exact exists_congr fun p => and_congr_left fun hp => (h.looped.ops q p (isOp_of_op (.inl hp))).symm

theorem nodup_delivered (h : Handing n q s₁ s₂) :
    ((deliveredMsgs (s₁.queues q).maps (s₁.queues q).recs).map fun e => e.1).Nodup := by
  have hn := (h.inv₁.logs.sound q).orderly.nodup
  unfold deliveredMsgs
  rw [List.map_map]
  exact hn.sublist (List.filter_sublist.map _)

end Handing

/-- What the recovery does at a restart, before the loop over the prepared transactions. -/
theorem crash_ok (hs : s.crash n files tplFiles tplKept kept = some s₁) : ∃ rm,
    readTplStore s₁.tpl.maps.tmap ((delivered s₁.tpl.maps s₁.tpl.log.recs).map fun e => .success e.1 e.2) = .ok rm ∧
      (∀ q < n, Jnl.recover files ((s.queues q).log.crash (kept q)) (recoverLockedMappings rm) = some (s₁.queues q)) ∧
      ∀ x, s₁.ctxs x = (rm[x]?).map (recoverCtxt n s₁.queues x) := by
  unfold crash at hs
  simp only at hs
  split at hs
  · cases hs
  · rename_i tm htm
    split at hs
    · cases hs
    · rename_i rm hrm
      split at hs
      · rename_i hall
        cases hs
        refine ⟨rm, hrm, fun q hq => ?_, fun x => rfl⟩
        obtain ⟨j, hj⟩ := Option.isSome_iff_exists.mp (hall q hq)
        simp only [if_pos hq, hj, Option.getD_some]
      · cases hs

theorem fresh_of_run (hrun : (init files tplFiles).run n files tplFiles acts = some s)
    (hacts : ∀ k kept, TxnAct.crash k kept ∉ acts) (q : Nat) : (s.queues q).Fresh := by
  refine run_induct (P := fun s => (s.queues q).Fresh) (Inv.init n files tplFiles) (Jnl.init_fresh files) ?_ hrun
  intro s₁ s₂ a ha hi hf hs
  have hnc : ∀ k kept, a ≠ .crash k kept := fun k kept hk => hacts k kept (hk ▸ ha)
  exact hf.live (hi.logs.sound q).orderly ((lives_of_step hs hnc).queue q)

theorem locks_of_first (hrun : (init files tplFiles).run n files tplFiles acts = some s)
    (hacts : ∀ k kept, TxnAct.crash k kept ∉ acts) (hs : s.crash n files tplFiles tplKept kept = some s₁) {q : Nat}
    (hq : q < n) : (s₁.queues q).maps.view.Locks := by
  have hi := (Inv.init n files tplFiles).run hrun
  obtain ⟨rm, -, hfound, -⟩ := crash_ok hs
  have hpre : placeds ((s.queues q).log.crash (kept q)).recs <+: (s.queues q).recs :=
    ((s.queues q).log.crash_prefix (kept q)).map DataRec.placed
  exact Jnl.recover_locks ((hi.logs.sound q).orderly.of_front hpre)
    ((fresh_of_run hrun hacts q).locks _ hpre) (hfound q hq)

theorem Restart.undivided (hr : Restart n tplKept kept s s₁) (hi : s.Inv n) {q : Nat} (hq : q < n)
    (hlocks : (s₁.queues q).maps.view.Locks) : (s₁.queues q).maps.view.Undivided := fun _ _ _ hx hy =>
  ((hr.inv hi).logs.sound q).touches_unique hlocks
    (fun x hx => Option.isSome_iff_ne_none.mpr fun hn => hx (hr.opn q hq x hn)) hx hy

theorem holdsLocks_of_locks {q : Nat} (hlocks : (s₁.queues q).maps.view.Locks) : s₁.HoldsLocks q := by
  rintro x c - - r ⟨td, hm, he, rfl⟩ d hd
  exact hlocks.holder x td d hm he hd

theorem Restart.handing (hr : Restart n tplKept kept s s₁) (hi : s.Inv n) (hl : Looped s₁ s₂)
    (hcrash : s.crash n files tplFiles tplKept kept = some s₁) (hloop : s₁.run n files tplFiles loop = some s₂)
    {q : Nat} (hq : q < n) (hone : (s₁.queues q).maps.view.Undivided) : Handing n q s₁ s₂ := by
  have hi₁ := hr.inv hi
  obtain ⟨rm, -, hfound, -⟩ := crash_ok hcrash
  have hpre : placeds ((s.queues q).log.crash (kept q)).recs <+: (s.queues q).recs :=
    ((s.queues q).log.crash_prefix (kept q)).map DataRec.placed
  refine ⟨hi₁, hi₁.run hloop, hl, fun p hp => ?_, ?_, hone, fun x hx => ?_⟩
  · exact Jnl.durable_subset _ ((hi₁.keeps hloop).queue q p (hr.found hi.logs q hp))
  · exact Jnl.recover_held ((hi.logs.sound q).orderly.of_front hpre) (hfound q hq)
  · by_contra hn
    rw [Option.not_isSome_iff_eq_none] at hn
    exact hx (hr.opn q hq x hn)

/-- What recovery hands to the broker, in the store after it: the messages, the index of those that
transactions in doubt have operations on, and the list of these with their locked mappings. -/
structure HandedOver (n : Nat) (s : TxnSys) (txns : List PreparedTransaction) (r : RecoveredMsgs) : Prop where
  nodup : r.given.Nodup
  given : ∀ q rid, (q, rid) ∈ r.given ↔
    q < n ∧ (s.queues q).maps.emap.isEnqueued rid true = true ∧ ¬s.Held q rid
  messages : ∀ rid, rid ∈ r.messages ↔ ∃ q < n, s.Held q rid ∧ ∃ p ∈ (s.queues q).recs, p.jrec.Enqueues rid
  listed : ∀ x, s.ctxs x ≠ none → ∃ t ∈ txns, t.xid = x
  locked : ∀ t ∈ txns, s.ctxs t.xid ≠ none → ∀ q rid, t.isLocked q rid = true ↔
    q < n ∧ (s.queues q).maps.view.Touches t.xid rid

section Exact

variable (hrun : (init files tplFiles).run n files tplFiles acts = some s)
  (hcrash : s.step n files tplFiles (.crash tplKept kept) = some s₁)
  (hint : ∀ q < n, ∀ p ∈ s.wrote q, p.jrec.isExternal = false) {reads : Nat → List MsgRead}
  (hreads : ∀ q < n, DeliversMsgs 0 (deliveredMsgs (s₁.queues q).maps (s₁.queues q).recs) (reads q))
  (hloop : s₁.run n files tplFiles loop = some s₂) (hin : ∀ a ∈ loop, inRecovery a = true)
  (hdone : s₂.LoopDone)

include hrun hcrash hint hreads hloop hin hdone

theorem handedOver_of_locks (hone : ∀ q < n, (s₁.queues q).maps.view.Undivided) (hlocks : ∀ q < n, s₁.HoldsLocks q) :
    ∃ rm txns r, readTplStore s₁.tpl.maps.tmap
        ((delivered s₁.tpl.maps s₁.tpl.log.recs).map fun e => .success e.1 e.2) = .ok rm ∧
      recoverQueues (fun q => (s₁.queues q).maps) rm reads (List.range n) (preparedTransactions rm) ⟨[], []⟩ =
        .ok (txns, r) ∧
      s₂.HandedOver n txns r := by
  have hi := (Inv.init n files tplFiles).run hrun
  have hr := hi.crash hcrash
  have hi₁ := hr.inv hi
  obtain ⟨rm, hrm, -, hctxs⟩ := crash_ok hcrash
  have hl := hr.looped hi (fun x hx => asked_of_run hrun hx) hcrash hloop hin hdone
  have hh : ∀ q < n, Handing n q s₁ s₂ := fun q hq => hr.handing hi hl hcrash hloop hq (hone q hq)
  have hext : ∀ q ∈ List.range n, ∀ e ∈ deliveredMsgs (s₁.queues q).maps (s₁.queues q).recs, e.2 = false := by
    intro q hq e he
    obtain ⟨p, hp, rfl⟩ := List.mem_map.mp he
    obtain ⟨hm, hread⟩ := List.mem_filter.mp hp
    obtain ⟨r, hen, -⟩ := (rmgrReads_iff _ p).mp hread
    exact hint q (List.mem_range.mp hq) p (hi.logs.logged q p (hr.recs q hm) (isOp_of_op (.inl hen)))
  have hxs : (preparedTransactions rm).map (·.xid) = recoverLockedMappings rm := by
    simp [preparedTransactions, Function.comp_def]
  obtain ⟨txns, r, hok, hpop, hxs', hg, hm⟩ := recoverQueues_eq (s₂.rightVerdict)
    (fun q hq => hreads q (List.mem_range.mp hq)) hext
    (fun q hq done txns hp hx hqd e he => (hh q (List.mem_range.mp hq)).verdict_eq (hlocks q (List.mem_range.mp hq))
      hctxs hp hx hqd ((delivered_iff _ _ e.1).mp ⟨e, he, rfl⟩).2)
    (populated_nil _ rm) hxs ⟨[], []⟩
  simp only [List.nil_append, List.append_nil] at hg hm hpop
  refine ⟨rm, txns, r, hrm, hok, ?_, fun q rid => ?_, fun rid => ?_, fun x hx => ?_, fun t ht hx q rid => ?_⟩
  · rw [hg]
    exact nodup_collected _ List.nodup_range fun q hq => (hh q (List.mem_range.mp hq)).nodup_delivered
  · rw [hg, mem_collected, List.mem_range, rightVerdict_eq_recover]
    exact and_congr_right fun hq => and_iff_left_of_imp fun he => (hh q hq).read_of_enq he.1
  · rw [hm, mem_indexed]
    simp only [List.mem_range, rightVerdict_eq_inDoubt]
    refine exists_congr fun q => and_congr_right fun hq => and_congr_right fun hheld => ?_
    exact (hh q hq).read_of_held hheld
  · have hfound : s₁.ctxs x ≠ none := by
      intro hn
      by_cases hx' : x = []
      · subst hx'
        obtain ⟨c, hc⟩ := Option.ne_none_iff_exists'.mp hx
        exact ((hi₁.run hloop).logs.nonempty _ c hc).1 rfl
      · exact hx (hl.none x hx' hn).1
    rw [hctxs x, Ne, Option.map_eq_none_iff, ← Ne, ← Option.isSome_iff_ne_none, ← mem_recoverLockedMappings,
      ← hxs'] at hfound
    obtain ⟨t, ht, rfl⟩ := List.mem_map.mp hfound
    exact ⟨t, ht, rfl⟩
  · rw [hpop t ht q rid, List.mem_reverse, List.mem_range]
    exact and_congr_right fun hq => ((hh q hq).left hx).2.symm

/-- The queues are recovered one after the other, and the verdict over each message is made before
the prepared transactions are completed. When the loop over these is done, the broker has been given
just the messages that are enqueued then, each once, and has those of the transactions in doubt: if
no two of the transactions that the restart lists have operations on one record, exactly when the
records are locked that those to be completed dequeue. -/
theorem recoverQueues_exact_iff (hone : ∀ q < n, (s₁.queues q).maps.view.Undivided) :
    (∃ rm txns r, readTplStore s₁.tpl.maps.tmap
        ((delivered s₁.tpl.maps s₁.tpl.log.recs).map fun e => .success e.1 e.2) = .ok rm ∧
      recoverQueues (fun q => (s₁.queues q).maps) rm reads (List.range n) (preparedTransactions rm) ⟨[], []⟩ =
        .ok (txns, r) ∧
      s₂.HandedOver n txns r) ↔ ∀ q < n, s₁.HoldsLocks q := by
  refine ⟨?_, handedOver_of_locks hrun hcrash hint hreads hloop hin hdone hone⟩
  rintro ⟨rm, txns, r, hrm, hok, -⟩ q hq
  have hi := (Inv.init n files tplFiles).run hrun
  have hr := hi.crash hcrash
  have hl := hr.looped hi (fun x hx => asked_of_run hrun hx) hcrash hloop hin hdone
  obtain ⟨rm', hrm', -, hctxs⟩ := crash_ok hcrash
  obtain rfl : rm' = rm := Except.ok.inj (hrm'.symm.trans hrm)
  have hxs : (preparedTransactions rm').map (·.xid) = recoverLockedMappings rm' := by
    simp [preparedTransactions, Function.comp_def]
  obtain ⟨done, txns', hpop, hxs', hqd, hv⟩ := verdict_of_recoverQueues
    (fun q hq => hreads q (List.mem_range.mp hq)) (populated_nil _ rm') hxs hok q (List.mem_range.mpr hq)
  exact (hr.handing hi hl hcrash hloop hq (hone q hq)).holdsLocks_of_verdict hctxs hpop hxs' hqd hv

/-- At the first restart it is so in any case. -/
theorem recoverQueues_exact (hacts : ∀ k kept, TxnAct.crash k kept ∉ acts) :
    ∃ rm txns r, readTplStore s₁.tpl.maps.tmap
        ((delivered s₁.tpl.maps s₁.tpl.log.recs).map fun e => .success e.1 e.2) = .ok rm ∧
      recoverQueues (fun q => (s₁.queues q).maps) rm reads (List.range n) (preparedTransactions rm) ⟨[], []⟩ =
        .ok (txns, r) ∧
      s₂.HandedOver n txns r := by
  have hi := (Inv.init n files tplFiles).run hrun
  have hlocks : ∀ q < n, (s₁.queues q).maps.view.Locks := fun q hq => locks_of_first hrun hacts hcrash hq
  exact handedOver_of_locks hrun hcrash hint hreads hloop hin hdone
    (fun q hq => (hi.crash hcrash).undivided hi hq (hlocks q hq)) fun q hq => holdsLocks_of_locks (hlocks q hq)

end Exact

def handOver : List TxnAct :=
  [.store 0 ⟨⟨.enq 1 [] 1 false false, 0⟩, []⟩, .begin [1] false, .store 0 ⟨⟨.deq 2 1 [1] false, 0⟩, []⟩,
    .store 1 ⟨⟨.enq 3 [1] 1 false false, 0⟩, []⟩, .begin [2] true, .store 1 ⟨⟨.enq 4 [2] 1 false false, 0⟩, []⟩,
    .call [1] true, .returned 1 4, .returned 1 3, .returned 0 2, .tplEnqueue [1] 5 0, .tplEnqueue [2] 6 0,
    .returnedTpl 6, .returnedTpl 5, .prepareSynced [1], .prepareSynced [2], .completed [1] 7 0]

/-- The loop of the recovery completes the first. -/
def handOverLoop : List TxnAct :=
  [.completeSynced [1], .commitTxn [1] 0 8 0, .returned 0 8, .commitTxn [1] 1 9 0, .returned 1 9,
    .commitTxnTpl [1] 10 0]

theorem handOver_looped : ∃ s s₁ s₂ : TxnSys, (init 2 2).run 2 2 2 handOver = some s ∧
    s.step 2 2 2 (.crash 3 fun _ => 0) = some s₁ ∧ s₁.run 2 2 2 handOverLoop = some s₂ ∧ s₂.LoopDone := by
  have hsome : ((init 2 2).run 2 2 2 handOver).isSome := by decide +kernel
  obtain ⟨s, hs⟩ := Option.isSome_iff_exists.mp hsome
  obtain ⟨s₁, hs₁, hr⟩ := ((Inv.init 2 2 2).run hs).crash_isSome 2 2 3 fun _ => 0
  have hloop : (((init 2 2).run 2 2 2 handOver).bind fun s => (s.crash 2 2 2 3 fun _ => 0).bind fun s₁ =>
      (s₁.run 2 2 2 handOverLoop).map fun s₂ => s₂.begun.all fun x => (s₂.ctxs x).all fun c =>
        c.tpc && c.phase = .prepared) = some true := by decide +kernel
  rw [hs, Option.bind_some, hs₁, Option.bind_some] at hloop
  obtain ⟨s₂, hs₂, hall⟩ := Option.map_eq_some_iff.mp hloop
  refine ⟨s, s₁, s₂, hs, hs₁, hs₂, fun x c hc => ?_⟩
  have hx := (((hr.inv ((Inv.init 2 2 2).run hs)).run hs₂).logs.nonempty x c hc).2
  have hxc := List.all_eq_true.mp hall x hx
  simpa [hc] using hxc

theorem handOver_internal (hs : (init 2 2).run 2 2 2 handOver = some s) :
    ∀ q < 2, ∀ p ∈ s.wrote q, p.jrec.isExternal = false := by
  have hext : ((init 2 2).run 2 2 2 handOver).map (fun s => (List.range 2).all fun q =>
      (s.wrote q).all fun p => !p.jrec.isExternal) = some true := by decide +kernel
  rw [hs, Option.map_some, Option.some.injEq] at hext
  intro q hq p hp
  have hq' := List.all_eq_true.mp hext q (List.mem_range.mpr hq)
  simpa using List.all_eq_true.mp hq' p hp

theorem handOver_exact : ∃ s₁ s₂ : TxnSys, ∃ rm txns r, s₁.run 2 2 2 handOverLoop = some s₂ ∧
    readTplStore s₁.tpl.maps.tmap
      ((delivered s₁.tpl.maps s₁.tpl.log.recs).map fun e => .success e.1 e.2) = .ok rm ∧
    recoverQueues (fun q => (s₁.queues q).maps) rm (fun q =>
      (deliveredMsgs (s₁.queues q).maps (s₁.queues q).recs).map fun e => .success e.1 e.2) (List.range 2)
        (preparedTransactions rm) ⟨[], []⟩ = .ok (txns, r) ∧
    s₂.HandedOver 2 txns r := by
  obtain ⟨s, s₁, s₂, hs, hs₁, hs₂, hdone⟩ := handOver_looped
  obtain ⟨rm, txns, r, hrm, hok, hgiven⟩ := recoverQueues_exact hs hs₁ (handOver_internal hs)
    (fun q _ => DeliversMsgs.of_success _ 0) hs₂ (by decide) hdone fun k kept hk => by simp [handOver] at hk
  exact ⟨s₁, s₂, rm, txns, r, hs₂, hrm, hok, hgiven⟩

theorem handOver_exact_iff : ∃ s₁ s₂ : TxnSys, s₁.run 2 2 2 handOverLoop = some s₂ ∧
    ((∃ rm txns r, readTplStore s₁.tpl.maps.tmap
        ((delivered s₁.tpl.maps s₁.tpl.log.recs).map fun e => .success e.1 e.2) = .ok rm ∧
      recoverQueues (fun q => (s₁.queues q).maps) rm (fun q =>
        (deliveredMsgs (s₁.queues q).maps (s₁.queues q).recs).map fun e => .success e.1 e.2) (List.range 2)
          (preparedTransactions rm) ⟨[], []⟩ = .ok (txns, r) ∧
      s₂.HandedOver 2 txns r) ↔ ∀ q < 2, s₁.HoldsLocks q) := by
  obtain ⟨s, s₁, s₂, hs, hs₁, hs₂, hdone⟩ := handOver_looped
  have hi := (Inv.init 2 2 2).run hs
  have hone : ∀ q < 2, (s₁.queues q).maps.view.Undivided := fun q hq =>
    (hi.crash hs₁).undivided hi hq (locks_of_first hs (fun k kept hk => by simp [handOver] at hk) hs₁ hq)
  exact ⟨s₁, s₂, hs₂, recoverQueues_exact_iff hs hs₁ (handOver_internal hs)
    (fun q _ => DeliversMsgs.of_success _ 0) hs₂ (by decide) hdone hone⟩

/-- A dequeue that is discarded at one restart, and at the next one again, when another transaction
has dequeued the message and is prepared. -/
def discardedTwice : List TxnAct :=
  [.store 0 ⟨⟨.enq 1 [] 1 false false, 0⟩, []⟩, .begin [1] false, .store 0 ⟨⟨.deq 2 1 [1] false, 0⟩, []⟩,
    .crash 0 fun _ => 2, .begin [2] false, .store 0 ⟨⟨.deq 3 1 [2] false, 0⟩, []⟩, .call [2] true, .returned 0 3,
    .tplEnqueue [2] 4 0]

/-- What `recoverQueues` gives, when the reader never waits. -/
def recoveredMsgs (n : Nat) (s : TxnSys) : Option (Except MsgErr (List PreparedTransaction × RecoveredMsgs)) :=
  (readTplStore s.tpl.maps.tmap ((delivered s.tpl.maps s.tpl.log.recs).map fun e => .success e.1 e.2)).toOption.map
    fun rm => recoverQueues (fun q => (s.queues q).maps) rm (fun q =>
      (deliveredMsgs (s.queues q).maps (s.queues q).recs).map fun e => .success e.1 e.2) (List.range n)
        (preparedTransactions rm) ⟨[], []⟩

/-- The lock of the second dequeue is gone, and `recoverMessages` asserts it. -/
theorem discardedTwice_not_exact : ∃ s s₁ : TxnSys, (init 2 2).run 1 2 2 discardedTwice = some s ∧
    s.step 1 2 2 (.crash 1 fun _ => 0) = some s₁ ∧ s₁.recoveredMsgs 1 = some (.error .assertFailed) := by
  have hend : (((init 2 2).run 1 2 2 discardedTwice).bind fun s => (s.crash 1 2 2 1 fun _ => 0).bind fun s₁ =>
      s₁.recoveredMsgs 1) = some (.error .assertFailed) := by decide +kernel
  obtain ⟨s, hs, hend⟩ := Option.bind_eq_some_iff.mp hend
  obtain ⟨s₁, hs₁, hend⟩ := Option.bind_eq_some_iff.mp hend
  exact ⟨s, s₁, hs, hs₁, hend⟩

end TxnSys

end RhmStore
