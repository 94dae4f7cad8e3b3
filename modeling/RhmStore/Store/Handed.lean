import RhmStore.Store.Messages
import RhmStore.Store.Asked

/-! # The broker is given what its queues have enqueued -/

namespace RhmStore

open Function Std

def View.Undivided (v : View) : Prop := ∀ x y r, v.Touches x r → v.Touches y r → x = y

/-- The reader returns the records that are enqueued, and those that an open transaction has an
operation on. -/
theorem rmgrReads_iff (m : Maps) (p : Placed) : rmgrReads m p.jrec = true ↔
    ∃ r, p.jrec.Enqueues r ∧ ((∃ d, m.view.enq r = some d ∧ d.lock = false) ∨ ∃ x, m.view.Touches x r) := by
  cases hj : p.jrec with
  | enq rid x d t e =>
    have hiff : rmgrReads m (.enq rid x d t e) = true ↔
        (∃ d, m.view.enq rid = some d ∧ d.lock = false) ∨ ∃ x, m.view.Touches x rid := by
      change _ ↔ (∃ d, m.emap.map[rid]? = some d ∧ d.lock = false) ∨ _
      cases hr : m.emap.map[rid]? with
      | none => simp [rmgrReads, EnqMap.getPfid, hr, isEnq_iff_touches]
      | some d =>
        cases hl : d.lock with
        | true => simp [rmgrReads, EnqMap.getPfid, hr, hl, isEnq_iff_touches]
        | false => simp [rmgrReads, EnqMap.getPfid, hr, hl]
    rw [hiff]
    constructor
    · exact fun h => ⟨rid, ⟨x, d, t, e, rfl⟩, h⟩
    · rintro ⟨r, ⟨x', d', t', e', he⟩, h⟩
      cases he
      exact h
  | deq rid drid x c => simp [rmgrReads, JRec.Enqueues]
  | txa rid x => simp [rmgrReads, JRec.Enqueues]
  | txc rid x => simp [rmgrReads, JRec.Enqueues]

theorem delivered_iff (m : Maps) (log : List Placed) (r : Nat) : (∃ e ∈ deliveredMsgs m log, e.1 = r) ↔
    (∃ p ∈ log, p.jrec.Enqueues r) ∧ ((∃ d, m.view.enq r = some d ∧ d.lock = false) ∨ ∃ x, m.view.Touches x r) := by
  unfold deliveredMsgs
  constructor
  · rintro ⟨e, he, rfl⟩
    obtain ⟨p, hp, rfl⟩ := List.mem_map.mp he
    obtain ⟨hm, hread⟩ := List.mem_filter.mp hp
    obtain ⟨r, hen, hcond⟩ := (rmgrReads_iff m p).mp hread
    obtain rfl := rid_of_enqueues hen
    exact ⟨⟨p, hm, hen⟩, hcond⟩
  · rintro ⟨⟨p, hm, hen⟩, hcond⟩
    have hread := (rmgrReads_iff m p).mpr ⟨r, hen, hcond⟩
    exact ⟨_, List.mem_map_of_mem (List.mem_filter.mpr ⟨hm, hread⟩), rid_of_enqueues hen⟩

/-- The mappings of the queues in `done`. -/
def Populated (maps : Nat → Maps) (done : List Nat) (txns : List PreparedTransaction) : Prop :=
  ∀ t ∈ txns, ∀ q r, t.isLocked q r = true ↔ q ∈ done ∧ (maps q).view.Touches t.xid r

section Populated

variable {maps : Nat → Maps} {done : List Nat} {txns : List PreparedTransaction} {q r : Nat}

theorem isLocked_iff (t : PreparedTransaction) (q r : Nat) :
    t.isLocked q r = true ↔ (q, r) ∈ t.enqueues ∨ (q, r) ∈ t.dequeues := by
  simp [PreparedTransaction.isLocked]

theorem populated_nil (maps : Nat → Maps) (rm : TplRecoverMap) :
    Populated maps [] (preparedTransactions rm) := by
  intro t ht q r
  obtain ⟨x, -, rfl⟩ := List.mem_map.mp ht
  simp [PreparedTransaction.isLocked]

theorem Populated.next (h : Populated maps done txns) (q : Nat) :
    Populated maps (q :: done) (populate q (maps q).tmap txns) := by
  intro t' ht' q' r
  obtain ⟨t, ht, rfl⟩ := List.mem_map.mp ht'
  have hold := h t ht q' r
  rw [isLocked_iff] at hold
  have hnew : ((q', r) ∈ (((maps q).tmap.getTdataList t.xid).filter fun td => td.enqFlag).map (fun td => (q, td.rid)) ∨
      (q', r) ∈ (((maps q).tmap.getTdataList t.xid).filter fun td => !td.enqFlag).map fun td => (q, td.drid)) ↔
      q' = q ∧ (maps q').view.Touches t.xid r := by
    rw [← touches_tmap]
    simp only [List.mem_map, List.mem_filter, Prod.mk.injEq, Bool.not_eq_true']
    constructor
    · rintro (⟨td, ⟨hm, he⟩, rfl, rfl⟩ | ⟨td, ⟨hm, he⟩, rfl, rfl⟩)
      · exact ⟨rfl, td, hm, by simp [TxnData.Touches, he]⟩
      · exact ⟨rfl, td, hm, by simp [TxnData.Touches, he]⟩
    · rintro ⟨rfl, td, hm, ht⟩
      unfold TxnData.Touches at ht
      cases he : td.enqFlag with
      | true =>
        rw [he, if_pos rfl] at ht
        exact .inl ⟨td, ⟨hm, he⟩, rfl, ht⟩
      | false =>
        rw [he, if_neg Bool.false_ne_true] at ht
        exact .inr ⟨td, ⟨hm, he⟩, rfl, ht⟩
  rw [isLocked_iff]
  simp only [List.mem_append, List.mem_cons]
  rw [or_or_or_comm, hold, hnew]
  tauto

theorem xids_populate (q : Nat) (tmap : TxnMap) (txns : List PreparedTransaction) :
    (populate q tmap txns).map (·.xid) = txns.map (·.xid) := by
  simp [populate, Function.comp_def]

theorem verdict_untouched (h : Populated maps done txns) (rm : TplRecoverMap)
    (hn : ∀ t ∈ txns, ¬(maps q).view.Touches t.xid r) : verdict (maps q) rm txns q r = .ok .recover := by
  have hnone : PreparedTransaction.getLockedPreparedTransaction txns q r = none := by
    refine List.find?_eq_none.mpr fun t ht hl => ?_
    exact hn t ht ((h t ht q r).mp hl).2
  unfold verdict
  rw [hnone]

theorem getLocked_touched (h : Populated maps done txns) (hq : q ∈ done) {x : Xid}
    (hx : x ∈ txns.map (·.xid)) (ht : (maps q).view.Touches x r)
    (hone : ∀ y, (maps q).view.Touches y r → y = x) :
    ∃ t, PreparedTransaction.getLockedPreparedTransaction txns q r = some t ∧ t.xid = x := by
  obtain ⟨t, htm, rfl⟩ := List.mem_map.mp hx
  have hlocked : t.isLocked q r = true := (h t htm q r).mpr ⟨hq, ht⟩
  cases hf : PreparedTransaction.getLockedPreparedTransaction txns q r with
  | none => exact absurd hlocked (List.find?_eq_none.mp hf t htm)
  | some t' =>
    refine ⟨t', rfl, hone _ ?_⟩
    have hl := List.find?_some hf
    exact ((h t' (List.mem_of_find?_eq_some hf) q r).mp hl).2

end Populated

theorem touches_entry {p : Placed} {x : Xid} {r : Nat} (hx : x ≠ []) :
    (∃ td ∈ p.entry x, td.Touches r) ↔ p.jrec.xid = x ∧ (p.jrec.Enqueues r ∨ p.jrec.Dequeues r) := by
  constructor
  · rintro ⟨td, hm, ht⟩
    have hent := mem_entry hm
    refine ⟨hent.2.1, ?_⟩
    unfold TxnData.Touches at ht
    cases he : td.enqFlag with
    | true =>
      rw [he, if_pos rfl] at ht
      obtain ⟨d, t, e, hj⟩ := hent.2.2.2.2.1 he
      exact .inl ⟨x, d, t, e, ht ▸ hj⟩
    | false =>
      rw [he, if_neg Bool.false_ne_true] at ht
      obtain ⟨c, hj⟩ := hent.2.2.2.2.2.1 he
      exact .inr ⟨td.rid, x, c, ht ▸ hj⟩
  · rintro ⟨rfl, he | hd⟩
    · obtain ⟨td, hm, hf, hr⟩ := entry_of_enqueues he hx
      exact ⟨td, hm, by rw [TxnData.Touches, hf, if_pos rfl, hr]⟩
    · obtain ⟨td, hm, hf, hr⟩ := entry_of_dequeues hd hx
      exact ⟨td, hm, by rw [TxnData.Touches, hf, if_neg Bool.false_ne_true, hr]⟩

namespace Jnl

variable {j : Jnl} {live : Xid → Prop} {x y : Xid} {r : Nat}

theorem Sound.touches_iff (h : j.Sound live) (hx : x ≠ []) (hl : live x) (hu : Unclosed x j.recs) :
    j.maps.view.Touches x r ↔ ∃ p ∈ j.recs, p.jrec.xid = x ∧ (p.jrec.Enqueues r ∨ p.jrec.Dequeues r) := by
  have hmem : j.maps.view.Touches x r ↔ ∃ p ∈ j.recs, ∃ td ∈ p.entry x, td.Touches r := by
    unfold View.Touches
    rw [h.opn x hl]
    constructor
    · rintro ⟨td, hm, ht⟩
      obtain ⟨p, hp, hpe⟩ := (mem_openEntries_of_unclosed hu).mp hm
      exact ⟨p, hp, td, hpe, ht⟩
    · rintro ⟨p, hp, td, hpe, ht⟩
      exact ⟨td, (mem_openEntries_of_unclosed hu).mpr ⟨p, hp, hpe⟩, ht⟩
  rw [hmem]
  exact exists_congr fun p => and_congr_right fun _ => touches_entry hx

theorem Sound.of_touches (h : j.Sound live) (hl : live x) (ht : j.maps.view.Touches x r) :
    x ≠ [] ∧ Unclosed x j.recs := by
  obtain ⟨td, hm, -⟩ := ht
  rw [h.opn x hl] at hm
  obtain ⟨p, hp, hpe⟩ := mem_openEntries hm
  have hx := (mem_entry hpe).2.2.2.1
  exact ⟨hx, h.orderly.unclosed hx (List.ne_nil_of_mem hm)⟩

/-- What an open transaction has enqueued is not enqueued yet. -/
theorem Sound.enq_of_open (h : j.Sound live) {td : TxnData} (hl : live x) (hm : td ∈ j.maps.view.opn x) :
    j.maps.view.enq td.rid = none := by
  by_contra hne
  have hs : (j.maps.view.enq td.rid).isSome := Option.isSome_iff_ne_none.mpr hne
  rw [h.enq td.rid] at hs
  obtain ⟨⟨p, hp, hpe, hcnt⟩, -⟩ := (h.orderly.content.enq td.rid).mp hs
  rw [h.opn x hl] at hm
  obtain ⟨p', hp', hpe'⟩ := mem_openEntries hm
  have hent := mem_entry hpe'
  have heq : p = p' := nodup_rids_eq h.orderly.nodup hp hp' (by rw [rid_of_enqueues hpe, hent.1])
  subst heq
  rcases hcnt with hnil | hcom
  · exact hent.2.2.2.1 (hent.2.1.symm.trans hnil)
  · rw [hent.2.1] at hcom
    exact (h.orderly.unclosed hent.2.2.2.1 (List.ne_nil_of_mem hm)).not_commits hcom

theorem Sound.touches_unique (h : j.Sound live) (hlocks : j.maps.view.Locks)
    (hlive : ∀ x, j.maps.view.opn x ≠ [] → live x) (hx : j.maps.view.Touches x r)
    (hy : j.maps.view.Touches y r) : x = y := by
  have hopen : ∀ {z td}, td ∈ j.maps.view.opn z → td ∈ openEntries z j.recs := by
    intro z td hm
    rwa [← h.opn z (hlive z (List.ne_nil_of_mem hm))]
  -- an operation with the record's own rid, unless the record is enqueued
  have hown : ∀ {z}, j.maps.view.Touches z r → (j.maps.view.enq r).isSome ∨
      ∃ td ∈ j.maps.view.opn z, td.rid = r := by
    rintro z ⟨td, hm, ht⟩
    unfold TxnData.Touches at ht
    cases he : td.enqFlag with
    | true =>
      rw [he, if_pos rfl] at ht
      exact .inr ⟨td, hm, ht⟩
    | false =>
      rw [he, if_neg Bool.false_ne_true] at ht
      subst ht
      exact hlocks.target z td hm he
  by_cases hs : (j.maps.view.enq r).isSome
  · -- then both are dequeues
    have hdeq : ∀ {z}, j.maps.view.Touches z r → ∃ td ∈ j.maps.view.opn z, td.enqFlag = false ∧ td.drid = r := by
      rintro z ⟨td, hm, ht⟩
      unfold TxnData.Touches at ht
      cases he : td.enqFlag with
      | true =>
        rw [he, if_pos rfl] at ht
        have hno := h.enq_of_open (hlive z (List.ne_nil_of_mem hm)) hm
        rw [ht] at hno
        rw [hno] at hs
        cases hs
      | false =>
        rw [he, if_neg Bool.false_ne_true] at ht
        exact ⟨td, hm, he, ht⟩
    obtain ⟨td, hm, he, hr⟩ := hdeq hx
    obtain ⟨td', hm', he', hr'⟩ := hdeq hy
    exact (hlocks.unique x y td td' hm hm' he he' (hr.trans hr'.symm) (hr ▸ hs)).1
  · obtain ⟨td, hm, hr⟩ := (hown hx).resolve_left hs
    obtain ⟨td', hm', hr'⟩ := (hown hy).resolve_left hs
    exact (openEntries_inj h.orderly.nodup (hopen hm) (hopen hm') (hr.trans hr'.symm)).1

end Jnl

namespace TxnSys

variable {n files tplFiles tplKept : Nat} {kept : Nat → Nat} {s s₁ s₂ : TxnSys} {x : Xid}
  {acts loop : List TxnAct}

/-- The steps of the loop over the prepared transactions at the end of `recover`. -/
def inRecovery : TxnAct → Bool
  | .completed _ _ _ => true
  | .completeSynced _ => true
  | .commitTxn _ _ _ _ => true
  | .commitTxnTpl _ _ _ => true
  | .returned _ _ => true
  | .returnedTpl _ => true
  | _ => false

/-- The loop is done: only two-phase transactions are left that wait for their outcome. -/
def LoopDone (s : TxnSys) : Prop := ∀ x c, s.ctxs x = some c → c.tpc = true ∧ c.phase = .prepared

structure Looped (s₁ s₂ : TxnSys) : Prop where
  ops : ∀ q p, p.jrec.isOp = true → (p ∈ (s₂.queues q).recs ↔ p ∈ (s₁.queues q).recs)
  told : ∀ x c b, s₁.ctxs x = some c → c.commit = some b → Decides x b s₂.tpl.recs ∧ s₂.ctxs x = none
  waits : ∀ x c, s₁.ctxs x = some c → c.commit = none → s₂.InDoubt x
  none : ∀ x, x ≠ [] → s₁.ctxs x = none → s₂.ctxs x = none ∧
    ∀ q, Commits x (s₂.queues q).recs ↔ Commits x (s₁.queues q).recs

theorem ops_of_step {a : TxnAct} (ha : inRecovery a = true) (hs : s.step n files tplFiles a = some s₁) (q : Nat)
    (p : Placed) (hp : p.jrec.isOp = true) : p ∈ (s₁.queues q).recs ↔ p ∈ (s.queues q).recs := by
  cases a with
  | completed y rid fid =>
    obtain ⟨c, b, -, -, ⟨erid, j, -, -, -, rfl⟩ | ⟨-, -, -, rfl⟩⟩ := completed_ok hs
    · rfl
    · rfl
  | completeSynced y =>
    obtain ⟨c, s₀, -, -, hsync, rfl⟩ := completeSynced_ok hs
    exact iff_of_eq (congrArg (p ∈ ·) (hsync.recs q))
  | commitTxn y q' rid fid =>
    simp only [TxnSys.step] at hs
    split at hs
    · obtain ⟨c, todo, b, s₀, j, -, -, -, -, hsync, hw, rfl⟩ := commitTxn_ok hs
      rw [← hsync.recs]
      by_cases hq : q = q'
      · subst hq
        have hrecs := Jnl.recs_write hw
        simp only [setCtx, setQueue, update_self]
        rw [hrecs, List.mem_append, List.mem_singleton, or_iff_left]
        intro hpw
        have hno := isOp_close b rid y
        rw [hpw] at hp
        exact Bool.false_ne_true (hno.symm.trans hp)
      · simp only [setCtx, setQueue, update_of_ne hq]
    · cases hs
  | commitTxnTpl y rid fid =>
    obtain ⟨c, b, s₀, -, -, -, hsync, ⟨j, -, -, rfl⟩ | ⟨-, rfl⟩⟩ := commitTxnTpl_ok hs
    · exact iff_of_eq (congrArg (p ∈ ·) (hsync.recs q))
    · exact iff_of_eq (congrArg (p ∈ ·) (hsync.recs q))
  | returned q' rid =>
    obtain rfl := returned_ok hs
    rw [recs_returned]
  | returnedTpl rid =>
    obtain rfl := returnedTpl_ok hs
    rfl
  | begin y tpc => cases ha
  | store q' w => cases ha
  | call y b => cases ha
  | drop y => cases ha
  | tplEnqueue y rid fid => cases ha
  | prepareSynced y => cases ha
  | crash k kept => cases ha

theorem none_of_step {a : TxnAct} (ha : inRecovery a = true) (hs : s.step n files tplFiles a = some s₁)
    (hx : x ≠ []) (hn : s.ctxs x = none) : s₁.ctxs x = none ∧
      ∀ q, Commits x (s₁.queues q).recs ↔ Commits x (s.queues q).recs := by
  have hsub : subject a ≠ some x := by
    intro hsub
    rcases ctxt_of_step hs hx hsub with ⟨tpc, rfl⟩ | hne
    · cases ha
    · exact hne hn
  have hsame := SameFor.of_step hs hsub fun k kept hk => by rw [hk] at ha; cases ha
  exact ⟨hsame.ctxt.trans hn, fun q => ⟨Commits.mono (hsame.back q), Commits.mono (hsame.forth q)⟩⟩

theorem Restart.looped (hr : Restart n tplKept kept s s₁) (hi : s.Inv n) (hx : ∀ x, x ≠ [] → s.Asked x)
    (hcrash : s.step n files tplFiles (.crash tplKept kept) = some s₁)
    (hloop : s₁.run n files tplFiles loop = some s₂) (hacts : ∀ a ∈ loop, inRecovery a = true)
    (hdone : s₂.LoopDone) : Looped s₁ s₂ := by
  have hi₁ := hr.inv hi
  have hi₂ := hi₁.run hloop
  have hk := hi₁.keeps hloop
  refine ⟨fun q p hp => ?_, fun x c b hc hb => ?_, fun x c hc hb => ?_, fun x hne hn => ?_⟩
  · refine run_induct (P := fun s => p ∈ (s.queues q).recs ↔ p ∈ (s₁.queues q).recs) hi₁ Iff.rfl ?_ hloop
    intro s₃ s₄ a ha _ hold hs
    exact (ops_of_step (hacts a ha) hs q p hp).trans hold
  · obtain ⟨hne, hprep⟩ := hr.prepares_of_ctxt hi.logs (by rw [hc]; exact Option.some_ne_none c)
    have hctx := hr.ctxs x
    rw [hc] at hctx
    have honce₂ := hi₂.logs.once
    -- where it stands after the loop, if not at its end
    have hstill : ∀ c₂, s₂.ctxs x = some c₂ → ∃ rid, tplState x s₂.tpl.log.recs = .enqueued rid true := by
      intro c₂ hc₂
      obtain ⟨htpc, hp⟩ := hdone x c₂ hc₂
      exact (hi₂.enqueued_iff x true).mpr ⟨c₂, hc₂, htpc, .inr hp⟩
    cases hst : tplState x s₁.tpl.log.recs with
    | absent =>
      rw [hst] at hctx
      cases hctx
    | enqueued rid tpc =>
      rw [hst] at hctx
      obtain rfl := Option.some.inj hctx
      have htpc : tpc = false := by
        cases tpc with
        | false => rfl
        | true => cases hb
      subst htpc
      have hbt : b = true := (Option.some.inj hb).symm
      subst hbt
      have hrolled : x ∈ s₁.rolled := (hr.rolled x).mpr (.inr ⟨rid, hst⟩)
      have hasked : s₂.Asked x ∧ x ∈ s₂.rolled := by
        refine run_induct (P := fun s => s.Asked x ∧ x ∈ s.rolled) hi₁
          ⟨hi.asked_step hne (hx x hne) hcrash, hrolled⟩ ?_ hloop
        intro s₃ s₄ a ha hi₃ hP hs
        refine ⟨hi₃.asked_step hne hP.1 hs, ?_⟩
        rw [(hi₃.notes hs).rolled fun k kept hk => by
          have := hacts a ha
          rw [hk] at this
          cases this]
        exact hP.2
      obtain ⟨hp₂, hf₂, hl₂, -⟩ := hasked.1.rolled hasked.2
      have hnone : s₂.ctxs x = none := by
        by_contra hsome
        obtain ⟨c₂, hc₂⟩ := Option.ne_none_iff_exists'.mp hsome
        obtain ⟨rid₂, hst₂⟩ := hstill c₂ hc₂
        have hfalse : true = false :=
          hl₂.tpcFlag honce₂ (t := ⟨rid₂, false, true, true⟩) (by rw [hst₂]; rfl)
        cases hfalse
      refine ⟨?_, hnone⟩
      have hfit := honce₂.fits x
      rw [(hi₂.xids x hne).gone hnone] at hfit
      rcases hfit with hun | ⟨-, b, hdec, -⟩
      · exact absurd (hp₂.mono fun _ _ hm => Jnl.durable_subset _ hm) (not_prepares_of_unnamed hun)
      · cases b with
        | true => exact (hdec true).mpr rfl
        | false => exact absurd ((hdec false).mpr rfl) hf₂
    | dequeued rid tpc b' =>
      rw [hst] at hctx
      obtain rfl := Option.some.inj hctx
      obtain rfl : b' = b := Option.some.inj hb
      have hfit := (hr.once hi.logs).fits x
      rw [hst] at hfit
      have hd₁ : Decides x b' s₁.tpl.recs := (hfit.2.1 b').mpr rfl
      rw [← hr.tplFound] at hd₁
      have hd₂ : Decides x b' s₂.tpl.recs := hd₁.mono fun p _ hm => Jnl.durable_subset _ (hk.tpl p hm)
      refine ⟨hd₂, ?_⟩
      by_contra hsome
      obtain ⟨c₂, hc₂⟩ := Option.ne_none_iff_exists'.mp hsome
      obtain ⟨rid₂, hst₂⟩ := hstill c₂ hc₂
      have hfit₂ := honce₂.fits x
      rw [hst₂] at hfit₂
      exact hfit₂.2.1 b' hd₂
  · obtain ⟨hne, hprep⟩ := hr.prepares_of_ctxt hi.logs (by rw [hc]; exact Option.some_ne_none c)
    have hctx := hr.ctxs x
    rw [hc] at hctx
    obtain ⟨t, -, rfl⟩ := Option.map_eq_some_iff.mp hctx.symm
    have hd₁ : s₁.InDoubt x := by
      refine ⟨⟨_, hc, ?_⟩, hr.tplFound ▸ hprep⟩
      unfold recoverCtxt at hb ⊢
      cases hdf : t.deqFlag with
      | true => simp [hdf] at hb
      | false =>
        cases htf : t.tpcFlag with
        | true => simp
        | false => simp [hdf, htf] at hb
    refine hd₁.run hi₁ hloop fun b hb => ?_
    cases hacts _ hb
  · refine run_induct (P := fun s => s.ctxs x = none ∧ ∀ q, Commits x (s.queues q).recs ↔ Commits x (s₁.queues q).recs)
      hi₁ ⟨hn, fun _ => Iff.rfl⟩ ?_ hloop
    intro s₃ s₄ a ha _ hP hs
    obtain ⟨hc, hcom⟩ := none_of_step (hacts a ha) hs hne hP.1
    exact ⟨hc, fun q => (hcom q).trans (hP.2 q)⟩

/-- A queue at a restart, when its messages are read, and when the recovery is done. -/
structure Handing (n q : Nat) (s₁ s₂ : TxnSys) : Prop where
  inv₁ : s₁.Inv n
  inv₂ : s₂.Inv n
  looped : Looped s₁ s₂
  stays : ∀ p ∈ (s₁.queues q).recs, p ∈ (s₂.queues q).recs
  held : (s₁.queues q).maps.view.Held
  undivided : (s₁.queues q).maps.view.Undivided
  live : ∀ x, (s₁.queues q).maps.view.opn x ≠ [] → (s₁.ctxs x).isSome

theorem isOp_of_op {p : Placed} {r : Nat} (h : p.jrec.Enqueues r ∨ p.jrec.Dequeues r) : p.jrec.isOp = true := by
  rcases h with ⟨x, d, t, e, hj⟩ | ⟨rid, x, c, hj⟩
  · rw [hj]
    rfl
  · rw [hj]
    rfl

namespace Handing

variable {q r : Nat} {p : Placed} {c : TxnCtxt}

theorem live_of_touches (h : Handing n q s₁ s₂) (ht : (s₁.queues q).maps.view.Touches x r) :
    (s₁.ctxs x).isSome := by
  obtain ⟨td, hm, -⟩ := ht
  exact h.live x (List.ne_nil_of_mem hm)

theorem one (h : Handing n q s₁ s₂) {y : Xid} (hx : (s₁.queues q).maps.view.Touches x r)
    (hy : (s₁.queues q).maps.view.Touches y r) : y = x := h.undivided y x r hy hx

theorem counts_of_closed (h : Handing n q s₁ s₂) (hp : p ∈ (s₁.queues q).recs)
    (hop : p.jrec.Enqueues r ∨ p.jrec.Dequeues r) (hn : ¬(s₁.queues q).maps.view.Touches p.jrec.xid r) :
    Counts (s₂.queues q).recs p ↔ Counts (s₁.queues q).recs p := by
  by_cases hx : p.jrec.xid = []
  · exact iff_of_true (.inl hx) (.inl hx)
  · refine or_congr Iff.rfl ⟨fun hcom => ?_, fun hcom => hcom.mono fun _ _ hm => h.stays _ hm⟩
    cases hc : s₁.ctxs p.jrec.xid with
    | none => exact ((h.looped.none _ hx hc).2 q).mp hcom
    | some c =>
      by_contra hno
      have hsome : (s₁.ctxs p.jrec.xid).isSome := by
        rw [hc]
        rfl
      have hab : Aborts p.jrec.xid (s₁.queues q).recs := by
        by_contra hna
        exact hn (((h.inv₁.logs.sound q).touches_iff hx hsome (unclosed_iff.mpr ⟨hno, hna⟩)).mpr ⟨p, hp, rfl, hop⟩)
      have hok := h.inv₂.xids _ hx
      have hdt := (hok.commits q hcom).mono fun _ _ hm => Jnl.durable_subset _ hm
      rcases hok.aborts q (hab.mono fun _ _ hm => h.stays _ hm) with hd | hnp
      · have hdf := hd.mono fun _ _ hm => Jnl.durable_subset _ hm
        exact absurd (h.inv₂.logs.once.decides_unique hdt hdf) (by decide)
      · exact hnp (h.inv₂.logs.once.prepares_of_decides hdt)

theorem counts_of_open (h : Handing n q s₁ s₂) (hp : p ∈ (s₁.queues q).recs)
    (hop : p.jrec.Enqueues r ∨ p.jrec.Dequeues r) (ht : (s₁.queues q).maps.view.Touches p.jrec.xid r)
    (hc : s₁.ctxs p.jrec.xid = some c) :
    ¬Counts (s₁.queues q).recs p ∧ (Counts (s₂.queues q).recs p ↔ c.commit = some true) := by
  have hsome : (s₁.ctxs p.jrec.xid).isSome := by
    rw [hc]
    rfl
  obtain ⟨hx, hun⟩ := (h.inv₁.logs.sound q).of_touches hsome ht
  refine ⟨fun hcnt => hcnt.elim hx hun.not_commits, ?_⟩
  have hcnt : Counts (s₂.queues q).recs p ↔ Commits p.jrec.xid (s₂.queues q).recs := or_iff_right hx
  rw [hcnt]
  cases hcom : c.commit with
  | none =>
    refine iff_of_false (fun hcm => ?_) (by simp)
    obtain ⟨c₂, hc₂, -, hp₂, -⟩ := (h.looped.waits _ c hc hcom).ctxt
    have hph := ((h.inv₂.xids _ hx).ctxt c₂ hc₂).phase
    unfold PhaseOk at hph
    simp only [hp₂] at hph
    exact (hph.2 q).not_commits hcm
  | some b =>
    obtain ⟨hd, hnone⟩ := h.looped.told _ c b hc hcom
    cases b with
    | true =>
      refine iff_of_true ?_ rfl
      have hw := h.inv₂.logs.logged q p (h.stays p hp) (isOp_of_op hop)
      exact (h.inv₂.committed_of_decides hd hnone q hw rfl).2.mono fun _ _ hm => Jnl.durable_subset _ hm
    | false =>
      refine iff_of_false (fun hcm => ?_) (by simp)
      have hdt := ((h.inv₂.xids _ hx).commits q hcm).mono fun _ _ hm => Jnl.durable_subset _ hm
      exact absurd (h.inv₂.logs.once.decides_unique hdt hd) (by decide)

/-- What is enqueued after the recovery, by the operations that were there before it. -/
theorem isEnqueued_after (h : Handing n q s₁ s₂) (r : Nat) : (s₂.queues q).maps.emap.isEnqueued r true = true ↔
    (∃ p ∈ (s₁.queues q).recs, p.jrec.Enqueues r ∧ Counts (s₂.queues q).recs p) ∧
      ¬∃ p ∈ (s₁.queues q).recs, p.jrec.Dequeues r ∧ Counts (s₂.queues q).recs p := by
  have hs := h.inv₂.logs.sound q
  have hiff : ∀ P : Placed → Prop, (∀ p, P p → p.jrec.Enqueues r ∨ p.jrec.Dequeues r) →
      ((∃ p ∈ (s₂.queues q).recs, P p ∧ Counts (s₂.queues q).recs p) ↔
        ∃ p ∈ (s₁.queues q).recs, P p ∧ Counts (s₂.queues q).recs p) := by
    intro P hP
    refine exists_congr fun p => and_congr_left fun hp => ?_
    exact h.looped.ops q p (isOp_of_op (hP p hp.1))
  rw [isEnqueued_iff_view, hs.enq r, hs.orderly.content.enq r, hiff _ fun _ => Or.inl, hiff _ fun _ => Or.inr]

/-- A transaction that is left waits, and has its open operations as before. -/
theorem left (h : Handing n q s₁ s₂) (hx : s₂.ctxs x ≠ none) :
    (∃ c, s₁.ctxs x = some c ∧ c.commit = none) ∧
      ((s₂.queues q).maps.view.Touches x r ↔ (s₁.queues q).maps.view.Touches x r) := by
  obtain ⟨c₂, hc₂⟩ := Option.ne_none_iff_exists'.mp hx
  have hne := (h.inv₂.logs.nonempty x c₂ hc₂).1
  have hfound : ∃ c, s₁.ctxs x = some c ∧ c.commit = none := by
    cases hc : s₁.ctxs x with
    | none => exact absurd (h.looped.none x hne hc).1 hx
    | some c =>
      cases hcom : c.commit with
      | none => exact ⟨c, rfl, hcom⟩
      | some b => exact absurd (h.looped.told x c b hc hcom).2 hx
  refine ⟨hfound, ?_⟩
  obtain ⟨c, hc, hcom⟩ := hfound
  obtain ⟨c₃, hc₃, -, hp₃, -⟩ := (h.looped.waits x c hc hcom).ctxt
  have hph := ((h.inv₂.xids x hne).ctxt c₃ hc₃).phase
  unfold PhaseOk at hph
  simp only [hp₃] at hph
  have hun₁ : Unclosed x (s₁.queues q).recs := (hph.2 q).mono fun p _ hm => h.stays p hm
  rw [(h.inv₂.logs.sound q).touches_iff hne (by rw [hc₃]; rfl) (hph.2 q),
    (h.inv₁.logs.sound q).touches_iff hne (by rw [hc]; rfl) hun₁]
  refine exists_congr fun p => and_congr_left fun hp => ?_
  exact h.looped.ops q p (isOp_of_op hp.2)

theorem enq_of_untouched (h : Handing n q s₁ s₂) (hn : ∀ x, ¬(s₁.queues q).maps.view.Touches x r) :
    (s₂.queues q).maps.emap.isEnqueued r true = true ↔ ((s₁.queues q).maps.view.enq r).isSome := by
  have hs := h.inv₁.logs.sound q
  have hiff : ∀ P : Placed → Prop, (∀ p, P p → p.jrec.Enqueues r ∨ p.jrec.Dequeues r) →
      ((∃ p ∈ (s₁.queues q).recs, P p ∧ Counts (s₂.queues q).recs p) ↔
        ∃ p ∈ (s₁.queues q).recs, P p ∧ Counts (s₁.queues q).recs p) := by
    intro P hP
    refine exists_congr fun p => and_congr_right fun hm => and_congr_right fun hp => ?_
    exact h.counts_of_closed hm (hP p hp) (hn _)
  rw [h.isEnqueued_after, hs.enq r, hs.orderly.content.enq r, hiff _ fun _ => Or.inl, hiff _ fun _ => Or.inr]

theorem enq_of_dequeued (h : Handing n q s₁ s₂) (hc : s₁.ctxs x = some c)
    (ht : (s₁.queues q).maps.view.Touches x r) (hs : ((s₁.queues q).maps.view.enq r).isSome) :
    (View.Dequeues ((s₁.queues q).maps.view.opn x) r) ∧
      ((s₂.queues q).maps.emap.isEnqueued r true = true ↔ c.commit ≠ some true) := by
  have hsnd := h.inv₁.logs.sound q
  have hsome : (s₁.ctxs x).isSome := by
    rw [hc]
    rfl
  obtain ⟨hx, hun⟩ := hsnd.of_touches hsome ht
  obtain ⟨td, hm, htd⟩ := ht
  have hdeq : td.enqFlag = false ∧ td.drid = r := by
    unfold TxnData.Touches at htd
    cases he : td.enqFlag with
    | true =>
      rw [he, if_pos rfl] at htd
      have hno := hsnd.enq_of_open hsome hm
      rw [htd] at hno
      rw [hno] at hs
      cases hs
    | false =>
      rw [he, if_neg Bool.false_ne_true] at htd
      exact ⟨rfl, htd⟩
  have ht : (s₁.queues q).maps.view.Touches x r := ⟨td, hm, htd⟩
  refine ⟨⟨td, hm, hdeq⟩, ?_⟩
  obtain ⟨⟨pe, hpe, hen, hcnt⟩, hnd⟩ := (hsnd.orderly.content.enq r).mp (hsnd.enq r ▸ hs)
  -- the operations of `x` do not count yet, those of others are settled
  have hclosed : ∀ p ∈ (s₁.queues q).recs, p.jrec.Enqueues r ∨ p.jrec.Dequeues r → p.jrec.xid ≠ x →
      (Counts (s₂.queues q).recs p ↔ Counts (s₁.queues q).recs p) := fun p hp hop hne =>
    h.counts_of_closed hp hop fun hy => hne (h.one ht hy)
  have hpx : pe.jrec.xid ≠ x := by
    rintro rfl
    exact (h.counts_of_open hpe (.inl hen) ht hc).1 hcnt
  have hmo := hm
  rw [hsnd.opn x hsome] at hmo
  obtain ⟨pd, hpd, hent⟩ := mem_openEntries hmo
  have hpdx := (mem_entry hent).2.1
  obtain ⟨cf, hpdj⟩ := (mem_entry hent).2.2.2.2.2.1 hdeq.1
  have hpdd : pd.jrec.Dequeues r := ⟨td.rid, x, cf, hdeq.2 ▸ hpdj⟩
  rw [h.isEnqueued_after]
  constructor
  · rintro ⟨-, hno⟩ hcom
    subst hpdx
    exact hno ⟨pd, hpd, hpdd, (h.counts_of_open hpd (.inr hpdd) ht hc).2.mpr hcom⟩
  · intro hcom
    refine ⟨⟨pe, hpe, hen, (hclosed pe hpe (.inl hen) hpx).mpr hcnt⟩, ?_⟩
    rintro ⟨p, hp, hd, hcp⟩
    by_cases hpx' : p.jrec.xid = x
    · subst hpx'
      exact hcom ((h.counts_of_open hp (.inr hd) ht hc).2.mp hcp)
    · exact hnd ⟨p, hp, hd, (hclosed p hp (.inr hd) hpx').mp hcp⟩

/-- A record that is not enqueued at the restart, and an open transaction has operations on it. -/
theorem enq_of_open (h : Handing n q s₁ s₂) (hc : s₁.ctxs x = some c)
    (ht : (s₁.queues q).maps.view.Touches x r) (hs : ¬((s₁.queues q).maps.view.enq r).isSome) :
    (s₂.queues q).maps.emap.isEnqueued r true = true ↔ c.commit = some true ∧
      (∃ td ∈ (s₁.queues q).maps.view.opn x, td.enqFlag = true ∧ td.rid = r) ∧
        ¬∃ td ∈ (s₁.queues q).maps.view.opn x, td.enqFlag = false ∧ td.drid = r := by
  have hsnd := h.inv₁.logs.sound q
  have hsome : (s₁.ctxs x).isSome := by
    rw [hc]
    rfl
  obtain ⟨hx, hun⟩ := hsnd.of_touches hsome ht
  have hmem : ∀ td, td ∈ (s₁.queues q).maps.view.opn x ↔ ∃ p ∈ (s₁.queues q).recs, td ∈ p.entry x := by
    intro td
    rw [hsnd.opn x hsome]
    exact mem_openEntries_of_unclosed hun
  have henq : (∃ td ∈ (s₁.queues q).maps.view.opn x, td.enqFlag = true ∧ td.rid = r) ↔
      ∃ p ∈ (s₁.queues q).recs, p.jrec.xid = x ∧ p.jrec.Enqueues r := by
    constructor
    · rintro ⟨td, hm, he, rfl⟩
      obtain ⟨p, hp, hent⟩ := (hmem td).mp hm
      obtain ⟨d, t, e, hj⟩ := (mem_entry hent).2.2.2.2.1 he
      exact ⟨p, hp, (mem_entry hent).2.1, x, d, t, e, hj⟩
    · rintro ⟨p, hp, rfl, he⟩
      obtain ⟨td, hm, hf, hr⟩ := entry_of_enqueues he hx
      exact ⟨td, (hmem td).mpr ⟨p, hp, hm⟩, hf, hr⟩
  have hdeq : (∃ td ∈ (s₁.queues q).maps.view.opn x, td.enqFlag = false ∧ td.drid = r) ↔
      ∃ p ∈ (s₁.queues q).recs, p.jrec.xid = x ∧ p.jrec.Dequeues r := by
    constructor
    · rintro ⟨td, hm, he, rfl⟩
      obtain ⟨p, hp, hent⟩ := (hmem td).mp hm
      obtain ⟨cf, hj⟩ := (mem_entry hent).2.2.2.2.2.1 he
      exact ⟨p, hp, (mem_entry hent).2.1, td.rid, x, cf, hj⟩
    · rintro ⟨p, hp, rfl, hd⟩
      obtain ⟨td, hm, hf, hr⟩ := entry_of_dequeues hd hx
      exact ⟨td, (hmem td).mpr ⟨p, hp, hm⟩, hf, hr⟩
  have hclosed : ∀ p ∈ (s₁.queues q).recs, p.jrec.Enqueues r ∨ p.jrec.Dequeues r → p.jrec.xid ≠ x →
      (Counts (s₂.queues q).recs p ↔ Counts (s₁.queues q).recs p) := fun p hp hop hne =>
    h.counts_of_closed hp hop fun hy => hne (h.one ht hy)
  rw [henq, hdeq, h.isEnqueued_after]
  constructor
  · rintro ⟨⟨p, hp, he, hcnt⟩, hno⟩
    have hpx : p.jrec.xid = x := by
      by_contra hne
      -- otherwise it would be enqueued already
      refine hs ?_
      rw [hsnd.enq r]
      refine (hsnd.orderly.content.enq r).mpr ⟨⟨p, hp, he, (hclosed p hp (.inl he) hne).mp hcnt⟩, ?_⟩
      rintro ⟨p', hp', hd, hcd⟩
      by_cases hpx' : p'.jrec.xid = x
      · subst hpx'
        exact (h.counts_of_open hp' (.inr hd) ht hc).1 hcd
      · exact hno ⟨p', hp', hd, (hclosed p' hp' (.inr hd) hpx').mpr hcd⟩
    subst hpx
    have hcom := (h.counts_of_open hp (.inl he) ht hc).2.mp hcnt
    refine ⟨hcom, ⟨p, hp, rfl, he⟩, ?_⟩
    rintro ⟨p', hp', hpx', hd⟩
    refine hno ⟨p', hp', hd, ?_⟩
    exact (h.counts_of_open hp' (.inr hd) (by rw [hpx']; exact ht) (by rw [hpx']; exact hc)).2.mpr hcom
  · rintro ⟨hcom, ⟨p, hp, rfl, he⟩, hno⟩
    refine ⟨⟨p, hp, he, (h.counts_of_open hp (.inl he) ht hc).2.mpr hcom⟩, ?_⟩
    rintro ⟨p', hp', hd, -⟩
    exact hno ⟨p', hp', hsnd.orderly.content.own p hp p' hp' r he hd hx hun, hd⟩

end Handing

end TxnSys

end RhmStore
