import RhmStore.Store.TxnCommit

/-! # A crash and the recovery after it keep the invariant -/

namespace RhmStore

open Function Std

/-- A reader that never waits. -/
theorem Delivers.of_success (es : List (Xid × List UInt8)) (cnt : Nat) :
    Delivers cnt es (es.map fun e => .success e.1 e.2) := by
  induction es generalizing cnt with
  | nil => exact .done cnt
  | cons e es ih => exact .read e.1 e.2 (ih 0)

theorem TplHist.readTplStore_isOk {log : List DataRec} (h : TplHist log) (n : Nat) :
    ∃ m rm, replay (placeds log) (Maps.init n) = .ok () m ∧ TplMaps true m log ∧
      readTplStore m.tmap ((delivered m log).map fun e => .success e.1 e.2) = .ok rm ∧
      ∀ x, rm[x]? = (tplState x log).recovered := by
  obtain ⟨m, hm, hmaps⟩ := TplMaps.replay_isOk n h
  obtain ⟨rm, hrm, hget⟩ := hmaps.readTplStore_eq h (Delivers.of_success _ 0)
  have hid : TplMaps.seen true = id := by
    funext t
    simp [TplMaps.seen]
  refine ⟨m, rm, hm, hmaps, hrm, fun x => ?_⟩
  have hx := hget x
  rwa [hid, Option.map_id] at hx

theorem mem_recoverLockedMappings {rm : TplRecoverMap} {x : Xid} :
    x ∈ recoverLockedMappings rm ↔ (rm[x]?).isSome := by
  rw [recoverLockedMappings, ExtTreeMap.mem_keys, ← ExtTreeMap.isSome_getElem?_iff_mem]

namespace TxnSys

variable {n files tplFiles : Nat} {s s' : TxnSys} {x : Xid}

/-- What a restart finds: of each log a front part with all that was durable, and a context for each
transaction that is open in the TPL. -/
structure Restart (n tplKept : Nat) (kept : Nat → Nat) (s s' : TxnSys) : Prop where
  wrote : s'.wrote = s.wrote
  begun : s'.begun = s.begun
  called : s'.called = s.called
  tplLog : s'.tpl.log = s.tpl.log.crash tplKept
  tplMaps : TplMaps true s'.tpl.maps s'.tpl.log.recs
  log : ∀ q < n, (s'.queues q).log = (s.queues q).log.crash (kept q)
  sound : ∀ q < n, (s'.queues q).Sound fun x => (s'.ctxs x).isSome
  opn : ∀ q < n, ∀ x, s'.ctxs x = none → (s'.queues q).maps.view.opn x = []
  outside : ∀ q, n ≤ q → s'.queues q = s.queues q
  ctxs : ∀ x, s'.ctxs x = (tplState x s'.tpl.log.recs).recovered.map (recoverCtxt n s'.queues x)
  rolled : ∀ x, x ∈ s'.rolled ↔ x ∈ s.rolled ∨ ∃ rid, tplState x s'.tpl.log.recs = .enqueued rid false

theorem mem_rolled {rm : TplRecoverMap} {log : List DataRec} (h : ∀ x, rm[x]? = (tplState x log).recovered)
    (x : Xid) : x ∈ (rm.toList.filter fun p => !p.2.deqFlag && !p.2.tpcFlag).map (·.1) ↔
      ∃ rid, tplState x log = .enqueued rid false := by
  have hmem : x ∈ (rm.toList.filter fun p => !p.2.deqFlag && !p.2.tpcFlag).map (·.1) ↔
      ∃ t, rm[x]? = some t ∧ t.deqFlag = false ∧ t.tpcFlag = false := by
    simp only [List.mem_map, List.mem_filter, Bool.and_eq_true, Bool.not_eq_true']
    constructor
    · rintro ⟨⟨y, t⟩, ⟨hp, hc⟩, rfl⟩
      exact ⟨t, ExtTreeMap.mem_toList_iff_getElem?_eq_some.mp hp, hc⟩
    · rintro ⟨t, ht, hc⟩
      exact ⟨(x, t), ⟨ExtTreeMap.mem_toList_iff_getElem?_eq_some.mpr ht, hc⟩, rfl⟩
  rw [hmem, h x]
  cases tplState x log with
  | absent => simp [TplState.recovered]
  | enqueued rid tpc => simp [TplState.recovered]
  | dequeued rid tpc c => simp [TplState.recovered]

/-- Recovery never fails. -/
theorem Inv.crash_isSome (h : s.Inv n) (files tplFiles tplKept : Nat) (kept : Nat → Nat) :
    ∃ s', s.crash n files tplFiles tplKept kept = some s' ∧ Restart n tplKept kept s s' := by
  have hl := h.logs
  have hpre := s.tpl.log.crash_prefix tplKept
  have hist := (hl.once.of_front hpre).hist
  obtain ⟨tm, rm, htm, hmaps, hrm, hget⟩ := hist.readTplStore_isOk tplFiles
  have hrec : ∀ q, ∃ j, Jnl.recover files ((s.queues q).log.crash (kept q)) (recoverLockedMappings rm) = some j ∧
      j.log = (s.queues q).log.crash (kept q) ∧ j.Sound (· ∈ recoverLockedMappings rm) ∧
      ∀ x, x ∉ recoverLockedMappings rm → j.maps.view.opn x = [] := fun q =>
    Jnl.recover_sound files
      ((hl.sound q).orderly.of_front (((s.queues q).log.crash_prefix (kept q)).map DataRec.placed)) _
  choose jq hjq hlog hsound hopn using hrec
  have hfound : ∀ q < n, (Jnl.recover files ((s.queues q).log.crash (kept q)) (recoverLockedMappings rm)).isSome :=
    fun q _ => by rw [hjq q]; rfl
  unfold TxnSys.crash
  simp only [htm, hrm]
  rw [if_pos hfound]
  refine ⟨_, rfl, ⟨rfl, rfl, rfl, rfl, hmaps, ?_, ?_, ?_, ?_, ?_, ?_⟩⟩
  · intro q hq
    simp only [if_pos hq, hjq, Option.getD_some, hlog]
  · intro q hq
    simp only [if_pos hq, hjq, Option.getD_some, Option.isSome_map, ← mem_recoverLockedMappings]
    exact hsound q
  · intro q hq x hx
    simp only [Option.map_eq_none_iff] at hx
    simp only [if_pos hq, hjq, Option.getD_some]
    refine hopn q x ?_
    rw [mem_recoverLockedMappings, hx]
    exact Bool.false_ne_true
  · intro q hq
    simp only [if_neg (Nat.not_lt.mpr hq)]
  · intro x
    simp only [hget]
  · intro x
    simp only [List.mem_append, mem_rolled hget]
    exact or_comm

namespace Restart

variable {tplKept : Nat} {kept : Nat → Nat}

theorem recs (h : Restart n tplKept kept s s') (q : Nat) {p : Placed} (hp : p ∈ (s'.queues q).recs) :
    p ∈ (s.queues q).recs := by
  by_cases hq : q < n
  · rw [Jnl.recs, h.log q hq] at hp
    exact (((s.queues q).log.crash_prefix (kept q)).map DataRec.placed).subset hp
  · rwa [h.outside q (Nat.le_of_not_lt hq)] at hp

theorem durable (h : Restart n tplKept kept s s') (q : Nat) {p : Placed} (hp : p ∈ (s.queues q).durable) :
    p ∈ (s'.queues q).durable := by
  by_cases hq : q < n
  · rw [Jnl.durable, h.log q hq, Wal.durable_crash]
    exact (((s.queues q).log.durable_prefix_crash (kept q)).map DataRec.placed).subset hp
  · rwa [h.outside q (Nat.le_of_not_lt hq)]

/-- What is found is durable from then on. -/
theorem found (h : Restart n tplKept kept s s') (hl : s.LogsOk n) (q : Nat) {p : Placed}
    (hp : p ∈ (s'.queues q).recs) : p ∈ (s'.queues q).durable := by
  by_cases hq : q < n
  · rw [Jnl.recs, h.log q hq] at hp
    rwa [Jnl.durable, h.log q hq, Wal.durable_crash]
  · have hqn := Nat.le_of_not_lt hq
    rw [h.outside q hqn, (hl.outside q hqn).1] at hp
    exact absurd hp List.not_mem_nil

theorem tplRecs (h : Restart n tplKept kept s s') {p : Placed} (hp : p ∈ s'.tpl.recs) : p ∈ s.tpl.recs := by
  rw [Jnl.recs, h.tplLog] at hp
  exact ((s.tpl.log.crash_prefix tplKept).map DataRec.placed).subset hp

theorem tplDurable (h : Restart n tplKept kept s s') {p : Placed} (hp : p ∈ s.tpl.durable) :
    p ∈ s'.tpl.durable := by
  rw [Jnl.durable, h.tplLog, Wal.durable_crash]
  exact ((s.tpl.log.durable_prefix_crash tplKept).map DataRec.placed).subset hp

theorem tplFound (h : Restart n tplKept kept s s') : s'.tpl.durable = s'.tpl.recs := by
  rw [Jnl.durable, Jnl.recs, h.tplLog, Wal.durable_crash]

theorem once (h : Restart n tplKept kept s s') (hl : s.LogsOk n) : TplOnce s'.tpl.log.recs :=
  hl.once.of_front (h.tplLog ▸ s.tpl.log.crash_prefix tplKept)

theorem prepares (h : Restart n tplKept kept s s') (hp : Prepares x s'.tpl.recs) : Prepares x s.tpl.recs :=
  hp.mono fun _ _ hm => h.tplRecs hm

/-- A transaction with a context is prepared. -/
theorem prepares_of_ctxt (h : Restart n tplKept kept s s') (hl : s.LogsOk n) (hx : s'.ctxs x ≠ none) :
    x ≠ [] ∧ Prepares x s'.tpl.recs := by
  have hs : ∃ rid, (tplState x s'.tpl.log.recs).openRid = some rid := by
    rw [h.ctxs x] at hx
    cases hst : tplState x s'.tpl.log.recs with
    | absent =>
      rw [hst] at hx
      exact absurd rfl hx
    | enqueued rid tpc => exact ⟨rid, rfl⟩
    | dequeued rid tpc c => exact ⟨rid, rfl⟩
  obtain ⟨rid, hr⟩ := hs
  obtain ⟨hne, w, hw, hj, -⟩ := (h.once hl).hist.prepare_mem hr
  exact ⟨hne, _, List.mem_map_of_mem hw, rid, 1, false, false, hj⟩

theorem begun_of_ctxt (h : Restart n tplKept kept s s') (hl : s.LogsOk n) (hx : s'.ctxs x ≠ none) :
    x ∈ s.begun := by
  obtain ⟨p, hp, rid, d, t, e, hj⟩ := h.prepares (h.prepares_of_ctxt hl hx).2
  have hb := hl.tplNamed p hp
  rw [hj] at hb
  exact hb

theorem logsOk (h : Restart n tplKept kept s s') (hl : s.LogsOk n) : s'.LogsOk n := by
  refine ⟨h.once hl, h.tplMaps.weaken, fun q => ?_, fun q hq => ?_, fun q p hp hop => ?_, ?_, fun x c hc => ?_,
    fun q p hp => ?_, fun p hp => ?_, fun q x hx => ?_⟩
  · by_cases hq : q < n
    · exact h.sound q hq
    · have hqn := Nat.le_of_not_lt hq
      obtain ⟨hrec, -, hopn⟩ := hl.outside q hqn
      rw [h.outside q hqn]
      refine ⟨(hl.sound q).orderly, (hl.sound q).enq, fun x _ => ?_⟩
      rw [hopn x, hrec]
      rfl
  · rw [h.outside q hq, h.wrote]
    exact hl.outside q hq
  · rw [h.wrote]
    exact hl.logged q p (h.recs q hp) hop
  · rw [h.wrote]
    exact hl.operation
  · have hne : s'.ctxs x ≠ none := by
      rw [hc]
      exact Option.some_ne_none c
    rw [h.begun]
    exact ⟨(h.prepares_of_ctxt hl hne).1, h.begun_of_ctxt hl hne⟩
  · rw [h.wrote] at hp
    rw [h.begun]
    exact hl.named q p (hp.imp_left (h.recs q))
  · rw [h.begun]
    exact hl.tplNamed p (h.tplRecs hp)
  · rw [h.begun]
    by_cases hq : q < n
    · exact h.begun_of_ctxt hl fun hn => hx (h.opn q hq x hn)
    · rw [h.outside q (Nat.le_of_not_lt hq)] at hx
      exact hl.opnNamed q x hx

/-- A prepared transaction without an outcome has told no queue anything. -/
theorem unclosed (h : Restart n tplKept kept s s') (hx : s.XidOk x) (hp : Prepares x s'.tpl.recs)
    (hd : ∀ b, ¬Decides x b s'.tpl.recs) (q : Nat) : Unclosed x (s'.queues q).recs := by
  refine unclosed_iff.mpr ⟨fun hc => ?_, fun ha => ?_⟩
  · have hdec := hx.commits q (hc.mono fun _ _ hm => h.recs q hm)
    exact hd true (h.tplFound ▸ hdec.mono fun _ _ hm => h.tplDurable hm)
  · rcases hx.aborts q (ha.mono fun _ _ hm => h.recs q hm) with hdec | hno
    · exact hd false (h.tplFound ▸ hdec.mono fun _ _ hm => h.tplDurable hm)
    · exact hno (h.prepares hp)

theorem mem_openQueues (h : Restart n tplKept kept s s') (hl : s.LogsOk n) (hx : (s'.ctxs x).isSome) (q : Nat) :
    q ∈ openQueues n s'.queues x ↔ openEntries x (s'.queues q).recs ≠ [] := by
  have hiff : (s'.queues q).maps.tmap.getTdataList x ≠ [] ↔ (s'.queues q).maps.view.opn x ≠ [] := by
    change _ ↔ ((s'.queues q).maps.tmap.getTdataList x).map TxnData.core ≠ []
    rw [Ne, Ne, List.map_eq_nil_iff]
  rw [openQueues, List.mem_filter, List.mem_range, decide_eq_true_iff, hiff]
  by_cases hq : q < n
  · rw [(h.sound q hq).opn x hx, and_iff_right hq]
  · have hqn := Nat.le_of_not_lt hq
    have hnil : openEntries x (s'.queues q).recs = [] := by
      rw [h.outside q hqn, (hl.outside q hqn).1]
      rfl
    simp [hq, hnil]

theorem ctxtOk (h : Restart n tplKept kept s s') (hl : s.LogsOk n) (hx : s.XidOk x) {c : TxnCtxt}
    (hc : s'.ctxs x = some c) : s'.CtxtOk x c := by
  have hsome : (s'.ctxs x).isSome := by rw [hc]; rfl
  have hopen := h.mem_openQueues hl hsome
  obtain ⟨hne, hprep⟩ := h.prepares_of_ctxt hl (Option.isSome_iff_ne_none.mp hsome)
  have hfit := (h.once hl).fits x
  have hnodup : (openQueues n s'.queues x).Nodup := List.nodup_range.filter _
  have hctx := h.ctxs x
  rw [hc] at hctx
  obtain ⟨t, ht, rfl⟩ := Option.map_eq_some_iff.mp hctx.symm
  have hpend : (recoverCtxt n s'.queues x t).pending = openQueues n s'.queues x := by
    unfold TxnCtxt.pending recoverCtxt
    cases t.deqFlag with
    | true => rfl
    | false => rfl
  refine ⟨⟨hpend ▸ hnodup, hnodup⟩, fun q hq => by rwa [hpend] at hq, fun q ho => ?_, fun q hq => ?_, fun q hm => ?_, ?_⟩
  · rw [hpend]
    exact (hopen q).mpr ho
  · rw [hpend] at hq
    refine Orderly.unclosed ?_ hne ((hopen q).mp hq)
    by_cases hqn : q < n
    · exact (h.sound q hqn).orderly
    · rw [h.outside q (Nat.le_of_not_lt hqn)]
      exact (hl.sound q).orderly
  · exact .inr (hm.mono fun _ _ hp => h.found hl q hp)
  · cases hst : tplState x s'.tpl.log.recs with
    | absent =>
      rw [hst] at ht
      cases ht
    | enqueued rid tpc =>
      rw [hst] at ht hfit
      cases ht
      exact ⟨⟨rid, rfl, hst⟩, h.unclosed hx hfit.1 hfit.2.1⟩
    | dequeued rid tpc b =>
      rw [hst] at ht
      cases ht
      exact ⟨b, rfl, .inl ⟨rid, rfl, hst⟩⟩

theorem xidOk (h : Restart n tplKept kept s s') (hl : s.LogsOk n) (hx : s.XidOk x) : s'.XidOk x := by
  refine ⟨?_, ?_, ?_, ?_, ?_, ?_⟩
  · intro hp q p hm hpx
    rw [h.wrote] at hm
    exact h.durable q (hx.kept (h.prepares hp) q p hm hpx)
  · intro q hm
    exact (hx.commits q (hm.mono fun _ _ hp => h.recs q hp)).mono fun _ _ hp => h.tplDurable hp
  · intro q hm
    rcases hx.aborts q (hm.mono fun _ _ hp => h.recs q hp) with hd | hn
    · exact .inl (hd.mono fun _ _ hp => h.tplDurable hp)
    · exact .inr fun hp => hn (h.prepares hp)
  · intro hm q p hpm hpx
    rw [h.wrote] at hpm
    have hall := hx.closed (hm.mono fun _ _ hp => h.tplRecs hp) q p hpm hpx
    exact hall.mono fun _ _ hp => h.durable q hp
  · intro hn
    rw [h.ctxs x, Option.map_eq_none_iff] at hn
    cases hst : tplState x s'.tpl.log.recs with
    | absent => rfl
    | enqueued rid tpc =>
      rw [hst] at hn
      cases hn
    | dequeued rid tpc c =>
      rw [hst] at hn
      cases hn
  · exact fun c hc => h.ctxtOk hl hx hc

/-- After a restart the store is as before it, as far as what is durable goes. -/
theorem inv (h : Restart n tplKept kept s s') (hi : s.Inv n) : s'.Inv n :=
  ⟨h.logsOk hi.logs, fun _ hx => h.xidOk hi.logs (hi.xids _ hx)⟩

end Restart

end TxnSys

end RhmStore
