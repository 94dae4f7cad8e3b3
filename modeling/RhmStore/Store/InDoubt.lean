import RhmStore.Store.Atomic

/-! # Transactions in doubt, and whose decision an outcome is

A prepared two-phase transaction waits for `commit` or `abort`, whatever crashes come. A local one
that a restart finds prepared does not wait: it is committed. -/

namespace RhmStore

open Function

namespace TxnSys

variable {n files tplFiles : Nat} {s s' s₁ s₂ : TxnSys} {x : Xid} {a : TxnAct} {acts acts' : List TxnAct}

/-- A two-phase transaction after its prepare, before its outcome. -/
def Waits (c : TxnCtxt) : Prop := c.tpc = true ∧ (c.phase = .preparing ∨ c.phase = .prepared)

/-- Where a transaction stands in the TPL, by its context. -/
theorem Inv.enqueued_iff (h : s.Inv n) (x : Xid) (tpc : Bool) : (∃ rid, tplState x s.tpl.log.recs = .enqueued rid tpc) ↔
    ∃ c, s.ctxs x = some c ∧ c.tpc = tpc ∧ (c.phase = .preparing ∨ c.phase = .prepared) := by
  constructor
  · rintro ⟨rid, hst⟩
    have hfit := h.logs.once.fits x
    rw [hst] at hfit
    have hok := h.xids x (h.logs.once.ne_nil_of_prepares hfit.1)
    cases hc : s.ctxs x with
    | none =>
      rw [hok.gone hc] at hst
      cases hst
    | some c =>
      have hph := (hok.ctxt c hc).phase
      unfold PhaseOk at hph
      cases hp : c.phase with
      | active =>
        simp only [hp] at hph
        exact absurd hfit.1 hph.2.1
      | preparing =>
        simp only [hp, hst, TplState.enqueued.injEq] at hph
        obtain ⟨⟨rid', -, -, ht⟩, -⟩ := hph
        exact ⟨c, rfl, ht.symm, .inl hp⟩
      | prepared =>
        simp only [hp, hst, TplState.enqueued.injEq] at hph
        obtain ⟨⟨rid', -, -, ht⟩, -⟩ := hph
        exact ⟨c, rfl, ht.symm, .inr hp⟩
      | decided =>
        simp only [hp] at hph
        obtain ⟨b, -, ⟨rid', -, hd⟩ | ⟨-, -, hn⟩⟩ := hph
        · rw [hst] at hd
          cases hd
        · exact absurd hfit.1 hn
      | closing todo =>
        simp only [hp] at hph
        obtain ⟨b, ⟨-, ⟨rid', -, hd⟩ | ⟨-, -, hn⟩⟩, -⟩ := hph
        · rw [hst] at hd
          cases hd
        · exact absurd hfit.1 hn
  · rintro ⟨c, hc, rfl, hp | hp⟩
    · have hph := ((h.xids x (h.logs.nonempty x c hc).1).ctxt c hc).phase
      unfold PhaseOk at hph
      simp only [hp] at hph
      obtain ⟨⟨rid, -, hst⟩, -⟩ := hph
      exact ⟨rid, hst⟩
    · have hph := ((h.xids x (h.logs.nonempty x c hc).1).ctxt c hc).phase
      unfold PhaseOk at hph
      simp only [hp] at hph
      obtain ⟨⟨rid, -, hst⟩, -⟩ := hph
      exact ⟨rid, hst⟩

/-- `collectPreparedXids` on the running store. -/
theorem Inv.collects (h : s.Inv n) {rs : List ReadRes}
    (hrs : Delivers 0 (delivered s.tpl.maps s.tpl.log.recs) rs) : ∃ tm, readTplStore s.tpl.maps.tmap rs = .ok tm ∧
      ∀ x, x ∈ collectPreparedXids tm ↔ ∃ c, s.ctxs x = some c ∧ Waits c := by
  obtain ⟨tm, htm, hget⟩ := h.logs.tplMaps.readTplStore_eq h.logs.once.hist hrs
  refine ⟨tm, htm, fun x => ?_⟩
  rw [collect_iff_of_seen hget, h.enqueued_iff]
  rfl

/-- Prepared, and recovery will find that. -/
structure InDoubt (s : TxnSys) (x : Xid) : Prop where
  ctxt : ∃ c, s.ctxs x = some c ∧ c.tpc = true ∧ c.phase = .prepared ∧ c.commit = none
  durable : Prepares x s.tpl.durable

theorem InDoubt.call_of_step (h : s.InDoubt x) (hi : s.Inv n) (hs : s.step n files tplFiles a = some s')
    (ha : subject a = some x) : ∃ b, a = .call x b := by
  obtain ⟨⟨c, hc, -, hp, hcom⟩, -⟩ := h
  have phase_of : ∀ c', s.ctxs x = some c' → c'.phase = .prepared ∧ c'.commit = none := by
    intro c' hc'
    obtain rfl : c = c' := Option.some.inj (hc.symm.trans hc')
    exact ⟨hp, hcom⟩
  cases a with
  | begin y tpc =>
    cases ha
    exact absurd (hi.logs.nonempty x c hc).2 (begin_ok hs).2.1
  | store q w =>
    simp only [TxnSys.step] at hs
    split at hs
    · obtain rfl : w.placed.jrec.xid = x := Option.some.inj ha
      obtain ⟨-, j, -, ⟨hnil, -⟩ | ⟨-, c', hc', hact, -⟩⟩ := store_ok hs
      · exact absurd hnil (hi.logs.nonempty _ c hc).1
      · have hph := hact.symm.trans (phase_of c' hc').1
        cases hph
    · cases hs
  | call y b =>
    cases ha
    exact ⟨b, rfl⟩
  | drop y =>
    cases ha
    obtain ⟨c', hc', hact, -⟩ := drop_ok hs
    have hph := hact.symm.trans (phase_of c' hc').1
    cases hph
  | tplEnqueue y rid fid =>
    cases ha
    obtain ⟨c', s₀, j, hc', hact, -⟩ := tplEnqueue_ok hs
    have hph := hact.symm.trans (phase_of c' hc').1
    cases hph
  | prepareSynced y =>
    cases ha
    obtain ⟨c', s₀, hc', hact, -⟩ := prepareSynced_ok hs
    have hph := hact.symm.trans (phase_of c' hc').1
    cases hph
  | completed y rid fid =>
    cases ha
    obtain ⟨c', b, hc', hb, -⟩ := completed_ok hs
    have hnone := hb.symm.trans (phase_of c' hc').2
    cases hnone
  | completeSynced y =>
    cases ha
    obtain ⟨c', s₀, hc', hact, -⟩ := completeSynced_ok hs
    have hph := hact.symm.trans (phase_of c' hc').1
    cases hph
  | commitTxn y q rid fid =>
    cases ha
    simp only [TxnSys.step] at hs
    split at hs
    · obtain ⟨c', todo, b, s₀, j, hc', hact, -⟩ := commitTxn_ok hs
      have hph := hact.symm.trans (phase_of c' hc').1
      cases hph
    · cases hs
  | commitTxnTpl y rid fid =>
    cases ha
    obtain ⟨c', b, s₀, hc', hb, -⟩ := commitTxnTpl_ok hs
    have hnone := hb.symm.trans (phase_of c' hc').2
    cases hnone
  | returned q rid => cases ha
  | returnedTpl rid => cases ha
  | crash k kept => cases ha

/-- No step but a call ends the doubt, least of all a crash. -/
theorem InDoubt.step (h : s.InDoubt x) (hi : s.Inv n) (hs : s.step n files tplFiles a = some s')
    (ha : ∀ b, a ≠ .call x b) : s'.InDoubt x := by
  have hdur := h.durable.mono fun p _ hm => (hi.moves hs).keeps.tpl p hm
  refine ⟨?_, hdur⟩
  obtain ⟨c, hc, htpc, hp, hcom⟩ := h.ctxt
  by_cases hsub : subject a = some x
  · obtain ⟨b, hb⟩ := h.call_of_step hi hs hsub
    exact absurd hb (ha b)
  · by_cases hcr : ∃ k kept, a = .crash k kept
    · obtain ⟨k, kept, rfl⟩ := hcr
      have hr := hi.crash hs
      obtain ⟨rid, hst⟩ := (hi.enqueued_iff x true).mpr ⟨c, hc, htpc, .inr hp⟩
      have hfound : Prepares x s'.tpl.recs := hr.tplFound ▸ hdur
      have hst' : tplState x s'.tpl.log.recs = .enqueued rid true :=
        hi.logs.once.enqueued_of_front (hr.tplLog ▸ s.tpl.log.crash_prefix k) hst hfound
      refine ⟨recoverCtxt n s'.queues x ⟨rid, false, true, true⟩, ?_, rfl, rfl, rfl⟩
      rw [hr.ctxs x, hst']
      rfl
    · have hsame := SameFor.of_step hs hsub fun k kept hk => hcr ⟨k, kept, hk⟩
      exact ⟨c, hsame.ctxt.trans hc, htpc, hp, hcom⟩

theorem Inv.inDoubt_of_prepareSynced (h : s.Inv n) {c : TxnCtxt} (hc : s.ctxs x = some c) (htpc : c.tpc = true)
    (hs : s.prepareSynced x = some s') : s'.InDoubt x := by
  obtain ⟨c', s₀, hc', hp, hsync, rfl⟩ := prepareSynced_ok hs
  obtain rfl : c = c' := Option.some.inj (hc.symm.trans hc')
  rw [← hsync.ctxs] at hc
  replace h := hsync.inv h
  have hx := (h.logs.nonempty x c hc).1
  have hph := ((h.xids x hx).ctxt c hc).phase
  unfold PhaseOk at hph
  simp only [hp] at hph
  obtain ⟨⟨rid, hr, hst⟩, -, hcom⟩ := hph
  have hfit := h.logs.once.fits x
  rw [hst] at hfit
  refine ⟨⟨_, update_self _ _ _, htpc, rfl, ?_⟩, ?_⟩
  · rw [htpc, Bool.not_true, Option.isSome_eq_false_iff, Option.isNone_iff_eq_none] at hcom
    exact hcom
  · have hprep : Prepares x s₀.tpl.recs := hfit.1
    have hne : c.tplRid ≠ none := by
      rw [hr]
      exact Option.some_ne_none rid
    exact hprep.mono fun p hpx hm => hsync.tplKept rfl hne p hm hpx

/-- All its operations are open in the journals of their queues, and none is committed. -/
theorem InDoubt.stays (h : s.InDoubt x) (hi : s.Inv n) (q : Nat) : ¬Commits x (s.queues q).recs ∧
    ∀ p ∈ s.wrote q, p.jrec.xid = x → p ∈ (s.queues q).durable ∧ ∀ td ∈ p.entry x, td ∈ (s.queues q).maps.view.opn x := by
  obtain ⟨c, hc, -, hp, -⟩ := h.ctxt
  have hok := hi.xids x (hi.logs.nonempty x c hc).1
  have hprep : Prepares x s.tpl.recs := h.durable.mono fun _ _ hm => Jnl.durable_subset _ hm
  have hph := (hok.ctxt c hc).phase
  unfold PhaseOk at hph
  simp only [hp] at hph
  refine ⟨(hph.2 q).not_commits, fun p hp hpx => ?_⟩
  have hdur := hok.kept hprep q p hp hpx
  refine ⟨hdur, fun td htd => ?_⟩
  rw [(hi.logs.sound q).opn x (by rw [hc]; rfl)]
  exact (mem_openEntries_of_unclosed (hph.2 q)).mpr ⟨p, Jnl.durable_subset _ hdur, htd⟩

theorem InDoubt.run (h : s.InDoubt x) (hi : s.Inv n) (hs : s.run n files tplFiles acts = some s')
    (hcall : ∀ b, .call x b ∉ acts) : s'.InDoubt x := by
  refine run_induct (P := fun s => s.InDoubt x) hi h ?_ hs
  intro s₁ s₂ a ha hi hd hstep
  exact hd.step hi hstep fun b hb => hcall b (hb ▸ ha)

/-- When `prepare` of a two-phase transaction has returned, then until `commit` or `abort` is called,
through any crashes: its operations are durable, open in the maps of their queues and not committed,
and `collectPreparedXids` reports it. -/
theorem prepared_stays (hrun : (init files tplFiles).run n files tplFiles acts = some s) {c : TxnCtxt}
    (hc : s.ctxs x = some c) (htpc : c.tpc = true) (hret : s.step n files tplFiles (.prepareSynced x) = some s₁)
    (hrun' : s₁.run n files tplFiles acts' = some s₂) (hcall : ∀ b, .call x b ∉ acts') :
    (∀ q, ¬Commits x (s₂.queues q).recs ∧ ∀ p ∈ s₂.wrote q, p.jrec.xid = x →
      p ∈ (s₂.queues q).durable ∧ ∀ td ∈ p.entry x, td ∈ (s₂.queues q).maps.view.opn x) ∧
    ∀ rs, Delivers 0 (delivered s₂.tpl.maps s₂.tpl.log.recs) rs →
      ∃ tm, readTplStore s₂.tpl.maps.tmap rs = .ok tm ∧ x ∈ collectPreparedXids tm := by
  have h := (Inv.init n files tplFiles).run hrun
  have h₁ := h.step hret
  have h₂ := h₁.run hrun'
  have hd₂ : s₂.InDoubt x := (h.inDoubt_of_prepareSynced hc htpc hret).run h₁ hrun' hcall
  refine ⟨hd₂.stays h₂, ?_⟩
  obtain ⟨c₂, hc₂, htpc₂, hp₂, -⟩ := hd₂.ctxt
  intro rs hrs
  obtain ⟨tm, htm, hiff⟩ := h₂.collects hrs
  exact ⟨tm, htm, (hiff x).mpr ⟨c₂, hc₂, htpc₂, .inr hp₂⟩⟩

def toPrepare : List TxnAct :=
  [.begin [1] true, .store 0 ⟨⟨.enq 1 [1] 1 false false, 0⟩, []⟩, .returned 0 1, .tplEnqueue [1] 2 0,
    .returnedTpl 2]

theorem toPrepare_stays : ∃ s s₁ s₂ : TxnSys, (init 2 2).run 2 2 2 toPrepare = some s ∧
    s.step 2 2 2 (.prepareSynced [1]) = some s₁ ∧ s₁.run 2 2 2 [.crash 0 fun _ => 0] = some s₂ ∧
    (∀ q, ¬Commits [1] (s₂.queues q).recs ∧ ∀ p ∈ s₂.wrote q, p.jrec.xid = [1] →
      p ∈ (s₂.queues q).durable ∧ ∀ td ∈ p.entry [1], td ∈ (s₂.queues q).maps.view.opn [1]) ∧
    ∀ rs, Delivers 0 (delivered s₂.tpl.maps s₂.tpl.log.recs) rs →
      ∃ tm, readTplStore s₂.tpl.maps.tmap rs = .ok tm ∧ [1] ∈ collectPreparedXids tm := by
  have hsome : ((init 2 2).run 2 2 2 toPrepare).isSome := by decide +kernel
  obtain ⟨s, hs⟩ := Option.isSome_iff_exists.mp hsome
  have htpc : ((init 2 2).run 2 2 2 toPrepare).bind
      (fun s => (s.ctxs [1]).map TxnCtxt.tpc) = some true := by decide +kernel
  have hret : ((init 2 2).run 2 2 2 toPrepare).bind
      (fun s => (s.step 2 2 2 (.prepareSynced [1])).map fun _ => ()) = some () := by decide +kernel
  rw [hs, Option.bind_some] at htpc hret
  obtain ⟨c, hc, ht⟩ := Option.map_eq_some_iff.mp htpc
  obtain ⟨s₁, h₁, -⟩ := Option.map_eq_some_iff.mp hret
  have hi := ((Inv.init 2 2 2).run hs).step h₁
  obtain ⟨s₂, h₂, -⟩ := hi.crash_isSome 2 2 0 fun _ => 0
  have hrun : s₁.run 2 2 2 [.crash 0 fun _ => 0] = some s₂ := Option.bind_eq_some_iff.mpr ⟨s₂, h₂, rfl⟩
  exact ⟨s, s₁, s₂, hs, h₁, hrun, prepared_stays hs hc ht h₁ hrun (by simp)⟩

end TxnSys

end RhmStore
