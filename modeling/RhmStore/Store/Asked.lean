import RhmStore.Store.InDoubt

/-! # Whose decision an outcome is

The outcome of a transaction is that of a call, but for the local transactions that a restart finds
prepared: those it commits. -/

namespace RhmStore

open Function

/-- The prepare of `x`, where the log has it, is that of a local transaction. -/
def Local (x : Xid) (log : List DataRec) : Prop :=
  ∀ w ∈ log, ∀ rid d t e, w.placed.jrec = .enq rid x d t e → w.data = [0]

theorem Local.tpcFlag {x : Xid} {log : List DataRec} (h : Local x log) (ho : TplOnce log) {t : TplRecoverStruct}
    (ht : (tplState x log).recovered = some t) : t.tpcFlag = false := by
  have hopen : ∃ rid, (tplState x log).openRid = some rid := by
    cases hst : tplState x log with
    | absent =>
      rw [hst] at ht
      cases ht
    | enqueued rid tpc => exact ⟨rid, rfl⟩
    | dequeued rid tpc c => exact ⟨rid, rfl⟩
  obtain ⟨rid, hr⟩ := hopen
  obtain ⟨-, w, hw, hj, b, hb, hf⟩ := ho.hist.prepare_mem hr
  have h0 := (h w hw rid 1 false false hj).symm.trans hb
  rw [hf t ht, ← (List.cons.inj h0).1]
  rfl

theorem Local.of_enqueued {x : Xid} {log : List DataRec} {rid : Nat} (ho : TplOnce log)
    (hst : tplState x log = .enqueued rid false) : Local x log := by
  intro w hw rid' d t e hj
  have hr : (tplState x log).openRid = some rid := by
    rw [hst]
    rfl
  obtain ⟨-, w', hw', hj', b, hb, hf⟩ := ho.hist.prepare_mem hr
  obtain rfl := ho.prepare_unique hw hw' hj hj'
  have h0 := hf ⟨rid, false, true, false⟩ (by rw [hst]; rfl)
  have hb0 : b = 0 := by
    by_contra hne
    simp [hne] at h0
  rw [hb, hb0]

namespace TxnSys

variable {n files tplFiles : Nat} {s s' : TxnSys} {x : Xid} {a : TxnAct} {acts : List TxnAct}

/-- Somebody wants the outcome `b`. -/
def Wanted (s : TxnSys) (x : Xid) (b : Bool) : Prop := (x, b) ∈ s.called ∨ b = true ∧ x ∈ s.rolled

structure Rolls (s : TxnSys) (x : Xid) : Prop where
  prepares : Prepares x s.tpl.durable
  not_false : ¬Decides x false s.tpl.recs
  isLocal : Local x s.tpl.log.recs
  ctxt : ∀ c, s.ctxs x = some c → c.commit = some true

structure Asked (s : TxnSys) (x : Xid) : Prop where
  ctxt : ∀ c b, s.ctxs x = some c → c.commit = some b → s.Wanted x b
  outcome : ∀ b, Decides x b s.tpl.recs → s.Wanted x b
  rolled : x ∈ s.rolled → s.Rolls x

theorem Inv.local_step (h : s.Inv n) (hs : s.step n files tplFiles a = some s') (hp : Prepares x s.tpl.recs)
    (hl : Local x s.tpl.log.recs) : Local x s'.tpl.log.recs := by
  have honce := (h.step hs).logs.once
  have hm := (h.moves hs).tpl
  obtain ⟨p, hpm, rid₀, d₀, t₀, e₀, hj₀⟩ := hp
  obtain ⟨w₀, hw₀, rfl⟩ := List.mem_map.mp hpm
  intro w hw rid d t e hj
  generalize s'.tpl.log = log' at honce hm hw
  cases hm with
  | append k v =>
    obtain rfl := honce.prepare_unique hw (List.mem_append_left _ hw₀) hj hj₀
    exact hl w hw₀ rid d t e hj
  | sync k => exact hl w hw rid d t e hj
  | crash k => exact hl w ((s.tpl.log.crash_prefix k).subset hw) rid d t e hj

theorem Asked.of_same (h : s.Asked x) (hi : s.Inv n) (hs : s.step n files tplFiles a = some s')
    (ha : ∀ k kept, a ≠ .crash k kept)
    (hctx : ∀ c', s'.ctxs x = some c' → ∃ c, s.ctxs x = some c ∧ c.commit = c'.commit)
    (hdec : ∀ b, Decides x b s'.tpl.recs → Decides x b s.tpl.recs) : s'.Asked x := by
  have hn := hi.notes hs
  have hr := hn.rolled ha
  have hw : ∀ b, s.Wanted x b → s'.Wanted x b := by
    rintro b (hc | ⟨hb, hm⟩)
    · exact .inl (hn.called _ hc)
    · exact .inr ⟨hb, hr ▸ hm⟩
  refine ⟨fun c' b hc' hb => ?_, fun b hb => hw b (h.outcome b (hdec b hb)), fun hm => ?_⟩
  · obtain ⟨c, hc, hcc⟩ := hctx c' hc'
    exact hw b (h.ctxt c b hc (hcc.trans hb))
  · obtain ⟨hp, hf, hl, hc⟩ := h.rolled (hr ▸ hm)
    refine ⟨hp.mono fun p _ hm => (hi.moves hs).keeps.tpl p hm, fun hd => hf (hdec false hd),
      hi.local_step hs (hp.mono fun _ _ hm => Jnl.durable_subset _ hm) hl, fun c' hc' => ?_⟩
    obtain ⟨c, hc₁, hcc⟩ := hctx c' hc'
    exact hcc.symm.trans (hc c hc₁)

theorem ctxs_setCtx_self (c : Option TxnCtxt) : (s.setCtx x c).ctxs x = c := by
  simp [setCtx]

theorem same_commit {c c' : TxnCtxt} (hc : s.ctxs x = some c) (hcs : s'.ctxs x = some c')
    (hcom : c'.commit = c.commit) : ∀ c'', s'.ctxs x = some c'' → ∃ c, s.ctxs x = some c ∧ c.commit = c''.commit := by
  intro c'' hc''
  obtain rfl := Option.some.inj (hcs.symm.trans hc'')
  exact ⟨c, hc, hcom.symm⟩

theorem no_ctxt (hcs : s'.ctxs x = none) :
    ∀ c'', s'.ctxs x = some c'' → ∃ c, s.ctxs x = some c ∧ c.commit = c''.commit := by
  intro c'' hc''
  rw [hcs] at hc''
  cases hc''

theorem Asked.call (h : s.Asked x) {b : Bool} (hs : s.call x b = some s') : s'.Asked x := by
  obtain ⟨c, oc, hc, hcom, rfl, hoc⟩ := call_ok hs
  have hw : ∀ b', s.Wanted x b' → (x, b') ∈ (x, b) :: s.called ∨ b' = true ∧ x ∈ s.rolled := fun b' =>
    Or.imp_left (List.mem_cons_of_mem _)
  refine ⟨fun c' b' hc' hb' => ?_, fun b' hd => hw b' (h.outcome b' hd), fun hm => ?_⟩
  · rw [ctxs_setCtx_self] at hc'
    rcases hoc with ⟨rfl, -⟩ | ⟨rfl, -⟩
    · cases hc'
    · cases hc'
      cases hb'
      exact .inl List.mem_cons_self
  · have hno := hcom.symm.trans ((h.rolled hm).ctxt c hc)
    cases hno

theorem Asked.completed (h : s.Asked x) (hi : s.Inv n) {rid fid : Nat} (hs : s.completed x rid fid = some s') :
    s'.Asked x := by
  have hstep : s.step n 0 0 (.completed x rid fid) = some s' := hs
  obtain ⟨c, b, hc, hb, ⟨erid, j, -, -, hw, rfl⟩ | ⟨-, -, -, rfl⟩⟩ := completed_ok hs
  · have hrecs := Jnl.recs_write hw
    have hdec : ∀ b', Decides x b' j.recs → Decides x b' s.tpl.recs ∨ b' = b := by
      intro b' hd
      rw [hrecs, decides_concat] at hd
      rcases hd with hd | ⟨rid', drid, hj⟩
      · exact .inl hd
      · cases hj
        exact .inr rfl
    have hwant := h.ctxt c b hc hb
    refine ⟨fun c' b' hc' hb' => ?_, fun b' hd => ?_, fun hm => ?_⟩
    · rw [ctxs_setCtx_self] at hc'
      cases hc'
      exact h.ctxt c b' hc hb'
    · rcases hdec b' hd with hd | rfl
      · exact h.outcome b' hd
      · exact hwant
    · obtain ⟨hp, hf, hl, hct⟩ := h.rolled hm
      obtain rfl : b = true := Option.some.inj (hb.symm.trans (hct c hc))
      refine ⟨hp.mono fun p _ hm => (hi.moves hstep).keeps.tpl p hm, fun hd => ?_,
        hi.local_step hstep (hp.mono fun _ _ hm => Jnl.durable_subset _ hm) hl, fun c' hc' => ?_⟩
      · rcases hdec false hd with hd | hd
        · exact hf hd
        · cases hd
      · rw [ctxs_setCtx_self] at hc'
        cases hc'
        exact hb
  · exact h.of_same hi hstep (fun _ _ hk => by cases hk) (same_commit hc (ctxs_setCtx_self _) rfl) fun _ hd => hd

/-- What a restart makes of the transactions that it finds. -/
theorem Asked.crash (h : s.Asked x) (hi : s.Inv n) {k : Nat} {kept : Nat → Nat}
    (hs : s.crash n files tplFiles k kept = some s') : s'.Asked x := by
  have hr := hi.crash hs
  have honce := hr.once hi.logs
  have hdec : ∀ b, Decides x b s'.tpl.recs → Decides x b s.tpl.recs := fun b hd =>
    hd.mono fun _ _ hm => hr.tplRecs hm
  have hw : ∀ b, s.Wanted x b → s'.Wanted x b := by
    rintro b (hc | ⟨hb, hm⟩)
    · exact .inl (hr.called ▸ hc)
    · exact .inr ⟨hb, (hr.rolled x).mpr (.inl hm)⟩
  have hctx : ∀ c, s'.ctxs x = some c → (tplState x s'.tpl.log.recs).recovered.map (recoverCtxt n s'.queues x) = some c :=
    fun c hc => (hr.ctxs x).symm.trans hc
  have hfit := honce.fits x
  -- found prepared and local, before or now
  have hrolls : x ∈ s'.rolled → Local x s'.tpl.log.recs ∧ Prepares x s'.tpl.recs ∧ ¬Decides x false s'.tpl.recs := by
    intro hm
    rcases (hr.rolled x).mp hm with hm | ⟨rid, hst⟩
    · obtain ⟨hp, hf, hl, -⟩ := h.rolled hm
      refine ⟨?_, ?_, fun hd => hf (hdec false hd)⟩
      · exact hi.local_step (a := .crash k kept) hs (hp.mono fun _ _ hm => Jnl.durable_subset _ hm) hl
      · exact hr.tplFound ▸ hp.mono fun _ _ hm => hr.tplDurable hm
    · rw [hst] at hfit
      exact ⟨.of_enqueued honce hst, hfit.1, hfit.2.1 false⟩
  refine ⟨fun c b hc hb => ?_, fun b hd => hw b (h.outcome b (hdec b hd)), fun hm => ?_⟩
  · have hct := hctx c hc
    cases hst : tplState x s'.tpl.log.recs with
    | absent =>
      rw [hst] at hct
      cases hct
    | enqueued rid tpc =>
      rw [hst] at hct
      cases hct
      cases tpc with
      | false =>
        cases hb
        exact .inr ⟨rfl, (hr.rolled x).mpr (.inr ⟨rid, hst⟩)⟩
      | true => cases hb
    | dequeued rid tpc b' =>
      rw [hst] at hct hfit
      cases hct
      cases hb
      exact hw _ (h.outcome _ (hdec _ ((hfit.2.1 _).mpr rfl)))
  · obtain ⟨hl, hp, hf⟩ := hrolls hm
    refine ⟨by rw [hr.tplFound]; exact hp, hf, hl, fun c hc => ?_⟩
    have hct := hctx c hc
    cases hst : tplState x s'.tpl.log.recs with
    | absent =>
      rw [hst] at hct
      cases hct
    | enqueued rid tpc =>
      have htpc : tpc = false := hl.tpcFlag honce (t := ⟨rid, false, true, tpc⟩) (by rw [hst]; rfl)
      subst htpc
      rw [hst] at hct
      cases hct
      rfl
    | dequeued rid tpc b =>
      rw [hst] at hct hfit
      cases hct
      cases b with
      | true => rfl
      | false => exact absurd ((hfit.2.1 false).mpr rfl) hf

theorem Inv.asked_step (h : s.Inv n) (hx : x ≠ []) (ha : s.Asked x) (hs : s.step n files tplFiles a = some s') :
    s'.Asked x := by
  by_cases hcr : ∃ k kept, a = .crash k kept
  · obtain ⟨k, kept, rfl⟩ := hcr
    exact ha.crash h hs
  have hnc : ∀ k kept, a ≠ .crash k kept := fun k kept hk => hcr ⟨k, kept, hk⟩
  by_cases hsub : subject a = some x
  · cases a with
    | begin y tpc =>
      cases hsub
      obtain ⟨-, hnb, rfl⟩ := begin_ok hs
      refine ⟨fun c b hc hb => ?_, ha.outcome, fun hm => ?_⟩
      · have hcs := ctxs_setCtx_self (s := s) (x := x) (some ⟨tpc, [], .active, none, none⟩)
        obtain rfl := Option.some.inj (hcs.symm.trans hc)
        cases hb
      · obtain ⟨p, hp, rid, d, t, e, hj⟩ := (ha.rolled hm).prepares
        have hb := h.logs.tplNamed p (Jnl.durable_subset _ hp)
        rw [hj] at hb
        exact absurd hb hnb
    | store q w =>
      simp only [TxnSys.step] at hs
      have hstep : s.step n files tplFiles (.store q w) = some s' := hs
      split at hs
      · obtain rfl : w.placed.jrec.xid = x := Option.some.inj hsub
        obtain ⟨-, j, -, ⟨hnil, -⟩ | ⟨-, c, hc, -, -, rfl⟩⟩ := store_ok hs
        · exact absurd hnil hx
        · exact ha.of_same h hstep hnc (same_commit hc (ctxs_setCtx_self _) rfl) fun _ hd => hd
      · cases hs
    | call y b =>
      cases hsub
      exact ha.call hs
    | drop y =>
      cases hsub
      have hstep : s.step n files tplFiles (.drop x) = some s' := hs
      obtain ⟨c, -, -, -, rfl⟩ := drop_ok hs
      exact ha.of_same h hstep hnc (no_ctxt (ctxs_setCtx_self _)) fun _ hd => hd
    | tplEnqueue y rid fid =>
      cases hsub
      have hstep : s.step n files tplFiles (.tplEnqueue x rid fid) = some s' := hs
      obtain ⟨c, s₀, j, hc, -, -, hsync, hw, rfl⟩ := tplEnqueue_ok hs
      refine ha.of_same h hstep hnc (same_commit hc (ctxs_setCtx_self _) rfl) fun b hd => ?_
      have hrecs := Jnl.recs_write hw
      change Decides x b j.recs at hd
      rw [hrecs, hsync.tplRecs, decides_concat] at hd
      exact hd.resolve_right (by simp)
    | prepareSynced y =>
      cases hsub
      have hstep : s.step n files tplFiles (.prepareSynced x) = some s' := hs
      obtain ⟨c, s₀, hc, -, hsync, rfl⟩ := prepareSynced_ok hs
      exact ha.of_same h hstep hnc (same_commit hc (ctxs_setCtx_self _) rfl) fun _ hd => hsync.tplRecs ▸ hd
    | completed y rid fid =>
      cases hsub
      exact ha.completed h hs
    | completeSynced y =>
      cases hsub
      have hstep : s.step n files tplFiles (.completeSynced x) = some s' := hs
      obtain ⟨c, s₀, hc, -, hsync, rfl⟩ := completeSynced_ok hs
      exact ha.of_same h hstep hnc (same_commit hc (ctxs_setCtx_self _) rfl) fun _ hd => hsync.tplRecs ▸ hd
    | commitTxn y q rid fid =>
      cases hsub
      simp only [TxnSys.step] at hs
      have hstep : s.step n files tplFiles (.commitTxn x q rid fid) = some s' := hs
      split at hs
      · obtain ⟨c, todo, b, s₀, j, hc, -, -, -, hsync, -, rfl⟩ := commitTxn_ok hs
        exact ha.of_same h hstep hnc (same_commit hc (ctxs_setCtx_self _) rfl) fun _ hd => hsync.tplRecs ▸ hd
      · cases hs
    | commitTxnTpl y rid fid =>
      cases hsub
      have hstep : s.step n files tplFiles (.commitTxnTpl x rid fid) = some s' := hs
      obtain ⟨c, b, s₀, -, -, -, hsync, ⟨j, -, hw, rfl⟩ | ⟨-, rfl⟩⟩ := commitTxnTpl_ok hs
      · refine ha.of_same h hstep hnc (no_ctxt (ctxs_setCtx_self _)) fun b' hd => ?_
        have hrecs := Jnl.recs_write hw
        change Decides x b' j.recs at hd
        rw [hrecs, hsync.tplRecs, decides_concat] at hd
        refine hd.resolve_right ?_
        cases b with
        | true => simp
        | false => simp
      · exact ha.of_same h hstep hnc (no_ctxt (ctxs_setCtx_self _)) fun _ hd => hsync.tplRecs ▸ hd
    | returned q rid => cases hsub
    | returnedTpl rid => cases hsub
    | crash k kept => cases hsub
  · have hsame := SameFor.of_step hs hsub hnc
    exact ha.of_same h hs hnc (fun c hc => ⟨c, hsame.ctxt.symm.trans hc, rfl⟩) fun b hd =>
      hd.mono fun p hpx hm => (hsame.tpl p hpx).mp hm

theorem asked_of_run (hrun : (init files tplFiles).run n files tplFiles acts = some s) (hx : x ≠ []) : s.Asked x := by
  refine run_induct (P := fun s => s.Asked x) (Inv.init n files tplFiles) ⟨?_, ?_, ?_⟩
    (fun _ _ _ _ hi ha hs => hi.asked_step hx ha hs) hrun
  · intro c b hc
    cases hc
  · rintro b ⟨p, hp, -⟩
    cases hp
  · intro hm
    cases hm

/-- Somebody has called for the outcome that the TPL has of a transaction, or the outcome is commit
and a restart found the transaction local and prepared. Such a one is never aborted, in the TPL or in
a queue, not even if `abort` was called. -/
theorem outcome_asked (hrun : (init files tplFiles).run n files tplFiles acts = some s) (hx : x ≠ []) :
    (∀ b, Decides x b s.tpl.recs → (x, b) ∈ s.called ∨ b = true ∧ x ∈ s.rolled) ∧
      (x ∈ s.rolled → ¬Decides x false s.tpl.recs ∧ ∀ q, ¬Aborts x (s.queues q).recs) := by
  have h := (Inv.init n files tplFiles).run hrun
  have ha := asked_of_run hrun hx
  refine ⟨ha.outcome, fun hm => ?_⟩
  obtain ⟨hp, hf, -, -⟩ := ha.rolled hm
  refine ⟨hf, fun q hab => ?_⟩
  rcases (h.xids x hx).aborts q hab with hd | hn
  · exact hf (hd.mono fun _ _ hm => Jnl.durable_subset _ hm)
  · exact hn (hp.mono fun _ _ hm => Jnl.durable_subset _ hm)

theorem interrupted_asked : ∃ s, (init 2 2).run 2 2 2 interrupted = some s ∧
    (∀ b, Decides [1] b s.tpl.recs → ([1], b) ∈ s.called ∨ b = true ∧ [1] ∈ s.rolled) ∧
      ([1] ∈ s.rolled → ¬Decides [1] false s.tpl.recs ∧ ∀ q, ¬Aborts [1] (s.queues q).recs) := by
  have hsome : ((init 2 2).run 2 2 2 interrupted).isSome := by decide +kernel
  obtain ⟨s, hs⟩ := Option.isSome_iff_exists.mp hsome
  exact ⟨s, hs, outcome_asked hs (by decide)⟩

end TxnSys

end RhmStore
