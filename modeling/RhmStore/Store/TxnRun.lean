import RhmStore.Store.TxnCrash

/-! # Runs of the store -/

namespace RhmStore

open Function

namespace TxnSys

variable {n files tplFiles : Nat} {s s' : TxnSys} {x : Xid} {a : TxnAct} {acts : List TxnAct}

theorem Inv.init (n files tplFiles : Nat) : (init files tplFiles).Inv n := by
  have hopn : ∀ x, (Jnl.init files).maps.view.opn x = [] := fun x =>
    congrFun (congrArg View.opn (Maps.view_init files)) x
  refine ⟨⟨.nil, TplMaps.init false tplFiles, fun _ => Jnl.init_sound files, fun _ _ => ⟨rfl, rfl, hopn⟩, ?_, ?_, ?_,
    ?_, ?_, fun _ x hx => absurd (hopn x) hx⟩, fun x _ => ⟨?_, ?_, ?_, ?_, fun _ => rfl, ?_⟩⟩
  · intro q p hp
    cases hp
  · intro q p hp
    cases hp
  · intro x c hc
    cases hc
  · rintro q p (hp | hp)
    · cases hp
    · cases hp
  · intro p hp
    cases hp
  · intro _ q p hp
    cases hp
  · rintro q ⟨p, hp, -⟩
    cases hp
  · rintro q ⟨p, hp, -⟩
    cases hp
  · intro _ q p hp
    cases hp
  · intro c hc
    cases hc

theorem Inv.crash (h : s.Inv n) {tplKept : Nat} {kept : Nat → Nat}
    (hs : s.crash n files tplFiles tplKept kept = some s') : Restart n tplKept kept s s' := by
  obtain ⟨s₁, h₁, hr⟩ := h.crash_isSome files tplFiles tplKept kept
  obtain rfl := Option.some.inj (h₁.symm.trans hs)
  exact hr

theorem returned_ok {q rid : Nat} (h : s.step n files tplFiles (.returned q rid) = some s') :
    s' = s.returned q rid := by
  simp only [TxnSys.step] at h
  split at h
  · exact (Option.some.inj h).symm
  · cases h

theorem returnedTpl_ok {rid : Nat} (h : s.step n files tplFiles (.returnedTpl rid) = some s') :
    s' = s.returnedTpl rid := by
  simp only [TxnSys.step] at h
  split at h
  · exact (Option.some.inj h).symm
  · cases h

/-- Every step keeps the invariant. -/
theorem Inv.step (h : s.Inv n) (hs : s.step n files tplFiles a = some s') : s'.Inv n := by
  cases a with
  | begin x tpc =>
    obtain ⟨hx, hnb, rfl⟩ := begin_ok hs
    exact h.begin hx hnb tpc
  | store q w =>
    simp only [TxnSys.step] at hs
    split at hs
    · rename_i hq
      exact h.store hq hs
    · cases hs
  | call x commit => exact h.call hs
  | drop x => exact h.drop hs
  | tplEnqueue x rid fid => exact h.tplEnqueue hs
  | prepareSynced x => exact h.prepareSynced hs
  | completed x rid fid => exact h.completed hs
  | completeSynced x => exact h.completeSynced hs
  | commitTxn x q rid fid =>
    simp only [TxnSys.step] at hs
    split at hs
    · rename_i hq
      exact h.commitTxn hq hs
    · cases hs
  | commitTxnTpl x rid fid => exact h.commitTxnTpl hs
  | returned q rid =>
    obtain rfl := returned_ok hs
    exact h.returned q rid
  | returnedTpl rid =>
    obtain rfl := returnedTpl_ok hs
    exact h.returnedTpl rid
  | crash tplKept kept => exact (h.crash hs).inv h

theorem run_cons (hs : s.run n files tplFiles (a :: acts) = some s') :
    ∃ s₁, s.step n files tplFiles a = some s₁ ∧ s₁.run n files tplFiles acts = some s' :=
  Option.bind_eq_some_iff.mp hs

/-- What every step keeps, given the invariant, a run keeps. -/
theorem run_induct {P : TxnSys → Prop} (h : s.Inv n) (hP : P s)
    (hstep : ∀ s₁ s₂ a, a ∈ acts → s₁.Inv n → P s₁ → s₁.step n files tplFiles a = some s₂ → P s₂)
    (hs : s.run n files tplFiles acts = some s') : P s' := by
  induction acts generalizing s with
  | nil =>
    cases hs
    exact hP
  | cons a acts ih =>
    obtain ⟨s₁, h₁, h₂⟩ := run_cons hs
    exact ih (h.step h₁) (hstep s s₁ a List.mem_cons_self h hP h₁)
      (fun s₂ s₃ b hb => hstep s₂ s₃ b (List.mem_cons_of_mem a hb)) h₂

theorem Inv.run (h : s.Inv n) (hs : s.run n files tplFiles acts = some s') : s'.Inv n :=
  run_induct h h (fun _ _ _ _ _ hi hstep => Inv.step hi hstep) hs

structure Lives (s s' : TxnSys) : Prop where
  queue : ∀ q, Jnl.Live (s.queues q) (s'.queues q)
  tpl : Jnl.Live s.tpl s'.tpl

theorem Lives.of_eq (hq : s'.queues = s.queues) (ht : s'.tpl = s.tpl) : Lives s s' :=
  ⟨fun q => by rw [hq]; exact .same _, by rw [ht]; exact .same _⟩

theorem Syncs.lives {s₀ : TxnSys} (h : Syncs s s₀) : Lives s s₀ := by
  refine ⟨fun q => ?_, ?_⟩
  · obtain ⟨k, hk⟩ := h.queue q
    rw [hk]
    exact .sync k
  · obtain ⟨k, hk⟩ := h.tpl
    rw [hk]
    exact .sync k

theorem Lives.writeQueue {s₀ : TxnSys} {q : Nat} {w : DataRec} {j : Jnl} (h : Syncs s s₀)
    (hw : (s₀.queues q).write w = some j) (hq : s'.queues = update s₀.queues q j) (ht : s'.tpl = s₀.tpl) :
    Lives s s' := by
  refine ⟨fun q' => ?_, by rw [ht]; exact h.lives.tpl⟩
  rw [hq]
  by_cases hqq : q' = q
  · subst hqq
    obtain ⟨k, hk⟩ := h.queue q'
    rw [hk] at hw
    rw [update_self]
    exact .write k hw
  · rw [update_of_ne hqq]
    exact h.lives.queue q'

theorem Lives.writeTpl {s₀ : TxnSys} {w : DataRec} {j : Jnl} (h : Syncs s s₀) (hw : s₀.tpl.write w = some j)
    (hq : s'.queues = s₀.queues) (ht : s'.tpl = j) : Lives s s' := by
  refine ⟨fun q => by rw [hq]; exact h.lives.queue q, ?_⟩
  obtain ⟨k, hk⟩ := h.tpl
  rw [hk] at hw
  rw [ht]
  exact .write k hw

theorem lives_of_step (hs : s.step n files tplFiles a = some s') (ha : ∀ k kept, a ≠ .crash k kept) :
    Lives s s' := by
  cases a with
  | begin x tpc =>
    obtain ⟨-, -, rfl⟩ := begin_ok hs
    exact .of_eq rfl rfl
  | store q w =>
    simp only [TxnSys.step] at hs
    split at hs
    · obtain ⟨-, j, hw, ⟨-, rfl⟩ | ⟨-, c, -, -, -, rfl⟩⟩ := store_ok hs
      · exact .writeQueue (.refl s) hw rfl rfl
      · exact .writeQueue (.refl s) hw rfl rfl
    · cases hs
  | call x commit =>
    obtain ⟨c, oc, -, -, rfl, -⟩ := call_ok hs
    exact .of_eq rfl rfl
  | drop x =>
    obtain ⟨c, -, -, -, rfl⟩ := drop_ok hs
    exact .of_eq rfl rfl
  | tplEnqueue x rid fid =>
    obtain ⟨c, s₀, j, -, -, -, hsync, hw, rfl⟩ := tplEnqueue_ok hs
    exact .writeTpl hsync.toSyncs hw rfl rfl
  | prepareSynced x =>
    obtain ⟨c, s₀, -, -, hsync, rfl⟩ := prepareSynced_ok hs
    exact ⟨hsync.lives.queue, hsync.lives.tpl⟩
  | completed x rid fid =>
    obtain ⟨c, commit, -, -, ⟨erid, j, -, -, hw, rfl⟩ | ⟨-, -, -, rfl⟩⟩ := completed_ok hs
    · exact .writeTpl (.refl s) hw rfl rfl
    · exact .of_eq rfl rfl
  | completeSynced x =>
    obtain ⟨c, s₀, -, -, hsync, rfl⟩ := completeSynced_ok hs
    exact ⟨hsync.lives.queue, hsync.lives.tpl⟩
  | commitTxn x q rid fid =>
    simp only [TxnSys.step] at hs
    split at hs
    · obtain ⟨c, todo, commit, s₀, j, -, -, -, -, hsync, hw, rfl⟩ := commitTxn_ok hs
      exact .writeQueue hsync.toSyncs hw rfl rfl
    · cases hs
  | commitTxnTpl x rid fid =>
    obtain ⟨c, commit, s₀, -, -, -, hsync, ⟨j, -, hw, rfl⟩ | ⟨-, rfl⟩⟩ := commitTxnTpl_ok hs
    · exact .writeTpl hsync.toSyncs hw rfl rfl
    · exact ⟨hsync.lives.queue, hsync.lives.tpl⟩
  | returned q rid =>
    obtain rfl := returned_ok hs
    refine ⟨fun q' => ?_, .same _⟩
    by_cases hq : q' = q
    · subst hq
      simp only [TxnSys.returned, setQueue, update_self]
      exact .returned rid
    · simp only [TxnSys.returned, setQueue, update_of_ne hq]
      exact .same _
  | returnedTpl rid =>
    obtain rfl := returnedTpl_ok hs
    exact ⟨fun _ => .same _, .returned rid⟩
  | crash tplKept kept => exact absurd rfl (ha tplKept kept)

structure Moves (s s' : TxnSys) : Prop where
  queue : ∀ q, Wal.Step (s.queues q).log (s'.queues q).log
  tpl : Wal.Step s.tpl.log s'.tpl.log

theorem Inv.moves (h : s.Inv n) (hs : s.step n files tplFiles a = some s') : Moves s s' := by
  by_cases hcr : ∃ k kept, a = .crash k kept
  · obtain ⟨k, kept, rfl⟩ := hcr
    have hr := h.crash hs
    refine ⟨fun q => ?_, hr.tplLog ▸ .crash k⟩
    by_cases hq : q < n
    · rw [hr.log q hq]
      exact .crash (kept q)
    · rw [hr.outside q (Nat.le_of_not_lt hq)]
      exact (Jnl.Live.same _).step
  · have hl := lives_of_step hs fun k kept hk => hcr ⟨k, kept, hk⟩
    exact ⟨fun q => (hl.queue q).step, hl.tpl.step⟩

structure Keeps (s s' : TxnSys) : Prop where
  queue : ∀ q, ∀ p ∈ (s.queues q).durable, p ∈ (s'.queues q).durable
  tpl : ∀ p ∈ s.tpl.durable, p ∈ s'.tpl.durable

theorem Moves.keeps (h : Moves s s') : Keeps s s' :=
  ⟨fun q _ hp => ((h.queue q).durable.map DataRec.placed).subset hp,
    fun _ hp => (h.tpl.durable.map DataRec.placed).subset hp⟩

theorem Inv.keeps (h : s.Inv n) (hs : s.run n files tplFiles acts = some s') : Keeps s s' := by
  refine run_induct (P := Keeps s) h ⟨fun _ _ hp => hp, fun _ hp => hp⟩ ?_ hs
  intro s₁ s₂ a _ hi hk hstep
  have hm := (hi.moves hstep).keeps
  exact ⟨fun q p hp => hm.queue q p (hk.queue q p hp), fun p hp => hm.tpl p (hk.tpl p hp)⟩

def subject : TxnAct → Option Xid
  | .begin x _ => some x
  | .store _ w => some w.placed.jrec.xid
  | .call x _ => some x
  | .drop x => some x
  | .tplEnqueue x _ _ => some x
  | .prepareSynced x => some x
  | .completed x _ _ => some x
  | .completeSynced x => some x
  | .commitTxn x _ _ _ => some x
  | .commitTxnTpl x _ _ => some x
  | .returned _ _ => none
  | .returnedTpl _ => none
  | .crash _ _ => none

theorem ctxs_setCtx_of_ne {y : Xid} (h : x ≠ y) (c : Option TxnCtxt) : (s.setCtx y c).ctxs x = s.ctxs x := by
  simp [setCtx, h]

/-- A step that is about another transaction. -/
theorem SameFor.of_step (hs : s.step n files tplFiles a = some s') (ha : subject a ≠ some x)
    (hc : ∀ k kept, a ≠ .crash k kept) : SameFor s s' x := by
  have hsub : ∀ y, subject a = some y → y ≠ x := fun y hy hyx => ha (hyx ▸ hy)
  cases a with
  | begin y tpc =>
    obtain ⟨-, -, rfl⟩ := begin_ok hs
    exact .of_ctxs rfl rfl rfl (ctxs_setCtx_of_ne (hsub y rfl).symm _)
  | store q w =>
    have hne := hsub _ rfl
    simp only [TxnSys.step] at hs
    split at hs
    · obtain ⟨hop, j, hw, hcase⟩ := store_ok hs
      have hwr : ∀ q', update s.wrote q (s.wrote q ++ [w.placed]) q' =
          if q' = q ∧ w.placed.jrec.isOp = true then s.wrote q' ++ [w.placed] else s.wrote q' :=
        update_wrote hop
      rcases hcase with ⟨-, rfl⟩ | ⟨-, c, -, -, -, rfl⟩
      · exact .writeQueue hw rfl rfl hwr rfl hne
      · exact .writeQueue hw rfl rfl hwr (ctxs_setCtx_of_ne hne.symm _) hne
    · cases hs
  | call y commit =>
    obtain ⟨c, oc, -, -, rfl, -⟩ := call_ok hs
    exact .of_ctxs rfl rfl rfl (ctxs_setCtx_of_ne (hsub y rfl).symm _)
  | drop y =>
    obtain ⟨c, -, -, -, rfl⟩ := drop_ok hs
    exact .of_ctxs rfl rfl rfl (ctxs_setCtx_of_ne (hsub y rfl).symm _)
  | tplEnqueue y rid fid =>
    obtain ⟨c, s₀, j, -, -, -, hsync, hw, rfl⟩ := tplEnqueue_ok hs
    have hne := hsub y rfl
    exact (hsync.sameFor x).trans (.writeTpl hw rfl rfl rfl (ctxs_setCtx_of_ne hne.symm _) hne)
  | prepareSynced y =>
    obtain ⟨c, s₀, -, -, hsync, rfl⟩ := prepareSynced_ok hs
    exact (hsync.sameFor x).trans (.of_ctxs rfl rfl rfl (ctxs_setCtx_of_ne (hsub y rfl).symm _))
  | completed y rid fid =>
    have hne := hsub y rfl
    obtain ⟨c, commit, -, -, ⟨erid, j, -, -, hw, rfl⟩ | ⟨-, -, -, rfl⟩⟩ := completed_ok hs
    · exact .writeTpl hw rfl rfl rfl (ctxs_setCtx_of_ne hne.symm _) hne
    · exact .of_ctxs rfl rfl rfl (ctxs_setCtx_of_ne hne.symm _)
  | completeSynced y =>
    obtain ⟨c, s₀, -, -, hsync, rfl⟩ := completeSynced_ok hs
    exact (hsync.sameFor x).trans (.of_ctxs rfl rfl rfl (ctxs_setCtx_of_ne (hsub y rfl).symm _))
  | commitTxn y q rid fid =>
    have hne := hsub y rfl
    simp only [TxnSys.step] at hs
    split at hs
    · obtain ⟨c, todo, commit, s₀, j, -, -, -, -, hsync, hw, rfl⟩ := commitTxn_ok hs
      refine (hsync.sameFor x).trans
        (.writeQueue hw rfl rfl (fun q' => ?_) (ctxs_setCtx_of_ne hne.symm _) (by rwa [xid_close]))
      rw [if_neg fun hc => by rw [isOp_close] at hc; cases hc.2]
      rfl
    · cases hs
  | commitTxnTpl y rid fid =>
    have hne := hsub y rfl
    obtain ⟨c, commit, s₀, -, -, -, hsync, ⟨j, -, hw, rfl⟩ | ⟨-, rfl⟩⟩ := commitTxnTpl_ok hs
    · exact (hsync.sameFor x).trans
        (.writeTpl hw rfl rfl rfl (ctxs_setCtx_of_ne hne.symm _) (by rwa [xid_close]))
    · exact (hsync.sameFor x).trans (.of_ctxs rfl rfl rfl (ctxs_setCtx_of_ne hne.symm _))
  | returned q rid =>
    obtain rfl := returned_ok hs
    exact .returned s q rid x
  | returnedTpl rid =>
    obtain rfl := returnedTpl_ok hs
    exact .returnedTpl s rid x
  | crash k kept => exact absurd rfl (hc k kept)

/-- A step about a transaction that is not there begins it. -/
theorem ctxt_of_step (hs : s.step n files tplFiles a = some s') (hx : x ≠ []) (ha : subject a = some x) :
    (∃ tpc, a = .begin x tpc) ∨ s.ctxs x ≠ none := by
  have some_of : ∀ y c, s.ctxs y = some c → some y = some x → (∃ tpc, a = .begin x tpc) ∨ s.ctxs x ≠ none := by
    intro y c hc hyx
    cases hyx
    rw [hc]
    exact .inr (Option.some_ne_none c)
  cases a with
  | begin y tpc =>
    cases ha
    exact .inl ⟨tpc, rfl⟩
  | store q w =>
    simp only [TxnSys.step] at hs
    split at hs
    · obtain ⟨-, j, -, ⟨hnil, -⟩ | ⟨-, c, hc, -⟩⟩ := store_ok hs
      · exact absurd ((Option.some.inj ha).symm.trans hnil) hx
      · exact some_of _ c hc ha
    · cases hs
  | call y commit =>
    obtain ⟨c, oc, hc, -⟩ := call_ok hs
    exact some_of y c hc ha
  | drop y =>
    obtain ⟨c, hc, -⟩ := drop_ok hs
    exact some_of y c hc ha
  | tplEnqueue y rid fid =>
    obtain ⟨c, s₀, j, hc, -⟩ := tplEnqueue_ok hs
    exact some_of y c hc ha
  | prepareSynced y =>
    obtain ⟨c, s₀, hc, -⟩ := prepareSynced_ok hs
    exact some_of y c hc ha
  | completed y rid fid =>
    obtain ⟨c, commit, hc, -⟩ := completed_ok hs
    exact some_of y c hc ha
  | completeSynced y =>
    obtain ⟨c, s₀, hc, -⟩ := completeSynced_ok hs
    exact some_of y c hc ha
  | commitTxn y q rid fid =>
    simp only [TxnSys.step] at hs
    split at hs
    · obtain ⟨c, todo, commit, s₀, j, hc, -⟩ := commitTxn_ok hs
      exact some_of y c hc ha
    · cases hs
  | commitTxnTpl y rid fid =>
    obtain ⟨c, commit, s₀, hc, -⟩ := commitTxnTpl_ok hs
    exact some_of y c hc ha
  | returned q rid => cases ha
  | returnedTpl rid => cases ha
  | crash k kept => cases ha

structure Notes (s s' : TxnSys) (a : TxnAct) : Prop where
  wrote : (∀ q w, a ≠ .store q w) → s'.wrote = s.wrote
  begun : ∀ y ∈ s.begun, y ∈ s'.begun
  called : ∀ e ∈ s.called, e ∈ s'.called
  rolled : (∀ k kept, a ≠ .crash k kept) → s'.rolled = s.rolled

theorem Notes.of_eq (hw : s'.wrote = s.wrote) (hb : s'.begun = s.begun) (hc : s'.called = s.called)
    (hr : s'.rolled = s.rolled) : Notes s s' a :=
  ⟨fun _ => hw, fun _ hy => hb ▸ hy, fun _ he => hc ▸ he, fun _ => hr⟩

theorem Inv.notes (h : s.Inv n) (hs : s.step n files tplFiles a = some s') : Notes s s' a := by
  cases a with
  | begin y tpc =>
    obtain ⟨-, -, rfl⟩ := begin_ok hs
    exact ⟨fun _ => rfl, fun _ hy => List.mem_cons_of_mem y hy, fun _ he => he, fun _ => rfl⟩
  | store q w =>
    simp only [TxnSys.step] at hs
    split at hs
    · obtain ⟨-, j, -, ⟨-, rfl⟩ | ⟨-, c, -, -, -, rfl⟩⟩ := store_ok hs
      · exact ⟨fun ha => absurd rfl (ha q w), fun _ hy => hy, fun _ he => he, fun _ => rfl⟩
      · exact ⟨fun ha => absurd rfl (ha q w), fun _ hy => hy, fun _ he => he, fun _ => rfl⟩
    · cases hs
  | call y commit =>
    obtain ⟨c, oc, -, -, rfl, -⟩ := call_ok hs
    exact ⟨fun _ => rfl, fun _ hy => hy, fun _ he => List.mem_cons_of_mem _ he, fun _ => rfl⟩
  | drop y =>
    obtain ⟨c, -, -, -, rfl⟩ := drop_ok hs
    exact .of_eq rfl rfl rfl rfl
  | tplEnqueue y rid fid =>
    obtain ⟨c, s₀, j, -, -, -, hsync, -, rfl⟩ := tplEnqueue_ok hs
    exact .of_eq hsync.wrote hsync.begun hsync.called hsync.rolled
  | prepareSynced y =>
    obtain ⟨c, s₀, -, -, hsync, rfl⟩ := prepareSynced_ok hs
    exact .of_eq hsync.wrote hsync.begun hsync.called hsync.rolled
  | completed y rid fid =>
    obtain ⟨c, commit, -, -, ⟨erid, j, -, -, -, rfl⟩ | ⟨-, -, -, rfl⟩⟩ := completed_ok hs
    · exact .of_eq rfl rfl rfl rfl
    · exact .of_eq rfl rfl rfl rfl
  | completeSynced y =>
    obtain ⟨c, s₀, -, -, hsync, rfl⟩ := completeSynced_ok hs
    exact .of_eq hsync.wrote hsync.begun hsync.called hsync.rolled
  | commitTxn y q rid fid =>
    simp only [TxnSys.step] at hs
    split at hs
    · obtain ⟨c, todo, commit, s₀, j, -, -, -, -, hsync, -, rfl⟩ := commitTxn_ok hs
      exact .of_eq hsync.wrote hsync.begun hsync.called hsync.rolled
    · cases hs
  | commitTxnTpl y rid fid =>
    obtain ⟨c, commit, s₀, -, -, -, hsync, ⟨j, -, -, rfl⟩ | ⟨-, rfl⟩⟩ := commitTxnTpl_ok hs
    · exact .of_eq hsync.wrote hsync.begun hsync.called hsync.rolled
    · exact .of_eq hsync.wrote hsync.begun hsync.called hsync.rolled
  | returned q rid =>
    obtain rfl := returned_ok hs
    exact .of_eq rfl rfl rfl rfl
  | returnedTpl rid =>
    obtain rfl := returnedTpl_ok hs
    exact .of_eq rfl rfl rfl rfl
  | crash k kept =>
    have hr := h.crash hs
    exact ⟨fun _ => hr.wrote, fun _ hy => hr.begun ▸ hy, fun _ he => hr.called ▸ he, fun ha => absurd rfl (ha k kept)⟩

theorem Inv.wrote_of_step (h : s.Inv n) (hs : s.step n files tplFiles a = some s') (hx : x ≠ [])
    (hna : ∀ c, s.ctxs x = some c → c.phase ≠ .active) {q : Nat} {p : Placed} (hp : p ∈ s'.wrote q)
    (hpx : p.jrec.xid = x) : p ∈ s.wrote q := by
  by_cases ha : ∃ q' w, a = .store q' w
  · obtain ⟨q', w, rfl⟩ := ha
    by_cases hw : w.placed.jrec.xid = x
    · simp only [TxnSys.step] at hs
      split at hs
      · obtain ⟨-, j, -, ⟨hnil, -⟩ | ⟨-, c, hc, hph, -⟩⟩ := store_ok hs
        · exact absurd (hw.symm.trans hnil) hx
        · exact absurd hph (hna c (hw ▸ hc))
      · cases hs
    · have hne : subject (.store q' w) ≠ some x := fun hy => hw (Option.some.inj hy)
      exact ((SameFor.of_step hs hne fun _ _ hc => by cases hc).wrote q p hpx).mp hp
  · rwa [(h.notes hs).wrote fun q' w hw => ha ⟨q', w, hw⟩] at hp

/-- Whatever a crash leaves of what is not durable, in the middle of whatever: the journals are recovered
without an exception.
It makes a context for each transaction that is open in the TPL, with just the queues that the
transaction is open in, and no other transaction is open in any queue. -/
theorem crash_recovers (hrun : (init files tplFiles).run n files tplFiles acts = some s) (tplKept : Nat)
    (kept : Nat → Nat) : ∃ s', s.step n files tplFiles (.crash tplKept kept) = some s' ∧
      (∀ x, (s'.ctxs x).isSome ↔ tplState x (s.tpl.log.crash tplKept).recs ≠ .absent) ∧
      (∀ x c, s'.ctxs x = some c → ∀ q, q ∈ c.impactedQueues ↔ (s'.queues q).maps.view.opn x ≠ []) ∧
      ∀ x, s'.ctxs x = none → ∀ q < n, (s'.queues q).maps.view.opn x = [] := by
  have h := (Inv.init n files tplFiles).run hrun
  obtain ⟨s', hs, hr⟩ := h.crash_isSome files tplFiles tplKept kept
  refine ⟨s', hs, fun x => ?_, fun x c hc q => ?_, fun x hx q hq => hr.opn q hq x hx⟩
  · rw [hr.ctxs x, hr.tplLog, Option.isSome_map]
    cases tplState x (s.tpl.log.crash tplKept).recs with
    | absent => simp [TplState.recovered]
    | enqueued rid tpc => simp [TplState.recovered]
    | dequeued rid tpc b => simp [TplState.recovered]
  · have hsome : (s'.ctxs x).isSome := by
      rw [hc]
      rfl
    have hi : c.impactedQueues = openQueues n s'.queues x := by
      have hcx := hr.ctxs x
      rw [hc] at hcx
      obtain ⟨t, -, rfl⟩ := Option.map_eq_some_iff.mp hcx.symm
      rfl
    rw [hi, hr.mem_openQueues h.logs hsome, ((hr.logsOk h.logs).sound q).opn x hsome]

/-- A message of queue 0 is moved to queue 1, in a transaction whose commit is interrupted between
the two queues, and goes on after the restart. -/
def interrupted : List TxnAct :=
  [.store 0 ⟨⟨.enq 1 [] 1 false false, 0⟩, []⟩, .begin [1] false, .store 0 ⟨⟨.deq 2 1 [1] false, 0⟩, []⟩,
    .store 1 ⟨⟨.enq 3 [1] 1 false false, 0⟩, []⟩, .call [1] true, .returned 1 3, .returned 0 2,
    .tplEnqueue [1] 4 0, .returnedTpl 4, .prepareSynced [1], .completed [1] 5 0, .returnedTpl 5, .completeSynced [1],
    .commitTxn [1] 0 6 0, .crash 0 fun _ => 0, .completeSynced [1], .commitTxn [1] 0 6 0, .returned 0 6,
    .commitTxn [1] 1 7 0, .returned 1 7]

theorem interrupted_recovers : ∃ s, (init 2 2).run 2 2 2 interrupted = some s ∧
    ∃ s', s.step 2 2 2 (.crash 0 fun _ => 0) = some s' ∧
      (∀ x, (s'.ctxs x).isSome ↔ tplState x (s.tpl.log.crash 0).recs ≠ .absent) ∧
      (∀ x c, s'.ctxs x = some c → ∀ q, q ∈ c.impactedQueues ↔ (s'.queues q).maps.view.opn x ≠ []) ∧
      ∀ x, s'.ctxs x = none → ∀ q < 2, (s'.queues q).maps.view.opn x = [] := by
  have hsome : ((init 2 2).run 2 2 2 interrupted).isSome := by decide +kernel
  obtain ⟨s, hs⟩ := Option.isSome_iff_exists.mp hsome
  exact ⟨s, hs, crash_recovers hs 0 fun _ => 0⟩

end TxnSys

end RhmStore
