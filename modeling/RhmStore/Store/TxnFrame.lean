import RhmStore.Store.TxnInv

/-! # What a step leaves as it was -/

namespace RhmStore

open Function

namespace TxnSys

variable {n : Nat} {s s' : TxnSys} {x : Xid}

theorem SameFor.of_ctxs (hq : s'.queues = s.queues) (ht : s'.tpl = s.tpl) (hw : s'.wrote = s.wrote)
    (hc : s'.ctxs x = s.ctxs x) : SameFor s s' x := by
  refine ⟨hc, ?_, ?_, ?_, ?_, ?_, ?_, ?_⟩
  · simp [hq]
  · simp [hq]
  · simp [hq]
  · simp [hw]
  · simp [ht]
  · simp [ht]
  · simp [ht]

theorem Inv.setCtxt (h : s.Inv n) {o : Option TxnCtxt} (hq : s'.queues = s.queues) (ht : s'.tpl = s.tpl)
    (hw : s'.wrote = s.wrote) (hc : s'.ctxs = update s.ctxs x o) (hb : ∀ y ∈ s.begun, y ∈ s'.begun)
    (hx : x ≠ []) (hxb : x ∈ s'.begun)
    (hlive : o.isSome → (s.ctxs x).isSome ∨
      ∀ q, (s.queues q).maps.view.opn x = openEntries x (s.queues q).recs)
    (hgone : o = none → tplState x s.tpl.log.recs = .absent)
    (hctxt : ∀ c, o = some c → s.CtxtOk x c) : s'.Inv n := by
  have hne : ∀ y, y ≠ x → s'.ctxs y = s.ctxs y := fun y hy => by rw [hc, update_of_ne hy]
  have heq : s'.ctxs x = o := by rw [hc, update_self]
  have hsame : ∀ y, y ≠ x → SameFor s s' y := fun y hy => .of_ctxs hq ht hw (hne y hy)
  have hl := h.logs
  refine ⟨⟨ht ▸ hl.once, ht ▸ hl.tplMaps, ?_, ?_, ?_, ?_, ?_, ?_, ?_, ?_⟩, fun y hy => ?_⟩
  · intro q
    rw [hq]
    have hs := hl.sound q
    refine ⟨hs.orderly, hs.enq, fun y hy => ?_⟩
    by_cases hyx : y = x
    · subst hyx
      rw [heq] at hy
      rcases hlive hy with hsome | hopn
      · exact hs.opn y hsome
      · exact hopn q
    · rw [hne y hyx] at hy
      exact hs.opn y hy
  · intro q hqn
    rw [hq, hw]
    exact hl.outside q hqn
  · intro q p hp
    rw [hq] at hp
    rw [hw]
    exact hl.logged q p hp
  · intro q p hp
    rw [hw] at hp
    exact hl.operation q p hp
  · intro y c hyc
    by_cases hyx : y = x
    · subst hyx
      exact ⟨hx, hxb⟩
    · rw [hne y hyx] at hyc
      obtain ⟨hy, hyb⟩ := hl.nonempty y c hyc
      exact ⟨hy, hb y hyb⟩
  · intro q p hp
    rw [hq, hw] at hp
    exact (hl.named q p hp).imp_right fun hm => hb _ hm
  · intro p hp
    rw [ht] at hp
    exact hb _ (hl.tplNamed p hp)
  · intro q y hy
    rw [hq] at hy
    exact hb _ (hl.opnNamed q y hy)
  · by_cases hyx : y = x
    · subst hyx
      have hok := h.xids y hy
      refine ⟨?_, ?_, ?_, ?_, ?_, ?_⟩
      · rw [ht, hq, hw]
        exact hok.kept
      · rw [ht, hq]
        exact hok.commits
      · rw [ht, hq]
        exact hok.aborts
      · rw [ht, hq, hw]
        exact hok.closed
      · intro hn
        rw [ht]
        exact hgone (heq ▸ hn)
      · intro c hyc
        have hcok := hctxt c (heq ▸ hyc)
        refine ⟨hcok.nodup, hcok.sub, ?_, ?_, ?_, ?_⟩
        · rw [hq]
          exact hcok.pending
        · rw [hq]
          exact hcok.unclosed
        · rw [hq]
          exact hcok.told
        · have hp := hcok.phase
          unfold PhaseOk Outcome at hp ⊢
          rw [hq, ht, hw]
          exact hp
    · exact (hsame y hyx).xidOk (h.xids y hy)

/-- A record more in the journal of a queue is nothing to the other transactions. -/
theorem SameFor.writeQueue {q : Nat} {w : DataRec} {j : Jnl} (hw : (s.queues q).write w = some j)
    (hqs : s'.queues = update s.queues q j) (ht : s'.tpl = s.tpl)
    (hwr : ∀ q', s'.wrote q' = if q' = q ∧ w.placed.jrec.isOp = true then s.wrote q' ++ [w.placed] else s.wrote q')
    (hc : s'.ctxs x = s.ctxs x) (hx : w.placed.jrec.xid ≠ x) : SameFor s s' x := by
  have hrecs := Jnl.recs_write hw
  have hdur := Jnl.durable_write hw
  have hmem : ∀ (l : List Placed) (p : Placed), p.jrec.xid = x → (p ∈ l ++ [w.placed] ↔ p ∈ l) := by
    intro l p hp
    rw [List.mem_append, List.mem_singleton, or_iff_left]
    rintro rfl
    exact hx hp
  refine ⟨hc, fun q' p hp => ?_, fun q' => ?_, fun q' p _ hm => ?_, fun q' p hp => ?_, ?_, ?_, ?_⟩
  · rw [hqs]
    by_cases hq : q' = q
    · subst hq
      rw [update_self, hrecs, hmem _ _ hp]
    · rw [update_of_ne hq]
  · rw [hqs]
    by_cases hq : q' = q
    · subst hq
      rw [update_self, hrecs, openEntries_concat]
      have hcl : w.placed.jrec.closes x = false := by
        by_contra hne
        rw [Bool.not_eq_false] at hne
        exact hx (xid_of_closes hne)
      have hent : w.placed.entry x = [] := by
        by_contra hne
        obtain ⟨td, htd⟩ := List.exists_mem_of_ne_nil _ hne
        exact hx (mem_entry htd).2.1
      rw [hcl, if_neg Bool.false_ne_true, hent, List.append_nil]
    · rw [update_of_ne hq]
  · rw [hqs]
    by_cases hq : q' = q
    · subst hq
      rw [update_self, hdur]
      exact hm
    · rw [update_of_ne hq]
      exact hm
  · rw [hwr]
    split
    · exact hmem _ _ hp
    · exact Iff.rfl
  · simp [ht]
  · simp [ht]
  · simp [ht]

/-- A record is written to the journal of a queue, and `x`, its transaction if it has one, goes on. -/
theorem Inv.writeQueue (h : s.Inv n) {q : Nat} (hqn : q < n) {w : DataRec} {j : Jnl}
    (hw : (s.queues q).write w = some j) (hqs : s'.queues = update s.queues q j) (ht : s'.tpl = s.tpl)
    (hwr : ∀ q', s'.wrote q' = if q' = q ∧ w.placed.jrec.isOp = true then s.wrote q' ++ [w.placed] else s.wrote q')
    (hc : ∀ y, y ≠ w.placed.jrec.xid → s'.ctxs y = s.ctxs y)
    (hsome : ∀ y, (s'.ctxs y).isSome = (s.ctxs y).isSome) (hb : s'.begun = s.begun)
    (hxid : w.placed.jrec.xid ≠ [] →
      (s.ctxs w.placed.jrec.xid).isSome ∧ Unclosed w.placed.jrec.xid (s.queues q).recs)
    (hok : w.placed.jrec.xid ≠ [] → s'.XidOk w.placed.jrec.xid) : s'.Inv n := by
  have hl := h.logs
  have hrecs := Jnl.recs_write hw
  have hknown : w.placed.jrec.xid = [] ∨ w.placed.jrec.xid ∈ s.begun := by
    by_cases hnil : w.placed.jrec.xid = []
    · exact .inl hnil
    · obtain ⟨c, hcx⟩ := Option.isSome_iff_exists.mp (hxid hnil).1
      exact .inr (hl.nonempty _ c hcx).2
  have hlive : (fun y => ((s'.ctxs y).isSome : Prop)) = fun y => ((s.ctxs y).isSome : Prop) := by
    funext y
    rw [hsome y]
  have hrec' : ∀ q', (s'.queues q').recs = if q' = q then (s.queues q').recs ++ [w.placed]
      else (s.queues q').recs := by
    intro q'
    rw [hqs]
    by_cases hq : q' = q
    · subst hq
      rw [update_self, hrecs, if_pos rfl]
    · rw [update_of_ne hq, if_neg hq]
  refine ⟨⟨ht ▸ hl.once, ht ▸ hl.tplMaps, ?_, ?_, ?_, ?_, ?_, ?_, ?_, ?_⟩, fun y hy => ?_⟩
  · intro q'
    rw [hlive, hqs]
    by_cases hq : q' = q
    · subst hq
      rw [update_self]
      exact (hl.sound q').write hw hxid
    · rw [update_of_ne hq]
      exact hl.sound q'
  · intro q' hq'
    have hne : q' ≠ q := by omega
    rw [hrec', if_neg hne, hwr, if_neg fun hc => hne hc.1, hqs, update_of_ne hne]
    exact hl.outside q' hq'
  · intro q' p hp hop
    rw [hrec'] at hp
    rw [hwr]
    by_cases hq : q' = q
    · rw [if_pos hq] at hp
      rcases List.mem_append.mp hp with hp | hp
      · split
        · exact List.mem_append_left _ (hl.logged q' p hp hop)
        · exact hl.logged q' p hp hop
      · rw [List.mem_singleton] at hp
        subst hp
        rw [if_pos ⟨hq, hop⟩]
        exact List.mem_append_right _ (List.mem_singleton_self _)
    · rw [if_neg hq] at hp
      rw [if_neg fun hc => hq hc.1]
      exact hl.logged q' p hp hop
  · intro q' p hp
    rw [hwr] at hp
    split at hp
    · rename_i hop
      rcases List.mem_append.mp hp with hp | hp
      · exact hl.operation q' p hp
      · rw [List.mem_singleton.mp hp]
        exact hop.2
    · exact hl.operation q' p hp
  · intro y c hyc
    rw [hb]
    have hs := hsome y
    rw [hyc] at hs
    obtain ⟨c', hc'⟩ := Option.isSome_iff_exists.mp hs.symm
    exact hl.nonempty y c' hc'
  · intro q' p hp
    rw [hb]
    have hmem : p ∈ (s.queues q').recs ∨ p ∈ s.wrote q' ∨ p = w.placed := by
      rw [hrec', hwr] at hp
      rcases hp with hp | hp
      · split at hp
        · rcases List.mem_append.mp hp with hp | hp
          · exact .inl hp
          · exact .inr (.inr (List.mem_singleton.mp hp))
        · exact .inl hp
      · split at hp
        · rcases List.mem_append.mp hp with hp | hp
          · exact .inr (.inl hp)
          · exact .inr (.inr (List.mem_singleton.mp hp))
        · exact .inr (.inl hp)
    rcases hmem with hp | hp | rfl
    · exact hl.named q' p (.inl hp)
    · exact hl.named q' p (.inr hp)
    · exact hknown
  · intro p hp
    rw [ht] at hp
    rw [hb]
    exact hl.tplNamed p hp
  · intro q' y hy
    rw [hb]
    rw [hqs] at hy
    by_cases hq : q' = q
    · subst hq
      rw [update_self] at hy
      obtain ⟨-, -, m, hm, rfl⟩ := Jnl.write_ok hw
      obtain ⟨-, hcm⟩ := Maps.ok_perform hm
      have hview : m.view = (s.queues q').maps.view.apply w.placed.fid w.placed.jrec :=
        Maps.view_complete _ _ hcm
      change m.view.opn y ≠ [] at hy
      rw [hview, View.opn_apply] at hy
      by_cases hcl : w.placed.jrec.closes y = true
      · rw [if_pos hcl] at hy
        exact absurd rfl hy
      · rw [if_neg hcl] at hy
        by_cases hold : (s.queues q').maps.view.opn y = []
        · rw [hold, List.nil_append] at hy
          obtain ⟨td, htd⟩ := List.exists_mem_of_ne_nil _ hy
          have hent := mem_entry htd
          rcases hknown with hnil | hin
          · exact absurd (hent.2.1.symm.trans hnil) hent.2.2.2.1
          · rw [hent.2.1] at hin
            exact hin
        · exact hl.opnNamed q' y hold
    · rw [update_of_ne hq] at hy
      exact hl.opnNamed q' y hy
  · by_cases hyx : y = w.placed.jrec.xid
    · subst hyx
      exact hok hy
    · exact (SameFor.writeQueue hw hqs ht hwr (hc y hyx) (Ne.symm hyx)).xidOk (h.xids y hy)

/-- A record more in the TPL is nothing to the other transactions. -/
theorem SameFor.writeTpl {w : DataRec} {j : Jnl} (hw : s.tpl.write w = some j) (ht : s'.tpl = j)
    (hq : s'.queues = s.queues) (hwr : s'.wrote = s.wrote) (hc : s'.ctxs x = s.ctxs x)
    (hx : w.placed.jrec.xid ≠ x) : SameFor s s' x := by
  have hrecs := Jnl.recs_write hw
  have hdur := Jnl.durable_write hw
  obtain ⟨-, -, m, -, rfl⟩ := Jnl.write_ok hw
  refine ⟨hc, ?_, ?_, ?_, ?_, ?_, ?_, ?_⟩
  · simp [hq]
  · simp [hq]
  · simp [hq]
  · simp [hwr]
  · intro p hp
    rw [ht, hrecs, List.mem_append, List.mem_singleton, or_iff_left]
    rintro rfl
    exact hx hp
  · intro p _ hm
    rw [ht, hdur]
    exact hm
  · rw [ht]
    change RhmStore.tplState x (s.tpl.log.recs ++ [w]) = _
    rw [tplState_concat, TplState.next_of_ne _ hx]

/-- A record of the transaction `x` is written to the TPL. -/
theorem Inv.writeTpl (h : s.Inv n) {w : DataRec} {j : Jnl} {o : Option TxnCtxt}
    (hw : s.tpl.write w = some j) (hadd : TplAdds s.tpl.log.recs w) (honce : TplOnce (s.tpl.log.recs ++ [w]))
    (ht : s'.tpl = j) (hq : s'.queues = s.queues) (hwr : s'.wrote = s.wrote)
    (hc : s'.ctxs = update s.ctxs w.placed.jrec.xid o) (hb : s'.begun = s.begun)
    (hlive : (s.ctxs w.placed.jrec.xid).isSome) (hok : s'.XidOk w.placed.jrec.xid) : s'.Inv n := by
  have hl := h.logs
  have hrecs := Jnl.recs_write hw
  have hne : ∀ y, y ≠ w.placed.jrec.xid → s'.ctxs y = s.ctxs y := fun y hy => by rw [hc, update_of_ne hy]
  obtain ⟨c₀, hc₀⟩ := Option.isSome_iff_exists.mp hlive
  have hx := hl.nonempty _ c₀ hc₀
  have hjlog : j.log.recs = s.tpl.log.recs ++ [w] := by
    obtain ⟨-, -, m, -, rfl⟩ := Jnl.write_ok hw
    rfl
  refine ⟨⟨?_, ?_, ?_, ?_, ?_, ?_, ?_, ?_, ?_, ?_⟩, fun y hy => ?_⟩
  · rw [ht, hjlog]
    exact honce
  · rw [ht, hjlog]
    obtain ⟨-, -, m, hm, rfl⟩ := Jnl.write_ok hw
    exact hl.tplMaps.perform hl.once.hist hadd hm
  · intro q
    rw [hq]
    have hs := hl.sound q
    refine ⟨hs.orderly, hs.enq, fun y hy => hs.opn y ?_⟩
    by_cases hyx : y = w.placed.jrec.xid
    · subst hyx
      exact hlive
    · rwa [hne y hyx] at hy
  · intro q hqn
    rw [hq, hwr]
    exact hl.outside q hqn
  · intro q p hp
    rw [hq] at hp
    rw [hwr]
    exact hl.logged q p hp
  · intro q p hp
    rw [hwr] at hp
    exact hl.operation q p hp
  · intro y c hyc
    rw [hb]
    by_cases hyx : y = w.placed.jrec.xid
    · subst hyx
      exact hx
    · rw [hne y hyx] at hyc
      exact hl.nonempty y c hyc
  · intro q p hp
    rw [hq, hwr] at hp
    rw [hb]
    exact hl.named q p hp
  · intro p hp
    rw [ht, hrecs] at hp
    rw [hb]
    rcases List.mem_append.mp hp with hp | hp
    · exact hl.tplNamed p hp
    · rw [List.mem_singleton.mp hp]
      exact hx.2
  · intro q y hy
    rw [hq] at hy
    rw [hb]
    exact hl.opnNamed q y hy
  · by_cases hyx : y = w.placed.jrec.xid
    · subst hyx
      exact hok
    · exact (SameFor.writeTpl hw ht hq hwr (hne y hyx) (Ne.symm hyx)).xidOk (h.xids y hy)

theorem Inv.sameRecs (h : s.Inv n) (hr : ∀ q, (s'.queues q).recs = (s.queues q).recs)
    (hv : ∀ q, (s'.queues q).maps.view = (s.queues q).maps.view) (ht : s'.tpl.log.recs = s.tpl.log.recs)
    (hm : TplMaps false s'.tpl.maps s'.tpl.log.recs) (hw : s'.wrote = s.wrote) (hc : s'.ctxs = s.ctxs)
    (hb : s'.begun = s.begun) (hx : ∀ x, SameFor s s' x) : s'.Inv n := by
  have hl := h.logs
  have htr : s'.tpl.recs = s.tpl.recs := congrArg placeds ht
  refine ⟨⟨ht ▸ hl.once, hm, fun q => ?_, fun q hq => ?_, fun q p hp => ?_, hw ▸ hl.operation,
    fun x c hxc => ?_, fun q p hp => ?_, fun p hp => ?_, fun q y hy => ?_⟩,
    fun y hy => (hx y).xidOk (h.xids y hy)⟩
  · rw [hc]
    exact (hl.sound q).of_eq (hr q) (hv q)
  · rw [hr, hv, hw]
    exact hl.outside q hq
  · rw [hr] at hp
    rw [hw]
    exact hl.logged q p hp
  · rw [hc] at hxc
    rw [hb]
    exact hl.nonempty x c hxc
  · rw [hr, hw] at hp
    rw [hb]
    exact hl.named q p hp
  · rw [htr] at hp
    rw [hb]
    exact hl.tplNamed p hp
  · rw [hv] at hy
    rw [hb]
    exact hl.opnNamed q y hy

theorem SameFor.of_recs (hr : ∀ q, (s'.queues q).recs = (s.queues q).recs) (ht : s'.tpl.log.recs = s.tpl.log.recs)
    (hd : ∀ q, ∀ p ∈ (s.queues q).durable, p ∈ (s'.queues q).durable)
    (htd : ∀ p ∈ s.tpl.durable, p ∈ s'.tpl.durable) (hw : s'.wrote = s.wrote) (hc : s'.ctxs x = s.ctxs x) :
    SameFor s s' x := by
  have htr : s'.tpl.recs = s.tpl.recs := congrArg placeds ht
  refine ⟨hc, fun q p _ => ?_, fun q => ?_, fun q p _ hp => hd q p hp, fun q p _ => ?_, fun p _ => ?_,
    fun p _ hp => htd p hp, ?_⟩
  · rw [hr]
  · rw [hr]
  · rw [hw]
  · rw [htr]
  · rw [ht]

structure Syncs (s s₀ : TxnSys) : Prop where
  rest : s₀ = { s with queues := s₀.queues, tpl := s₀.tpl }
  queue : ∀ q, ∃ k, s₀.queues q = { s.queues q with log := (s.queues q).log.sync k }
  tpl : ∃ k, s₀.tpl = { s.tpl with log := s.tpl.log.sync k }

/-- What a `sync` of the transaction has changed, if there was one. -/
structure Synced (done : Bool) (s s₀ : TxnSys) (x : Xid) (c : TxnCtxt) : Prop extends Syncs s s₀ where
  kept : done = true → ∀ q ∈ c.impactedQueues, ∀ p ∈ (s₀.queues q).recs, p.jrec.xid = x → p ∈ (s₀.queues q).durable
  tplKept : done = true → c.tplRid ≠ none → ∀ p ∈ s₀.tpl.recs, p.jrec.xid = x → p ∈ s₀.tpl.durable
  synced : done = true → ∀ q ∈ c.impactedQueues, (s.queues q).isTxnSynced x = true
  tplSynced : done = true → c.tplRid ≠ none → s.tpl.isTxnSynced x = true

namespace Syncs

variable {s₀ : TxnSys}

theorem refl (s : TxnSys) : Syncs s s :=
  ⟨rfl, fun _ => ⟨0, by rw [Wal.sync_zero]⟩, 0, by rw [Wal.sync_zero]⟩

theorem ctxs (h : Syncs s s₀) : s₀.ctxs = s.ctxs := by
  rw [h.rest]

theorem wrote (h : Syncs s s₀) : s₀.wrote = s.wrote := by
  rw [h.rest]

theorem begun (h : Syncs s s₀) : s₀.begun = s.begun := by
  rw [h.rest]

theorem called (h : Syncs s s₀) : s₀.called = s.called := by
  rw [h.rest]

theorem rolled (h : Syncs s s₀) : s₀.rolled = s.rolled := by
  rw [h.rest]

theorem recs (h : Syncs s s₀) (q : Nat) : (s₀.queues q).recs = (s.queues q).recs := by
  obtain ⟨k, hk⟩ := h.queue q
  rw [hk]
  rfl

theorem maps (h : Syncs s s₀) (q : Nat) : (s₀.queues q).maps = (s.queues q).maps := by
  obtain ⟨k, hk⟩ := h.queue q
  rw [hk]

theorem tplLog (h : Syncs s s₀) : s₀.tpl.log.recs = s.tpl.log.recs := by
  obtain ⟨k, hk⟩ := h.tpl
  rw [hk]
  rfl

theorem tplRecs (h : Syncs s s₀) : s₀.tpl.recs = s.tpl.recs := congrArg placeds h.tplLog

theorem tplMaps (h : Syncs s s₀) : s₀.tpl.maps = s.tpl.maps := by
  obtain ⟨k, hk⟩ := h.tpl
  rw [hk]

theorem sameFor (h : Syncs s s₀) (y : Xid) : SameFor s s₀ y := by
  refine .of_recs h.recs h.tplLog (fun q p hp => ?_) (fun p hp => ?_) h.wrote (by rw [h.ctxs])
  · obtain ⟨k, hk⟩ := h.queue q
    rw [hk]
    exact Jnl.durable_sync _ k hp
  · obtain ⟨k, hk⟩ := h.tpl
    rw [hk]
    exact Jnl.durable_sync _ k hp

theorem inv (h : Syncs s s₀) (hi : s.Inv n) : s₀.Inv n := by
  refine hi.sameRecs h.recs (fun q => by rw [h.maps]) h.tplLog ?_ h.wrote h.ctxs h.begun h.sameFor
  rw [h.tplMaps, h.tplLog]
  exact hi.logs.tplMaps

end Syncs

theorem sync_ok {s₀ : TxnSys} {c : TxnCtxt} (h : s.sync x c = some s₀) : Synced true s s₀ x c := by
  unfold TxnSys.sync at h
  split at h
  · rename_i hg
    cases h
    refine ⟨⟨rfl, fun q => ?_, ?_⟩, fun _ q hq p hp hpx => ?_, fun _ hr p hp hpx => ?_, fun _ => hg.1,
      fun _ hr => hg.2 (Option.isSome_iff_ne_none.mpr hr)⟩
    · by_cases hq : q ∈ c.impactedQueues
      · simp only [if_pos hq]
        exact ⟨_, rfl⟩
      · simp only [if_neg hq]
        exact ⟨0, by rw [Wal.sync_zero]⟩
    · cases hr : c.tplRid.isSome with
      | true => exact ⟨_, rfl⟩
      | false => exact ⟨0, by simp⟩
    · simp only [if_pos hq] at hp ⊢
      exact Jnl.durable_waitedFor hp hpx
    · have hsome := Option.isSome_iff_ne_none.mpr hr
      simp only [if_pos hsome] at hp ⊢
      exact Jnl.durable_waitedFor hp hpx
  · cases h

theorem syncCommit_ok {s₀ : TxnSys} {c : TxnCtxt} {commit : Bool} (h : s.syncCommit commit x c = some s₀) :
    Synced commit s s₀ x c := by
  cases commit with
  | true => exact sync_ok h
  | false =>
    cases h
    have hno : ¬false = true := Bool.false_ne_true
    exact ⟨.refl s, fun hd => absurd hd hno, fun hd => absurd hd hno, fun hd => absurd hd hno,
      fun hd => absurd hd hno⟩

theorem recs_returned (s : TxnSys) (q rid q' : Nat) : ((s.returned q rid).queues q').recs = (s.queues q').recs := by
  by_cases hq : q' = q
  · subst hq
    simp [TxnSys.returned, setQueue]
  · simp [TxnSys.returned, setQueue, hq]

theorem durable_returned (s : TxnSys) (q rid q' : Nat) :
    ((s.returned q rid).queues q').durable = (s.queues q').durable := by
  by_cases hq : q' = q
  · subst hq
    simp [TxnSys.returned, setQueue, Jnl.durable]
  · simp [TxnSys.returned, setQueue, hq]

theorem view_returned (s : TxnSys) (q rid q' : Nat) :
    ((s.returned q rid).queues q').maps.view = (s.queues q').maps.view := by
  by_cases hq : q' = q
  · subst hq
    simp [TxnSys.returned, setQueue]
  · simp [TxnSys.returned, setQueue, hq]

theorem SameFor.returned (s : TxnSys) (q rid : Nat) (x : Xid) : SameFor s (s.returned q rid) x :=
  .of_recs (recs_returned s q rid) rfl (fun q' p hp => by rwa [durable_returned]) (fun _ hp => hp) rfl rfl

theorem Inv.returned (h : s.Inv n) (q rid : Nat) : (s.returned q rid).Inv n :=
  h.sameRecs (recs_returned s q rid) (view_returned s q rid) rfl h.logs.tplMaps rfl rfl rfl (SameFor.returned s q rid)

theorem SameFor.returnedTpl (s : TxnSys) (rid : Nat) (x : Xid) : SameFor s (s.returnedTpl rid) x := by
  refine .of_recs (fun _ => rfl) ?_ (fun _ _ hp => hp) (fun p hp => ?_) rfl rfl
  · simp [TxnSys.returnedTpl]
  · simpa [TxnSys.returnedTpl, Jnl.durable] using hp

theorem Inv.returnedTpl (h : s.Inv n) (rid : Nat) : (s.returnedTpl rid).Inv n := by
  have hlog : (s.returnedTpl rid).tpl.log.recs = s.tpl.log.recs := by simp [TxnSys.returnedTpl]
  refine h.sameRecs (fun _ => rfl) (fun _ => rfl) hlog ?_ rfl rfl rfl (SameFor.returnedTpl s rid)
  rw [hlog]
  exact h.logs.tplMaps.returned rid

end TxnSys

end RhmStore
