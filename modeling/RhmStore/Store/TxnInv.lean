import RhmStore.Store.TxnJnl

/-! # What holds between the TPL and the queues

For each transaction: once its prepare is in the TPL all its operations are durable, a queue is told
of an outcome only after the TPL has it durable, and the TPL is told of the end of a commit only
after all queues have theirs durable. -/

namespace RhmStore

open Function

def TxnCtxt.pending (c : TxnCtxt) : List Nat :=
  match c.phase with
  | .closing todo => todo
  | _ => c.impactedQueues

namespace TxnSys

/-- The outcome `b` is decided: by a record of the TPL, or as the abort of a transaction that was
never prepared. -/
def Outcome (s : TxnSys) (x : Xid) (c : TxnCtxt) (b : Bool) : Prop :=
  c.commit = some b ∧
    ((∃ rid, c.tplRid = some rid ∧ tplState x s.tpl.log.recs = .dequeued rid c.tpc b) ∨
      c.tplRid = none ∧ b = false ∧ ¬Prepares x s.tpl.recs)

def PhaseOk (s : TxnSys) (x : Xid) (c : TxnCtxt) : Prop :=
  match c.phase with
  | .active => c.tplRid = none ∧ ¬Prepares x s.tpl.recs ∧ (∀ q, Unclosed x (s.queues q).recs) ∧
      (∀ q, ∀ p ∈ s.wrote q, p.jrec.xid = x → p ∈ (s.queues q).recs) ∧
      (c.tpc = true → c.commit ≠ some true)
  | .preparing => (∃ rid, c.tplRid = some rid ∧ tplState x s.tpl.log.recs = .enqueued rid c.tpc) ∧
      (∀ q, Unclosed x (s.queues q).recs) ∧ c.commit.isSome = !c.tpc
  | .prepared => (∃ rid, c.tplRid = some rid ∧ tplState x s.tpl.log.recs = .enqueued rid c.tpc) ∧
      ∀ q, Unclosed x (s.queues q).recs
  | .decided => ∃ b, s.Outcome x c b
  | .closing _ => ∃ b, s.Outcome x c b ∧ (c.tplRid ≠ none → Decides x b s.tpl.durable)

structure CtxtOk (s : TxnSys) (x : Xid) (c : TxnCtxt) : Prop where
  nodup : c.pending.Nodup ∧ c.impactedQueues.Nodup
  sub : ∀ q ∈ c.pending, q ∈ c.impactedQueues
  pending : ∀ q, openEntries x (s.queues q).recs ≠ [] → q ∈ c.pending
  unclosed : ∀ q ∈ c.pending, Unclosed x (s.queues q).recs
  told : ∀ q, Commits x (s.queues q).recs → q ∈ c.impactedQueues ∨ Commits x (s.queues q).durable
  phase : s.PhaseOk x c

structure XidOk (s : TxnSys) (x : Xid) : Prop where
  kept : Prepares x s.tpl.recs → ∀ q, ∀ p ∈ s.wrote q, p.jrec.xid = x → p ∈ (s.queues q).durable
  commits : ∀ q, Commits x (s.queues q).recs → Decides x true s.tpl.durable
  aborts : ∀ q, Aborts x (s.queues q).recs → Decides x false s.tpl.durable ∨ ¬Prepares x s.tpl.recs
  closed : Commits x s.tpl.recs → ∀ q, ∀ p ∈ s.wrote q, p.jrec.xid = x → Commits x (s.queues q).durable
  gone : s.ctxs x = none → tplState x s.tpl.log.recs = .absent
  ctxt : ∀ c, s.ctxs x = some c → s.CtxtOk x c

structure LogsOk (n : Nat) (s : TxnSys) : Prop where
  once : TplOnce s.tpl.log.recs
  tplMaps : TplMaps false s.tpl.maps s.tpl.log.recs
  sound : ∀ q, (s.queues q).Sound fun x => (s.ctxs x).isSome
  outside : ∀ q, n ≤ q → (s.queues q).recs = [] ∧ s.wrote q = [] ∧ ∀ x, (s.queues q).maps.view.opn x = []
  logged : ∀ q, ∀ p ∈ (s.queues q).recs, p.jrec.isOp = true → p ∈ s.wrote q
  operation : ∀ q, ∀ p ∈ s.wrote q, p.jrec.isOp = true
  nonempty : ∀ x c, s.ctxs x = some c → x ≠ [] ∧ x ∈ s.begun
  named : ∀ q p, p ∈ (s.queues q).recs ∨ p ∈ s.wrote q → p.jrec.xid = [] ∨ p.jrec.xid ∈ s.begun
  tplNamed : ∀ p ∈ s.tpl.recs, p.jrec.xid ∈ s.begun
  opnNamed : ∀ q x, (s.queues q).maps.view.opn x ≠ [] → x ∈ s.begun

/-- The invariant of the store. -/
structure Inv (n : Nat) (s : TxnSys) : Prop where
  logs : s.LogsOk n
  xids : ∀ x, x ≠ [] → s.XidOk x

structure SameFor (s s' : TxnSys) (x : Xid) : Prop where
  ctxt : s'.ctxs x = s.ctxs x
  recs : ∀ q p, p.jrec.xid = x → (p ∈ (s'.queues q).recs ↔ p ∈ (s.queues q).recs)
  opn : ∀ q, openEntries x (s'.queues q).recs = openEntries x (s.queues q).recs
  durable : ∀ q p, p.jrec.xid = x → p ∈ (s.queues q).durable → p ∈ (s'.queues q).durable
  wrote : ∀ q p, p.jrec.xid = x → (p ∈ s'.wrote q ↔ p ∈ s.wrote q)
  tpl : ∀ p, p.jrec.xid = x → (p ∈ s'.tpl.recs ↔ p ∈ s.tpl.recs)
  tplDurable : ∀ p, p.jrec.xid = x → p ∈ s.tpl.durable → p ∈ s'.tpl.durable
  tplState : tplState x s'.tpl.log.recs = tplState x s.tpl.log.recs

variable {s s' : TxnSys} {x : Xid}

namespace SameFor

theorem trans {s₀ : TxnSys} (h : SameFor s s₀ x) (h' : SameFor s₀ s' x) : SameFor s s' x :=
  ⟨h'.ctxt.trans h.ctxt, fun q p hp => (h'.recs q p hp).trans (h.recs q p hp), fun q => (h'.opn q).trans (h.opn q),
    fun q p hp hm => h'.durable q p hp (h.durable q p hp hm), fun q p hp => (h'.wrote q p hp).trans (h.wrote q p hp),
    fun p hp => (h'.tpl p hp).trans (h.tpl p hp), fun p hp hm => h'.tplDurable p hp (h.tplDurable p hp hm),
    h'.tplState.trans h.tplState⟩

theorem forth (h : SameFor s s' x) (q : Nat) :
    ∀ p : Placed, p.jrec.xid = x → p ∈ (s.queues q).recs → p ∈ (s'.queues q).recs :=
  fun p hp hm => (h.recs q p hp).mpr hm

theorem back (h : SameFor s s' x) (q : Nat) :
    ∀ p : Placed, p.jrec.xid = x → p ∈ (s'.queues q).recs → p ∈ (s.queues q).recs :=
  fun p hp hm => (h.recs q p hp).mp hm

theorem prepares (h : SameFor s s' x) : Prepares x s'.tpl.recs ↔ Prepares x s.tpl.recs :=
  ⟨Prepares.mono fun p hp hm => (h.tpl p hp).mp hm, Prepares.mono fun p hp hm => (h.tpl p hp).mpr hm⟩

theorem decides (h : SameFor s s' x) {b : Bool} (hd : Decides x b s.tpl.durable) :
    Decides x b s'.tpl.durable := Decides.mono h.tplDurable hd

theorem outcome (h : SameFor s s' x) {c : TxnCtxt} {b : Bool} (ho : s.Outcome x c b) : s'.Outcome x c b := by
  unfold Outcome at ho ⊢
  rwa [h.tplState, h.prepares]

theorem phaseOk (h : SameFor s s' x) {c : TxnCtxt} (hc : s.PhaseOk x c) : s'.PhaseOk x c := by
  unfold PhaseOk at hc ⊢
  split
  · rename_i hp
    simp only [hp] at hc
    obtain ⟨hr, hprep, hun, hw, ht⟩ := hc
    refine ⟨hr, fun hn => hprep (h.prepares.mp hn), fun q => (hun q).mono (h.back q), ?_, ht⟩
    intro q p hm hpx
    exact h.forth q p hpx (hw q p ((h.wrote q p hpx).mp hm) hpx)
  · rename_i hp
    simp only [hp] at hc
    rw [h.tplState]
    exact ⟨hc.1, fun q => (hc.2.1 q).mono (h.back q), hc.2.2⟩
  · rename_i hp
    simp only [hp] at hc
    rw [h.tplState]
    exact ⟨hc.1, fun q => (hc.2 q).mono (h.back q)⟩
  · rename_i hp
    simp only [hp] at hc
    obtain ⟨b, ho⟩ := hc
    exact ⟨b, h.outcome ho⟩
  · rename_i hp
    simp only [hp] at hc
    obtain ⟨b, ho, hd⟩ := hc
    exact ⟨b, h.outcome ho, fun hr => h.decides (hd hr)⟩

theorem ctxtOk (h : SameFor s s' x) {c : TxnCtxt} (hc : s.CtxtOk x c) : s'.CtxtOk x c := by
  refine ⟨hc.nodup, hc.sub, fun q ho => ?_, fun q hq => (hc.unclosed q hq).mono (h.back q), fun q hm => ?_,
    h.phaseOk hc.phase⟩
  · rw [h.opn q] at ho
    exact hc.pending q ho
  · rcases hc.told q (Commits.mono (h.back q) hm) with hq | hd
    · exact .inl hq
    · exact .inr (Commits.mono (h.durable q) hd)

/-- A transaction that nothing has changed for. -/
theorem xidOk (h : SameFor s s' x) (hx : s.XidOk x) : s'.XidOk x := by
  refine ⟨?_, ?_, ?_, ?_, ?_, ?_⟩
  · intro hp q p hm hpx
    exact h.durable q p hpx (hx.kept (h.prepares.mp hp) q p ((h.wrote q p hpx).mp hm) hpx)
  · intro q hm
    exact h.decides (hx.commits q (Commits.mono (h.back q) hm))
  · intro q hm
    rcases hx.aborts q (Aborts.mono (h.back q) hm) with hd | hn
    · exact .inl (h.decides hd)
    · exact .inr fun hp => hn (h.prepares.mp hp)
  · intro hc q p hm hpx
    have hc' : Commits x s.tpl.recs := Commits.mono (fun p hp hm => (h.tpl p hp).mp hm) hc
    exact Commits.mono (h.durable q) (hx.closed hc' q p ((h.wrote q p hpx).mp hm) hpx)
  · intro hn
    rw [h.tplState]
    exact hx.gone (h.ctxt ▸ hn)
  · intro c hc
    exact h.ctxtOk (hx.ctxt c (h.ctxt ▸ hc))

end SameFor

end TxnSys

end RhmStore
