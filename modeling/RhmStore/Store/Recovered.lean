import RhmStore.Store.Given

/-! # What a recovery makes of the transactions

When `recover` is done each transaction has been applied in all its queues or in none, and which of
the two is decided in the TPL. -/

namespace RhmStore

open Function

namespace TxnSys

variable {n files tplFiles tplKept : Nat} {kept : Nat → Nat} {s s₁ s₂ s₃ : TxnSys} {x : Xid}
  {acts loop acts' : List TxnAct}

/-- All operations of the transaction are in the journals of their queues, and committed there. -/
def Applied (s : TxnSys) (x : Xid) : Prop :=
  ∀ q, ∀ p ∈ s.wrote q, p.jrec.xid = x → p ∈ (s.queues q).recs ∧ Commits x (s.queues q).recs

def Unapplied (s : TxnSys) (x : Xid) : Prop := ∀ q, ¬Commits x (s.queues q).recs

/-- All operations of the transaction are open in the maps of their queues. -/
def Open (s : TxnSys) (x : Xid) : Prop :=
  ∀ q, ∀ p ∈ s.wrote q, p.jrec.xid = x → ∀ td ∈ p.entry x, td ∈ (s.queues q).maps.view.opn x

/-- The queues have enqueued what the operations say that were ever written to them: those outside of
transactions that were not lost, and those of the transactions with the outcome commit. -/
def Content (s : TxnSys) : Prop := ∀ q r, (s.queues q).maps.emap.isEnqueued r true = true ↔
  (∃ p ∈ s.wrote q, p.jrec.Enqueues r ∧ s.Effective q p) ∧ ¬∃ p ∈ s.wrote q, p.jrec.Dequeues r ∧ s.Effective q p

theorem Inv.none_of_decides (h : s.Inv n) (hdone : s.LoopDone) {b : Bool} (hd : Decides x b s.tpl.recs) :
    s.ctxs x = none := by
  by_contra hsome
  obtain ⟨c, hc⟩ := Option.ne_none_iff_exists'.mp hsome
  obtain ⟨htpc, hp⟩ := hdone x c hc
  obtain ⟨rid, hst⟩ := (h.enqueued_iff x true).mpr ⟨c, hc, htpc, .inr hp⟩
  have hfit := h.logs.once.fits x
  rw [hst] at hfit
  exact hfit.2.1 b hd

theorem Inv.applied (h : s.Inv n) (hdone : s.LoopDone) (hd : Decides x true s.tpl.recs) : s.Applied x := by
  intro q p hp hpx
  obtain ⟨hm, hc⟩ := h.committed_of_decides hd (h.none_of_decides hdone hd) q hp hpx
  exact ⟨Jnl.durable_subset _ hm, hc.mono fun _ _ hm => Jnl.durable_subset _ hm⟩

theorem Inv.unapplied (h : s.Inv n) (hx : x ≠ []) (hd : ¬Decides x true s.tpl.recs) : s.Unapplied x := by
  intro q hc
  exact hd (((h.xids x hx).commits q hc).mono fun _ _ hm => Jnl.durable_subset _ hm)

theorem Inv.content (h : s.Inv n) (hdone : s.LoopDone) : s.Content := fun q r =>
  h.isEnqueued_iff q r fun _ _ _ hd => h.none_of_decides hdone hd

/-- What a recovery that is done has made of the transaction, by what it found in the TPL (`s₁`). -/
structure Settled (n files tplFiles : Nat) (s₁ s₂ : TxnSys) (x : Xid) : Prop where
  all_or_none : s₂.Applied x ∨ s₂.Unapplied x
  outcome : ∀ b, Decides x b s₁.tpl.recs → if b then s₂.Applied x else s₂.Unapplied x
  inDoubt : ∀ rid, tplState x s₁.tpl.log.recs = .enqueued rid true → ∀ acts s₃,
    s₂.run n files tplFiles acts = some s₃ → (∀ b, .call x b ∉ acts) → s₃.Unapplied x ∧ s₃.Open x

end TxnSys

end RhmStore
