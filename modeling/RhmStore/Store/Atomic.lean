import RhmStore.Store.TxnRun

/-! # Transactions take effect in all queues or in none

What a queue has enqueued is what the operations say that were ever written to it, counting those of
the transactions that the TPL has committed. -/

namespace RhmStore

open Function

namespace TxnSys

variable {n files tplFiles : Nat} {s s' s₁ s₂ : TxnSys} {x : Xid} {a : TxnAct} {acts acts' : List TxnAct}

/-- Outside of transactions an operation takes effect unless a crash has lost it, in a transaction
if the TPL has the outcome commit. -/
def Effective (s : TxnSys) (q : Nat) (p : Placed) : Prop :=
  p.jrec.xid = [] ∧ p ∈ (s.queues q).recs ∨ Decides p.jrec.xid true s.tpl.recs

/-- Once no commit of the transaction is under way, all its operations are durable and committed in
their queues, or its outcome is not commit. -/
theorem Inv.committed_of_decides (h : s.Inv n) (hd : Decides x true s.tpl.recs) (hc : s.ctxs x = none) (q : Nat)
    {p : Placed} (hp : p ∈ s.wrote q) (hpx : p.jrec.xid = x) :
    p ∈ (s.queues q).durable ∧ Commits x (s.queues q).durable := by
  have hprep := h.logs.once.prepares_of_decides hd
  have hok := h.xids x (h.logs.once.ne_nil_of_prepares hprep)
  have hcom := h.logs.once.commits_of_decides (hok.gone hc) hd
  exact ⟨hok.kept hprep q p hp hpx, hok.closed hcom q p hp hpx⟩

theorem Inv.counts_iff (h : s.Inv n) {q : Nat} {p : Placed} (hp : p ∈ s.wrote q)
    (hdone : Decides p.jrec.xid true s.tpl.recs → s.ctxs p.jrec.xid = none) :
    p ∈ (s.queues q).recs ∧ Counts (s.queues q).recs p ↔ s.Effective q p := by
  constructor
  · rintro ⟨hm, hnil | hcom⟩
    · exact .inl ⟨hnil, hm⟩
    · by_cases hx : p.jrec.xid = []
      · exact .inl ⟨hx, hm⟩
      · exact .inr (((h.xids _ hx).commits q hcom).mono fun _ _ hm => Jnl.durable_subset _ hm)
  · rintro (⟨hnil, hm⟩ | hd)
    · exact ⟨hm, .inl hnil⟩
    · obtain ⟨hdur, hcom⟩ := h.committed_of_decides hd (hdone hd) q hp rfl
      exact ⟨Jnl.durable_subset _ hdur, .inr (hcom.mono fun _ _ hm => Jnl.durable_subset _ hm)⟩

theorem isEnqueued_iff_view (m : Maps) (r : Nat) : m.emap.isEnqueued r true = true ↔ (m.view.enq r).isSome := by
  change _ ↔ (m.emap.map[r]?).isSome = true
  unfold EnqMap.isEnqueued
  cases m.emap.map[r]? with
  | none => simp
  | some d => simp

/-- A queue has a record enqueued if an operation that takes effect has enqueued it and none that takes
effect has dequeued it. While a commit is under way a queue may not have been told. -/
theorem Inv.isEnqueued_iff (h : s.Inv n) (q r : Nat)
    (hdone : ∀ p ∈ s.wrote q, p.jrec.Enqueues r ∨ p.jrec.Dequeues r →
      Decides p.jrec.xid true s.tpl.recs → s.ctxs p.jrec.xid = none) :
    (s.queues q).maps.emap.isEnqueued r true = true ↔
      (∃ p ∈ s.wrote q, p.jrec.Enqueues r ∧ s.Effective q p) ∧
        ¬∃ p ∈ s.wrote q, p.jrec.Dequeues r ∧ s.Effective q p := by
  have hs := h.logs.sound q
  have hop : ∀ p : Placed, p.jrec.Enqueues r ∨ p.jrec.Dequeues r → p.jrec.isOp = true := by
    rintro p (⟨x, d, t, e, hj⟩ | ⟨rid, x, c, hj⟩)
    · rw [hj]
      rfl
    · rw [hj]
      rfl
  have hiff : ∀ P : Placed → Prop, (∀ p, P p → p.jrec.Enqueues r ∨ p.jrec.Dequeues r) →
      ((∃ p ∈ (s.queues q).recs, P p ∧ Counts (s.queues q).recs p) ↔ ∃ p ∈ s.wrote q, P p ∧ s.Effective q p) := by
    intro P hP
    constructor
    · rintro ⟨p, hm, hp, hcnt⟩
      have hw := h.logs.logged q p hm (hop p (hP p hp))
      exact ⟨p, hw, hp, (h.counts_iff hw (hdone p hw (hP p hp))).mp ⟨hm, hcnt⟩⟩
    · rintro ⟨p, hw, hp, heff⟩
      obtain ⟨hm, hcnt⟩ := (h.counts_iff hw (hdone p hw (hP p hp))).mpr heff
      exact ⟨p, hm, hp, hcnt⟩
  rw [isEnqueued_iff_view, hs.enq r, hs.orderly.content.enq r, hiff _ fun _ => Or.inl, hiff _ fun _ => Or.inr]

/-- Recovery will find the outcome commit, and all that follows from it. -/
structure Committed (s : TxnSys) (x : Xid) : Prop where
  decides : Decides x true s.tpl.durable
  all : ∀ q, ∀ p ∈ s.wrote q, p.jrec.xid = x → p ∈ (s.queues q).durable ∧ Commits x (s.queues q).durable

/-- It will never be committed. -/
def Aborted (s : TxnSys) (x : Xid) : Prop :=
  Decides x false s.tpl.durable ∨ x ∈ s.begun ∧ s.ctxs x = none ∧ ¬Prepares x s.tpl.recs

theorem Inv.not_active (h : s.Inv n) {b : Bool} (hd : Decides x b s.tpl.recs) :
    x ≠ [] ∧ ∀ c, s.ctxs x = some c → c.phase ≠ .active := by
  have hprep := h.logs.once.prepares_of_decides hd
  have hx := h.logs.once.ne_nil_of_prepares hprep
  exact ⟨hx, fun c hc hp => ((h.xids x hx).active hc hp).2.1 hprep⟩

theorem Inv.committed_step (h : s.Inv n) (hc : s.Committed x) (hs : s.step n files tplFiles a = some s') :
    s'.Committed x := by
  have hk := (h.moves hs).keeps
  obtain ⟨hx, hna⟩ := h.not_active (hc.decides.mono fun _ _ hm => Jnl.durable_subset _ hm)
  refine ⟨hc.decides.mono fun p _ hm => hk.tpl p hm, fun q p hp hpx => ?_⟩
  obtain ⟨hdur, hcom⟩ := hc.all q p (h.wrote_of_step hs hx hna hp hpx) hpx
  exact ⟨hk.queue q p hdur, hcom.mono fun p' _ hm => hk.queue q p' hm⟩

theorem Inv.aborted_step (h : s.Inv n) (hx : x ≠ []) (hc : s.Aborted x)
    (hs : s.step n files tplFiles a = some s') : s'.Aborted x := by
  rcases hc with hd | ⟨hb, hno, hp⟩
  · exact .inl (hd.mono fun p _ hm => (h.moves hs).keeps.tpl p hm)
  · right
    by_cases ha : subject a = some x
    · rcases ctxt_of_step hs hx ha with ⟨tpc, rfl⟩ | hsome
      · exact absurd hb (begin_ok hs).2.1
      · exact absurd hno hsome
    · by_cases hcr : ∃ k kept, a = .crash k kept
      · obtain ⟨k, kept, rfl⟩ := hcr
        have hr := h.crash hs
        have hp' : ¬Prepares x s'.tpl.recs := fun hp' => hp (hr.prepares hp')
        refine ⟨hr.begun ▸ hb, ?_, hp'⟩
        by_contra hsome
        exact hp' (hr.prepares_of_ctxt h.logs hsome).2
      · have hsame := SameFor.of_step hs ha fun k kept hk => hcr ⟨k, kept, hk⟩
        exact ⟨(h.notes hs).begun x hb, hsame.ctxt.trans hno, fun hp' => hp (hsame.prepares.mp hp')⟩

theorem Inv.outcome_of_closing (h : s.Inv n) {c : TxnCtxt} {b : Bool} (hc : s.ctxs x = some c)
    (hp : c.phase = .closing []) (hb : c.commit = some b) :
    Decides x b s.tpl.durable ∨ b = false ∧ c.tplRid = none ∧ ¬Prepares x s.tpl.recs := by
  have hph := ((h.xids x (h.logs.nonempty x c hc).1).ctxt c hc).phase
  unfold PhaseOk at hph
  simp only [hp] at hph
  obtain ⟨b', ⟨hb', hout⟩, hd⟩ := hph
  obtain rfl : b = b' := Option.some.inj (hb.symm.trans hb')
  rcases hout with ⟨rid, hr, -⟩ | ⟨hr, hf, hnp⟩
  · exact .inl (hd (by rw [hr]; exact Option.some_ne_none rid))
  · exact .inr ⟨hf, hr, hnp⟩

/-- When `commit` or `abort` has returned nothing changes it any more, no crash at any time either.
After a commit all operations of the transaction, in all its queues, are durable and committed there;
after an abort none of them will ever be. -/
theorem returned_stays (hrun : (init files tplFiles).run n files tplFiles acts = some s) {c : TxnCtxt} {b : Bool}
    {rid fid : Nat} (hc : s.ctxs x = some c) (hb : c.commit = some b)
    (hret : s.step n files tplFiles (.commitTxnTpl x rid fid) = some s₁)
    (hrun' : s₁.run n files tplFiles acts' = some s₂) :
    if b then ∀ q, ∀ p ∈ s₂.wrote q, p.jrec.xid = x →
      p ∈ (s₂.queues q).durable ∧ Commits x (s₂.queues q).durable
    else ∀ q, ¬Commits x (s₂.queues q).recs := by
  have h := (Inv.init n files tplFiles).run hrun
  have h₁ := h.step hret
  obtain ⟨hx, hxb⟩ := h.logs.nonempty x c hc
  obtain ⟨c', b', s₀, hc', hb', hp, hsync, hcase⟩ := commitTxnTpl_ok hret
  obtain rfl : c = c' := Option.some.inj (hc.symm.trans hc')
  obtain rfl : b = b' := Option.some.inj (hb.symm.trans hb')
  rw [← hsync.begun] at hxb
  rw [← hsync.ctxs] at hc
  have h₀ := hsync.inv h
  have hout := h₀.outcome_of_closing hc hp hb
  have hqs : s₁.queues = s₀.queues ∧ s₁.wrote = s₀.wrote ∧ s₁.tpl.durable = s₀.tpl.durable := by
    rcases hcase with ⟨j, -, hw, rfl⟩ | ⟨-, rfl⟩
    · exact ⟨rfl, rfl, Jnl.durable_write hw⟩
    · exact ⟨rfl, rfl, rfl⟩
  obtain ⟨hqs, hwr, htd⟩ := hqs
  cases b with
  | true =>
    have hd := hout.resolve_right fun hn => by cases hn.1
    have hprep := h₀.logs.once.prepares_of_decides (hd.mono fun _ _ hm => Jnl.durable_subset _ hm)
    have hcom : s₁.Committed x := by
      refine ⟨htd ▸ hd, fun q p hm hpx => ?_⟩
      rw [hwr] at hm
      rw [hqs]
      exact ⟨(h₀.xids x hx).kept hprep q p hm hpx, h₀.committed_all hc hp hd hprep hsync q p hm hpx⟩
    exact (run_induct (P := fun s => s.Committed x) h₁ hcom
      (fun _ _ _ _ hi hP hs => hi.committed_step hP hs) hrun').all
  | false =>
    have hab : s₁.Aborted x := by
      rcases hout with hd | ⟨-, hr, hnp⟩
      · exact .inl (htd ▸ hd)
      · rcases hcase with ⟨j, hne, -⟩ | ⟨-, rfl⟩
        · exact absurd hr hne
        · exact .inr ⟨hxb, update_self _ _ _, hnp⟩
    have hab₂ := run_induct (P := fun s => s.Aborted x) h₁ hab
      (fun _ _ _ _ hi hP hs => hi.aborted_step hx hP hs) hrun'
    have h₂ := h₁.run hrun'
    intro q hm
    have hdt := (h₂.xids x hx).commits q hm
    have hdr := hdt.mono fun p _ hm => Jnl.durable_subset _ hm
    rcases hab₂ with hd | ⟨-, -, hnp⟩
    · exact absurd (h₂.logs.once.decides_unique hdr (hd.mono fun p _ hm => Jnl.durable_subset _ hm)) (by decide)
    · exact hnp (h₂.logs.once.prepares_of_decides hdr)

theorem interrupted_returned : ∃ s s₁ s₂ : TxnSys, (init 2 2).run 2 2 2 interrupted = some s ∧
    s.step 2 2 2 (.commitTxnTpl [1] 8 0) = some s₁ ∧ s₁.run 2 2 2 [.crash 0 fun _ => 0] = some s₂ ∧
    ∀ q, ∀ p ∈ s₂.wrote q, p.jrec.xid = [1] → p ∈ (s₂.queues q).durable ∧ Commits [1] (s₂.queues q).durable := by
  have hsome : ((init 2 2).run 2 2 2 interrupted).isSome := by decide +kernel
  obtain ⟨s, hs⟩ := Option.isSome_iff_exists.mp hsome
  have hcom : ((init 2 2).run 2 2 2 interrupted).bind
      (fun s => (s.ctxs [1]).bind TxnCtxt.commit) = some true := by decide +kernel
  have hret : ((init 2 2).run 2 2 2 interrupted).bind
      (fun s => (s.step 2 2 2 (.commitTxnTpl [1] 8 0)).map fun _ => ()) = some () := by decide +kernel
  rw [hs, Option.bind_some] at hcom hret
  obtain ⟨c, hc, hb⟩ := Option.bind_eq_some_iff.mp hcom
  obtain ⟨s₁, h₁, -⟩ := Option.map_eq_some_iff.mp hret
  have hi := ((Inv.init 2 2 2).run hs).step h₁
  obtain ⟨s₂, h₂, -⟩ := hi.crash_isSome 2 2 0 fun _ => 0
  have hrun : s₁.run 2 2 2 [.crash 0 fun _ => 0] = some s₂ := Option.bind_eq_some_iff.mpr ⟨s₂, h₂, rfl⟩
  exact ⟨s, s₁, s₂, hs, h₁, hrun, returned_stays hs hc hb h₁ hrun⟩

end TxnSys

end RhmStore
