import RhmStore.Store.Recovered

/-! # Transactions that nobody commits

A restart that finds a local transaction prepared and without an outcome commits it, although it may
be `abort` that has prepared it. -/

namespace RhmStore

namespace TxnSys

variable {n files tplFiles : Nat} {s s' : TxnSys} {x : Xid} {acts : List TxnAct}

/-- Recovery finds the prepare of the transaction, a local one, in the TPL and not its outcome. -/
def FindsOpen (s : TxnSys) (x : Xid) : TxnAct → Prop
  | .crash tplKept _ => ∃ rid, tplState x (s.tpl.log.crash tplKept).recs = .enqueued rid false
  | _ => False

def FoundOpen (n files tplFiles : Nat) (s : TxnSys) (x : Xid) : List TxnAct → Prop
  | [] => False
  | a :: acts => s.FindsOpen x a ∨ ∃ s', s.step n files tplFiles a = some s' ∧ FoundOpen n files tplFiles s' x acts

/-- No queue commits the transaction, and what the queues have enqueued is what the records of others
make of them. -/
structure Spared (s : TxnSys) (x : Xid) : Prop where
  unapplied : s.Unapplied x
  others : ∀ q r, (s.queues q).maps.emap.isEnqueued r true = true ↔
    (∃ p ∈ (s.queues q).recs, p.jrec.xid ≠ x ∧ p.jrec.Enqueues r ∧ Counts (s.queues q).recs p) ∧
      ¬∃ p ∈ (s.queues q).recs, p.jrec.xid ≠ x ∧ p.jrec.Dequeues r ∧ Counts (s.queues q).recs p

theorem Inv.spared (h : s.Inv n) (hx : x ≠ []) (hun : s.Unapplied x) : s.Spared x := by
  refine ⟨hun, fun q r => ?_⟩
  -- a record of the transaction does not count
  have hne : ∀ p : Placed, Counts (s.queues q).recs p → p.jrec.xid ≠ x := by
    rintro p (hnil | hcom) hpx
    · exact hx (hpx.symm.trans hnil)
    · exact hun q (hpx ▸ hcom)
  have hiff : ∀ P : Placed → Prop, (∃ p ∈ (s.queues q).recs, P p ∧ Counts (s.queues q).recs p) ↔
      ∃ p ∈ (s.queues q).recs, p.jrec.xid ≠ x ∧ P p ∧ Counts (s.queues q).recs p := fun P =>
    exists_congr fun p => and_congr_right fun _ => ⟨fun hp => ⟨hne p hp.2, hp⟩, And.right⟩
  rw [isEnqueued_iff_view, (h.logs.sound q).enq r, (h.logs.sound q).orderly.content.enq r, hiff, hiff]

theorem Inv.mem_rolled_of_run (h : s.Inv n) (hrun : s.run n files tplFiles acts = some s') :
    x ∈ s'.rolled ↔ x ∈ s.rolled ∨ FoundOpen n files tplFiles s x acts := by
  induction acts generalizing s with
  | nil =>
    obtain rfl := Option.some.inj hrun
    exact (or_iff_left id).symm
  | cons a acts ih =>
    obtain ⟨s₁, hs, hrun'⟩ := Option.bind_eq_some_iff.mp hrun
    have hone : x ∈ s₁.rolled ↔ x ∈ s.rolled ∨ s.FindsOpen x a := by
      by_cases ha : ∃ k kept, a = .crash k kept
      · obtain ⟨k, kept, rfl⟩ := ha
        have hr := h.crash hs
        rw [hr.rolled x, hr.tplLog]
        rfl
      · have hfinds : ¬s.FindsOpen x a := by
          intro hf
          cases a with
          | crash k kept => exact ha ⟨k, kept, rfl⟩
          | _ => exact hf
        rw [(h.notes hs).rolled fun k kept hk => ha ⟨k, kept, hk⟩, or_iff_left hfinds]
    have hrest : FoundOpen n files tplFiles s x (a :: acts) ↔
        s.FindsOpen x a ∨ FoundOpen n files tplFiles s₁ x acts := by
      refine or_congr_right ⟨?_, fun hf => ⟨s₁, hs, hf⟩⟩
      rintro ⟨s₂, hs₂, hf⟩
      obtain rfl := Option.some.inj (hs.symm.trans hs₂)
      exact hf
    rw [ih (h.step hs) hrun', hone, hrest, or_assoc]

/-- A transaction that `commit` was never called for is left out of the queues, as long as no restart
has found it so. Once one has, the transaction is applied in all its queues at its end. -/
theorem uncommitted_spared (hrun : (init files tplFiles).run n files tplFiles acts = some s) (hx : x ≠ [])
    (hno : (x, true) ∉ s.called) :
    (¬FoundOpen n files tplFiles (init files tplFiles) x acts → s.Spared x) ∧
      (FoundOpen n files tplFiles (init files tplFiles) x acts → s.ctxs x = none → s.Applied x) := by
  have h := (Inv.init n files tplFiles).run hrun
  have ha := asked_of_run hrun hx
  have hrolled : x ∈ s.rolled ↔ FoundOpen n files tplFiles (init files tplFiles) x acts := by
    rw [(Inv.init n files tplFiles).mem_rolled_of_run hrun]
    exact or_iff_right List.not_mem_nil
  refine ⟨fun hf => h.spared hx (h.unapplied hx fun hd => ?_), fun hf hc q p hp hpx => ?_⟩
  · rcases ha.outcome true hd with hcall | ⟨-, hr⟩
    · exact hno hcall
    · exact hf (hrolled.mp hr)
  · obtain ⟨hprep, hfalse, -, -⟩ := ha.rolled (hrolled.mpr hf)
    have hfit := h.logs.once.fits x
    rw [(h.xids x hx).gone hc] at hfit
    -- it was prepared, so it has an outcome
    rcases hfit with hun | ⟨-, b, hdec, -⟩
    · exact absurd (hprep.mono fun _ _ hm => Jnl.durable_subset _ hm) (not_prepares_of_unnamed hun)
    · cases b with
      | true =>
        obtain ⟨hm, hcom⟩ := h.committed_of_decides ((hdec true).mpr rfl) hc q hp hpx
        exact ⟨Jnl.durable_subset _ hm, hcom.mono fun _ _ hm => Jnl.durable_subset _ hm⟩
      | false => exact absurd ((hdec false).mpr rfl) hfalse

/-- A crash between the two records of `abort` in the TPL, and the end of the transaction after it. -/
def abortCut : List TxnAct :=
  [.begin [1] false, .store 0 ⟨⟨.enq 1 [1] 1 false false, 0⟩, []⟩, .call [1] false, .returned 0 1,
    .tplEnqueue [1] 2 0, .crash 1 fun _ => 0, .completed [1] 3 0, .returnedTpl 3, .completeSynced [1],
    .commitTxn [1] 0 4 0, .returned 0 4, .commitTxnTpl [1] 5 0]

/-- The message of the aborted transaction is there. -/
theorem abortCut_not_spared : ∃ s, (init 2 2).run 2 2 2 abortCut = some s ∧ s.called = [([1], false)] ∧
    (s.queues 0).maps.emap.isEnqueued 1 true = true ∧ ¬s.Spared [1] := by
  have hend : ((init 2 2).run 2 2 2 abortCut).map (fun s => decide (s.called = [([1], false)]) &&
      (s.queues 0).maps.emap.isEnqueued 1 true && (s.queues 0).recs.any fun p => decide (p.jrec = .txc 4 [1])) =
        some true := by decide +kernel
  obtain ⟨s, hs, hend⟩ := Option.map_eq_some_iff.mp hend
  simp only [Bool.and_eq_true, decide_eq_true_iff, List.any_eq_true] at hend
  obtain ⟨⟨hcall, henq⟩, p, hp, hj⟩ := hend
  exact ⟨s, hs, hcall, henq, fun h => h.unapplied 0 ⟨p, hp, 4, hj⟩⟩

theorem abortCut_spared : ∃ s, (init 2 2).run 2 2 2 abortCut = some s ∧
    (¬FoundOpen 2 2 2 (init 2 2) [1] abortCut → s.Spared [1]) ∧
      (FoundOpen 2 2 2 (init 2 2) [1] abortCut → s.ctxs [1] = none → s.Applied [1]) := by
  have hend : ((init 2 2).run 2 2 2 abortCut).map (fun s => decide (([1], true) ∈ s.called)) =
      some false := by decide +kernel
  obtain ⟨s, hs, hno⟩ := Option.map_eq_some_iff.mp hend
  exact ⟨s, hs, uncommitted_spared hs (by decide) (of_decide_eq_false hno)⟩

end TxnSys

end RhmStore
