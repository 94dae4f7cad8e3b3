import RhmStore.Lib.Counts
import RhmStore.Writer.Effects

/-! # The count of pages that a token waits for -/

namespace RhmStore

def WState.ends (w : WState) : Bool := w = abortSubm || w = commitSubm

theorem OpType.part_isPart (op : OpType) : op.part.isPart = true := by cases op <;> rfl

theorem OpType.part_submOp (op : OpType) : op.part.submOp = none := by cases op <;> rfl

theorem OpType.subm_submOp (op : OpType) : op.subm.submOp = some op := by cases op <;> rfl

theorem OpType.compl_submOp (op : OpType) : op.compl.submOp = none := by cases op <;> rfl

theorem OpType.subm_isPart (op : OpType) : op.subm.isPart = false := by cases op <;> rfl

theorem WState.ends_eq {w : WState} {op : OpType} (h : w.submOp = some op) :
    w.ends = (op = .abort || op = .commit) := by
  cases w <;> cases h <;> rfl

theorem WState.ends_of_none {w : WState} (h : w.submOp = .none) : w.ends = false := by
  cases w <;> first | rfl | cases h

theorem WState.submOp_of_isPart {w : WState} (h : w.isPart = true) : w.submOp = .none := by
  cases w <;> first | rfl | cases h

namespace Wmgr

variable {g : Geom} {s s' : Wmgr} {tok : Nat} {n : Nat → Nat}

/-- Each token counts what `n` says, and waits for it in a record in part or at its end. The ends of
different transactions are waited for. -/
structure Awaits (s : Wmgr) (n : Nat → Nat) : Prop where
  count : ∀ tok, (s.toks tok).pgCnt = n tok
  live : ∀ tok, (s.toks tok).pgCnt ≠ 0 →
    (s.toks tok).wstate.isPart = true ∨ (s.toks tok).wstate.submOp ≠ none
  subm : ∀ tok, (s.toks tok).wstate.submOp ≠ none → (s.toks tok).pgCnt ≠ 0
  ends : ∀ tok, (s.toks tok).wstate.ends = true → (s.toks tok).xid ∈ s.txnPending
  distinct : ∀ tok tok', (s.toks tok).wstate.ends = true → (s.toks tok').wstate.ends = true →
    (s.toks tok).xid = (s.toks tok').xid → tok = tok'

/-- What the return of a page does to a token in it: it waits on, or it is complete. -/
inductive TokTo (s : Wmgr) (tok : Nat) : Bool → Wmgr → Prop
  | waits (h : (s.toks tok).pgCnt = 1 → (s.toks tok).wstate.isPart = true) :
    TokTo s tok false { s with
      toks := Function.update s.toks tok { s.toks tok with pgCnt := (s.toks tok).pgCnt - 1 } }
  | complete (op : OpType) (h1 : (s.toks tok).pgCnt = 1) (ho : (s.toks tok).wstate.submOp = some op)
    (m : Maps) : TokTo s tok true { s with
      toks := Function.update s.toks tok { s.toks tok with pgCnt := 0, wstate := op.compl }
      txnPending := if op = .abort ∨ op = .commit then s.txnPending.erase (s.toks tok).xid
        else s.txnPending
      maps := m }

theorem wp_tokReturned_to (h0 : (s.toks tok).pgCnt ≠ 0)
    (hl : (s.toks tok).wstate.isPart = true ∨ (s.toks tok).wstate.submOp ≠ none)
    (he : (s.toks tok).wstate.ends = true → (s.toks tok).xid ∈ s.txnPending) :
    wp (tokReturned tok) (s.TokTo tok) (fun _ _ => False) s := by
  rw [tokReturned, wp_bind, wp_get, if_neg h0, wp_bind, modTok, wp_modify]
  by_cases h1 : (s.toks tok).pgCnt = 1
  · rw [if_pos h1]
    simp only [tokCompleted, wp_bind, wp_get, Function.update_self]
    cases ho : (s.toks tok).wstate.submOp with
    | none =>
      have hp : (s.toks tok).wstate.isPart = true := by simpa [ho] using hl
      simp only
      rw [if_pos hp]
      exact .waits fun _ => hp
    | some op =>
      have hends := WState.ends_eq ho
      have hc := TokTo.complete (s := s) op h1 ho
      let hm : Maps := { s.maps with tmap := (s.maps.tmap.setAioCompl (s.toks tok).xid
        (s.toks tok).rid).toOption.getD s.maps.tmap }
      simp only [modTok, wp_bind, wp_modify, Function.update_idem, Function.update_self, h1]
      cases op with
      | enqueue => exact (wp_ite _ _).mpr ⟨fun _ => hc hm, fun _ => hc s.maps⟩
      | dequeue => exact (wp_ite _ _).mpr ⟨fun _ => hc hm, fun _ => hc s.maps⟩
      | abort =>
        simp only [wp_bind, eraseTxnPending, wp_get, if_pos (he (by simp [hends])), wp_set, wp_pure]
        exact hc s.maps
      | commit =>
        simp only [wp_bind, eraseTxnPending, wp_get, if_pos (he (by simp [hends])), wp_set, wp_pure]
        exact hc s.maps
  · rw [if_neg h1]
    exact .waits fun h => (h1 h).elim

/-- What the return of a page does to all the tokens in it, with those that go to the callback. -/
inductive ToksTo : Wmgr → List Nat → List Nat → Wmgr → Prop
  | nil (s : Wmgr) : ToksTo s [] [] s
  | cons {s t u : Wmgr} {tok : Nat} {toks out : List Nat} {b : Bool} (h : s.TokTo tok b t)
    (ht : ToksTo t toks out u) : ToksTo s (tok :: toks) (if b then tok :: out else out) u

theorem TokTo.frame {b : Bool} (h : s.TokTo tok b s') :
    ∃ t x m, s' = { s with toks := t, txnPending := x, maps := m } := by
  cases h with
  | waits h => exact ⟨_, s.txnPending, s.maps, rfl⟩
  | complete op h1 ho m => exact ⟨_, _, m, rfl⟩

/-- Only tokens, `_txn_pending_set` and maps change. -/
theorem ToksTo.frame {toks out : List Nat} (h : s.ToksTo toks out s') :
    ∃ t x m, s' = { s with toks := t, txnPending := x, maps := m } := by
  induction h with
  | nil s => exact ⟨s.toks, s.txnPending, s.maps, rfl⟩
  | cons h _ ih =>
    obtain ⟨t, x, m, rfl⟩ := ih
    obtain ⟨t', x', m', rfl⟩ := h.frame
    exact ⟨t, x, m, rfl⟩

theorem Awaits.tokTo {b : Bool} (h : s.Awaits n) (h0 : (s.toks tok).pgCnt ≠ 0)
    (ht : s.TokTo tok b s') : s'.Awaits (Function.update n tok (n tok - 1)) := by
  have hn := h.count tok
  cases ht with
  | waits hw =>
    have hstate : ∀ i, (Function.update s.toks tok
        { s.toks tok with pgCnt := (s.toks tok).pgCnt - 1 } i).wstate = (s.toks i).wstate ∧
        (Function.update s.toks tok
          { s.toks tok with pgCnt := (s.toks tok).pgCnt - 1 } i).xid = (s.toks i).xid := by
      intro i
      by_cases hi : i = tok
      · subst hi
        simp
      · simp [hi]
    constructor
    · intro i
      by_cases hi : i = tok
      · subst hi
        simp [hn]
      · simp [hi, h.count i]
    · intro i
      simp only [(hstate i).1]
      by_cases hi : i = tok
      · subst hi
        exact fun _ => h.live i h0
      · simpa [hi] using h.live i
    · intro i
      simp only [(hstate i).1]
      intro hs
      by_cases hi : i = tok
      · subst hi
        have h1 : (s.toks i).pgCnt ≠ 1 := fun h1 => hs (WState.submOp_of_isPart (hw h1))
        simp only [Function.update_self]
        omega
      · simpa [hi] using h.subm i hs
    · intro i
      simp only [(hstate i).1, (hstate i).2]
      exact h.ends i
    · intro i j
      simp only [(hstate i).1, (hstate i).2, (hstate j).1, (hstate j).2]
      exact h.distinct i j
  | complete op h1 ho m =>
    have hself : (Function.update s.toks tok
        { s.toks tok with pgCnt := 0, wstate := op.compl } tok).wstate = op.compl := by simp
    have hends : op.compl.ends = false := WState.ends_of_none op.compl_submOp
    constructor
    · intro i
      by_cases hi : i = tok
      · subst hi
        simp [← hn, h1]
      · simp [hi, h.count i]
    · intro i
      by_cases hi : i = tok
      · subst hi
        simp
      · simpa [hi] using h.live i
    · intro i hs
      by_cases hi : i = tok
      · subst hi
        simp [op.compl_submOp] at hs
      · simpa [hi] using h.subm i (by simpa [hi] using hs)
    · intro i hs
      by_cases hi : i = tok
      · subst hi
        simp [hends] at hs
      · simp only [Function.update_of_ne hi] at hs ⊢
        have hm := h.ends i hs
        split
        · -- the transaction of `tok` is another one
          rename_i hop
          apply (List.mem_erase_of_ne _).mpr hm
          intro hx
          exact hi (h.distinct i tok hs (by simp [WState.ends_eq ho, hop]) hx)
        · exact hm
    · intro i j hi hj
      have hi' : i ≠ tok := by
        intro he
        subst he
        simp [hends] at hi
      have hj' : j ≠ tok := by
        intro he
        subst he
        simp [hends] at hj
      simp only [Function.update_of_ne hi', Function.update_of_ne hj'] at hi hj ⊢
      exact h.distinct i j hi hj

theorem wp_toksReturned_to {m : Nat → Nat} (toks : List Nat)
    (h : s.Awaits fun i => m i + toks.count i) :
    wp (toksReturned toks) (fun out s' => s.ToksTo toks out s' ∧ s'.Awaits m)
      (fun _ _ => False) s := by
  induction toks generalizing s with
  | nil => exact ⟨.nil s, by simpa using h⟩
  | cons tok toks ih =>
    have h0 : (s.toks tok).pgCnt ≠ 0 := by simp [h.count tok]
    rw [toksReturned, wp_bind]
    apply wp_mono (wp_tokReturned_to h0 (h.live tok h0) (h.ends tok)) _ (fun _ _ he => he)
    intro b t ht
    have hn : Function.update (fun i => m i + (tok :: toks).count i) tok
        (m tok + (tok :: toks).count tok - 1) = fun i => m i + toks.count i := by
      funext i
      by_cases hi : i = tok
      · subst hi
        simp
      · simp [hi, List.count_cons_of_ne (Ne.symm hi)]
    have ha := h.tokTo h0 ht
    rw [hn] at ha
    rw [wp_bind]
    apply wp_mono (ih ha) _ (fun _ _ he => he)
    intro out u hu
    exact ⟨.cons ht hu.1, hu.2⟩

end Wmgr

end RhmStore
