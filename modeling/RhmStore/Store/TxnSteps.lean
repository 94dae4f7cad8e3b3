import RhmStore.Store.TxnFrame

/-! # The steps keep the invariant -/

namespace RhmStore

open Function

namespace TxnSys

variable {n : Nat} {s s' : TxnSys} {x : Xid}

theorem openEntries_of_op {log : List Placed} (h : Unclosed x log) (hx : x ≠ []) {p : Placed} (hp : p ∈ log)
    (hpx : p.jrec.xid = x) (hop : p.jrec.isOp = true) : openEntries x log ≠ [] := by
  have hent : ∃ td, td ∈ p.entry x := by
    cases hj : p.jrec with
    | enq rid y d t e =>
      rw [hj] at hpx
      obtain rfl : y = x := hpx
      simp [Placed.entry, hj, hx]
    | deq rid drid y c =>
      rw [hj] at hpx
      obtain rfl : y = x := hpx
      simp [Placed.entry, hj, hx]
    | txa rid y => simp [hj, JRec.isOp] at hop
    | txc rid y => simp [hj, JRec.isOp] at hop
  obtain ⟨td, ht⟩ := hent
  exact List.ne_nil_of_mem ((mem_openEntries_of_unclosed h).mpr ⟨p, hp, ht⟩)

theorem closes_of_op {j : JRec} (h : j.isOp = true) (y : Xid) : j.closes y = false := by
  cases j with
  | enq rid x d t e => rfl
  | deq rid drid x c => rfl
  | txa rid x => simp [JRec.isOp] at h
  | txc rid x => simp [JRec.isOp] at h

theorem begin_ok {files tplFiles : Nat} {tpc : Bool} (h : s.step n files tplFiles (.begin x tpc) = some s') :
    x ≠ [] ∧ x ∉ s.begun ∧ s' = s.begin x tpc := by
  simp only [TxnSys.step] at h
  split at h
  · cases h
  · rename_i hc
    rw [not_or] at hc
    exact ⟨hc.1, hc.2, (Option.some.inj h).symm⟩

theorem Inv.begin (h : s.Inv n) (hx : x ≠ []) (hnb : x ∉ s.begun) (tpc : Bool) : (s.begin x tpc).Inv n := by
  have hl := h.logs
  have hrec : ∀ q p, p ∈ (s.queues q).recs ∨ p ∈ s.wrote q → p.jrec.xid ≠ x := by
    rintro q p hp rfl
    rcases hl.named q p hp with hnil | hin
    · exact hx hnil
    · exact hnb hin
  have htpl : ∀ p ∈ s.tpl.recs, p.jrec.xid ≠ x := by
    rintro p hp rfl
    exact hnb (hl.tplNamed p hp)
  have hopen : ∀ q, openEntries x (s.queues q).recs = [] := by
    intro q
    by_contra hne
    obtain ⟨td, ht⟩ := List.exists_mem_of_ne_nil _ hne
    obtain ⟨p, hp, hpe⟩ := mem_openEntries ht
    exact hrec q p (.inl hp) (mem_entry hpe).2.1
  have hun : ∀ q, Unclosed x (s.queues q).recs := fun q => unclosed_iff.mpr
    ⟨not_commits_of_unnamed fun p hp => hrec q p (.inl hp), not_aborts_of_unnamed fun p hp => hrec q p (.inl hp)⟩
  refine h.setCtxt (x := x) (o := some ⟨tpc, [], .active, none, none⟩) rfl rfl rfl rfl
    (fun y hy => List.mem_cons_of_mem _ hy) hx List.mem_cons_self (fun _ => .inr fun q => ?_)
    (fun hn => by cases hn) fun c hc => ?_
  · rw [hopen q]
    by_contra hne
    exact hnb (hl.opnNamed q x hne)
  · cases hc
    refine ⟨⟨List.nodup_nil, List.nodup_nil⟩, fun q hq => hq, fun q ho => absurd (hopen q) ho,
      fun q _ => hun q, fun q hm => absurd hm (hun q).not_commits, ?_⟩
    refine ⟨rfl, not_prepares_of_unnamed htpl, hun, ?_, fun _ hn => by cases hn⟩
    intro q p hp hpx
    exact absurd hpx (hrec q p (.inr hp))

theorem store_ok {q : Nat} {w : DataRec} (h : s.store q w = some s') : w.placed.jrec.isOp = true ∧
    ∃ j, (s.queues q).write w = some j ∧
      (w.placed.jrec.xid = [] ∧
          s' = { s.setQueue q j with wrote := update s.wrote q (s.wrote q ++ [w.placed]) } ∨
        w.placed.jrec.xid ≠ [] ∧ ∃ c, s.ctxs w.placed.jrec.xid = some c ∧ c.phase = .active ∧ c.commit = none ∧
          s' = { s.setQueue q j with wrote := update s.wrote q (s.wrote q ++ [w.placed]) }.setCtx
            w.placed.jrec.xid (some { c with impactedQueues := c.impactedQueues.insert q })) := by
  unfold TxnSys.store at h
  split at h
  · cases h
  · rename_i hop
    rw [Bool.not_eq_false] at hop
    refine ⟨hop, ?_⟩
    cases hw : (s.queues q).write w with
    | none => simp [hw] at h
    | some j =>
      refine ⟨j, rfl, ?_⟩
      simp only [hw] at h
      split at h
      · rename_i hx
        exact .inl ⟨hx, (Option.some.inj h).symm⟩
      · rename_i hx
        right
        cases hc : s.ctxs w.placed.jrec.xid with
        | none => simp [hc] at h
        | some c =>
          simp only [hc] at h
          split at h
          · rename_i hp
            exact ⟨hx, c, rfl, hp.1, hp.2, (Option.some.inj h).symm⟩
          · cases h

/-- An active transaction has told no queue anything. -/
theorem XidOk.active (h : s.XidOk x) {c : TxnCtxt} (hc : s.ctxs x = some c) (hp : c.phase = .active) :
    c.tplRid = none ∧ ¬Prepares x s.tpl.recs ∧ (∀ q, Unclosed x (s.queues q).recs) ∧
      (∀ q, ∀ p ∈ s.wrote q, p.jrec.xid = x → p ∈ (s.queues q).recs) ∧
      (c.tpc = true → c.commit ≠ some true) := by
  have hph := (h.ctxt c hc).phase
  unfold PhaseOk at hph
  simpa only [hp] using hph

/-- The operations of an active transaction. -/
theorem XidOk.store (h : s.XidOk x) (hl : s.LogsOk n) {q : Nat} {w : DataRec} {j : Jnl} {c : TxnCtxt}
    (hw : (s.queues q).write w = some j) (hop : w.placed.jrec.isOp = true)
    (hc : s.ctxs x = some c) (hp : c.phase = .active) (hqs : s'.queues = update s.queues q j)
    (ht : s'.tpl = s.tpl) (hwr : s'.wrote = update s.wrote q (s.wrote q ++ [w.placed]))
    (hcs : s'.ctxs x = some { c with impactedQueues := c.impactedQueues.insert q }) : s'.XidOk x := by
  obtain ⟨hrid, hprep, hun, hwro, htpc⟩ := h.active hc hp
  have hcok := h.ctxt c hc
  have hrecs : ∀ q', (s'.queues q').recs = if q' = q then (s.queues q').recs ++ [w.placed]
      else (s.queues q').recs := by
    intro q'
    rw [hqs]
    by_cases hq : q' = q
    · subst hq
      rw [update_self, Jnl.recs_write hw, if_pos rfl]
    · rw [update_of_ne hq, if_neg hq]
  have hun' : ∀ q', Unclosed x (s'.queues q').recs := by
    intro q' p hm
    rw [hrecs] at hm
    split at hm
    · rcases List.mem_append.mp hm with hm | hm
      · exact hun q' p hm
      · rw [List.mem_singleton.mp hm]
        exact closes_of_op hop x
    · exact hun q' p hm
  have hpend : c.pending = c.impactedQueues := by
    unfold TxnCtxt.pending
    rw [hp]
  have hnodup : (c.impactedQueues.insert q).Nodup := hcok.nodup.2.insert
  refine ⟨?_, ?_, ?_, ?_, ?_, ?_⟩
  · intro hn
    rw [ht] at hn
    exact absurd hn hprep
  · intro q' hm
    exact absurd hm (hun' q').not_commits
  · intro q' hm
    rw [ht]
    exact .inr hprep
  · intro hm
    rw [ht] at hm
    obtain ⟨p, hpm, rid, hj⟩ := hm
    exact absurd (hl.once.prepares_of_named hpm (by rw [hj]; rfl)) hprep
  · intro hn
    rw [hcs] at hn
    cases hn
  · intro c' hc'
    rw [hcs] at hc'
    cases hc'
    have hpend' : TxnCtxt.pending { c with impactedQueues := c.impactedQueues.insert q } =
        c.impactedQueues.insert q := by
      unfold TxnCtxt.pending
      simp only [hp]
    refine ⟨⟨by rw [hpend']; exact hnodup, hnodup⟩, ?_, ?_, ?_, ?_, ?_⟩
    · rw [hpend']
      exact fun q' hq' => hq'
    · intro q' ho
      rw [hpend']
      by_cases hq : q' = q
      · rw [hq]
        exact List.mem_insert_self
      · rw [hrecs, if_neg hq] at ho
        have hm := hcok.pending q' ho
        rw [hpend] at hm
        exact List.mem_insert_of_mem hm
    · exact fun q' _ => hun' q'
    · exact fun q' hm => absurd hm (hun' q').not_commits
    · unfold PhaseOk
      simp only [hp]
      refine ⟨hrid, by rw [ht]; exact hprep, hun', ?_, htpc⟩
      intro q' p hm hpx
      rw [hwr] at hm
      rw [hrecs]
      by_cases hq : q' = q
      · subst hq
        rw [update_self] at hm
        rw [if_pos rfl]
        rcases List.mem_append.mp hm with hm | hm
        · exact List.mem_append_left _ (hwro q' p hm hpx)
        · exact List.mem_append_right _ hm
      · rw [update_of_ne hq] at hm
        rw [if_neg hq]
        exact hwro q' p hm hpx

theorem update_wrote {q : Nat} {p : Placed} (hop : p.jrec.isOp = true) (q' : Nat) :
    update s.wrote q (s.wrote q ++ [p]) q' =
      if q' = q ∧ p.jrec.isOp = true then s.wrote q' ++ [p] else s.wrote q' := by
  by_cases hq : q' = q
  · subst hq
    rw [update_self, if_pos ⟨rfl, hop⟩]
  · rw [update_of_ne hq, if_neg fun hc => hq hc.1]

theorem Inv.store (h : s.Inv n) {q : Nat} (hqn : q < n) {w : DataRec} (hs : s.store q w = some s') : s'.Inv n := by
  obtain ⟨hop, j, hw, hcase⟩ := store_ok hs
  have hwr := update_wrote (s := s) (q := q) hop
  rcases hcase with ⟨hx, rfl⟩ | ⟨hx, c, hc, hp, hcom, rfl⟩
  · exact h.writeQueue hqn hw rfl rfl hwr (fun _ _ => rfl) (fun _ => rfl) rfl (fun hne => absurd hx hne)
      fun hne => absurd hx hne
  · have hok := h.xids _ hx
    refine h.writeQueue hqn hw rfl rfl hwr (fun y hy => ?_) (fun y => ?_) rfl (fun _ => ?_) fun _ => ?_
    · exact update_of_ne hy _ _
    · by_cases hy : y = w.placed.jrec.xid
      · subst hy
        simp [setCtx, hc]
      · simp [setCtx, setQueue, hy]
    · exact ⟨by rw [hc]; rfl, (hok.active hc hp).2.2.1 q⟩
    · exact hok.store h.logs hw hop hc hp rfl rfl rfl (update_self _ _ _)

theorem Inv.absent_of_active (h : s.Inv n) {c : TxnCtxt} (hc : s.ctxs x = some c) (hp : c.phase = .active) :
    tplState x s.tpl.log.recs = .absent :=
  h.logs.once.absent_of_not_prepares ((h.xids x (h.logs.nonempty x c hc).1).active hc hp).2.1

/-- A context is replaced by one that fits, or by none when the transaction is not open in the TPL. -/
theorem Inv.replace (h : s.Inv n) {c : TxnCtxt} (hc : s.ctxs x = some c) {o : Option TxnCtxt}
    (hq : s'.queues = s.queues) (ht : s'.tpl = s.tpl) (hw : s'.wrote = s.wrote)
    (hcs : s'.ctxs = update s.ctxs x o) (hb : s'.begun = s.begun)
    (hgone : o = none → tplState x s.tpl.log.recs = .absent)
    (hctxt : ∀ c', o = some c' → s.CtxtOk x c → s.CtxtOk x c') : s'.Inv n := by
  obtain ⟨hx, hxb⟩ := h.logs.nonempty x c hc
  refine h.setCtxt hq ht hw hcs (fun y hy => hb ▸ hy) hx (hb ▸ hxb) (fun _ => .inl (by rw [hc]; rfl)) hgone ?_
  intro c' hc'
  exact hctxt c' hc' ((h.xids x hx).ctxt c hc)

theorem call_ok {commit : Bool} (h : s.call x commit = some s') : ∃ c oc, s.ctxs x = some c ∧ c.commit = none ∧
    s' = { s with called := (x, commit) :: s.called }.setCtx x oc ∧
    (oc = none ∧ c.tpc = false ∧ c.phase = .active ∨
      oc = some { c with commit := some commit } ∧ (c.phase = .active ∧ (c.tpc = true → commit = false) ∨
        c.phase = .prepared ∧ c.tpc = true)) := by
  unfold TxnSys.call at h
  cases hc : s.ctxs x with
  | none => simp [hc] at h
  | some c =>
    simp only [hc] at h
    split at h
    · cases h
    · rename_i hcom
      rw [not_not] at hcom
      split at h
      · rename_i htpc
        split at h
        · rename_i hp
          refine ⟨c, _, rfl, hcom, (Option.some.inj h).symm, .inr ⟨rfl, ?_⟩⟩
          rcases hp with hp | ⟨hp, hf⟩
          · exact .inr ⟨hp, htpc⟩
          · exact .inl ⟨hp, fun _ => hf⟩
        · cases h
      · rename_i htpc
        rw [Bool.not_eq_true] at htpc
        split at h
        · rename_i hp
          split at h
          · exact ⟨c, none, rfl, hcom, (Option.some.inj h).symm, .inl ⟨rfl, htpc, hp⟩⟩
          · refine ⟨c, _, rfl, hcom, (Option.some.inj h).symm, .inr ⟨rfl, .inl ⟨hp, fun ht => ?_⟩⟩⟩
            rw [htpc] at ht
            cases ht
        · cases h

/-- Of the context only the fields for the outcome have changed. -/
theorem CtxtOk.of_phaseOk {c c' : TxnCtxt} (h : s.CtxtOk x c) (hi : c'.impactedQueues = c.impactedQueues)
    (hp : c'.pending = c.pending) (hph : s.PhaseOk x c') : s.CtxtOk x c' := by
  refine ⟨hp ▸ hi ▸ h.nodup, hp ▸ hi ▸ h.sub, hp ▸ h.pending, hp ▸ h.unclosed, hi ▸ h.told, hph⟩

theorem Inv.call (h : s.Inv n) {commit : Bool} (hs : s.call x commit = some s') : s'.Inv n := by
  obtain ⟨c, oc, hc, hcom, rfl, hoc⟩ := call_ok hs
  refine h.replace hc (o := oc) rfl rfl rfl rfl rfl (fun hn => ?_) fun c' hc' hcok => ?_
  · rcases hoc with ⟨-, -, hp⟩ | ⟨rfl, -⟩
    · exact h.absent_of_active hc hp
    · cases hn
  · rcases hoc with ⟨rfl, -⟩ | ⟨rfl, hp⟩
    · cases hc'
    · cases hc'
      refine hcok.of_phaseOk rfl rfl ?_
      have hph := hcok.phase
      unfold PhaseOk at hph ⊢
      rcases hp with ⟨hp, htpc⟩ | ⟨hp, -⟩
      · simp only [hp] at hph ⊢
        refine ⟨hph.1, hph.2.1, hph.2.2.1, hph.2.2.2.1, fun ht hn => ?_⟩
        rw [htpc ht] at hn
        cases hn
      · simp only [hp] at hph ⊢
        exact hph

theorem drop_ok (h : s.drop x = some s') : ∃ c, s.ctxs x = some c ∧ c.phase = .active ∧ c.commit = none ∧
    s' = s.setCtx x none := by
  unfold TxnSys.drop at h
  cases hc : s.ctxs x with
  | none => simp [hc] at h
  | some c =>
    simp only [hc] at h
    split at h
    · rename_i hp
      exact ⟨c, rfl, hp.1, hp.2, (Option.some.inj h).symm⟩
    · cases h

theorem Inv.drop (h : s.Inv n) (hs : s.drop x = some s') : s'.Inv n := by
  obtain ⟨c, hc, hp, -, rfl⟩ := drop_ok hs
  exact h.replace hc (o := none) rfl rfl rfl rfl rfl (fun _ => h.absent_of_active hc hp)
    fun c' hc' _ => by cases hc'

theorem prepareSynced_ok (h : s.prepareSynced x = some s') : ∃ c s₀, s.ctxs x = some c ∧ c.phase = .preparing ∧
    Synced true s s₀ x c ∧ s' = s₀.setCtx x (some { c with phase := .prepared }) := by
  obtain ⟨c, hc, h⟩ := Option.bind_eq_some_iff.mp h
  split at h
  · rename_i hp
    obtain ⟨s₀, hs₀, h⟩ := Option.bind_eq_some_iff.mp h
    exact ⟨c, s₀, hc, hp, sync_ok hs₀, (Option.some.inj h).symm⟩
  · cases h

theorem Inv.prepareSynced (h : s.Inv n) (hs : s.prepareSynced x = some s') : s'.Inv n := by
  obtain ⟨c, s₀, hc, hp, hsync, rfl⟩ := prepareSynced_ok hs
  refine (hsync.inv h).replace (hsync.ctxs ▸ hc) (o := some { c with phase := .prepared }) rfl rfl rfl rfl rfl
    (fun hn => by cases hn) ?_
  intro c' hc' hcok
  cases hc'
  refine hcok.of_phaseOk rfl ?_ ?_
  · simp only [TxnCtxt.pending, hp]
  · have hph := hcok.phase
    unfold PhaseOk at hph ⊢
    simp only [hp] at hph ⊢
    exact ⟨hph.1, hph.2.1⟩

theorem completeSynced_ok (h : s.completeSynced x = some s') : ∃ c s₀, s.ctxs x = some c ∧ c.phase = .decided ∧
    Synced true s s₀ x c ∧ s' = s₀.setCtx x (some { c with phase := .closing c.impactedQueues }) := by
  obtain ⟨c, hc, h⟩ := Option.bind_eq_some_iff.mp h
  split at h
  · rename_i hp
    obtain ⟨s₀, hs₀, h⟩ := Option.bind_eq_some_iff.mp h
    exact ⟨c, s₀, hc, hp, sync_ok hs₀, (Option.some.inj h).symm⟩
  · cases h

theorem Inv.completeSynced (h : s.Inv n) (hs : s.completeSynced x = some s') : s'.Inv n := by
  obtain ⟨c, s₀, hc, hp, hsync, rfl⟩ := completeSynced_ok hs
  have h₀ := hsync.inv h
  refine h₀.replace (hsync.ctxs ▸ hc) (o := some { c with phase := .closing c.impactedQueues }) rfl rfl rfl rfl rfl
    (fun hn => by cases hn) ?_
  intro c' hc' hcok
  cases hc'
  refine hcok.of_phaseOk rfl ?_ ?_
  · simp only [TxnCtxt.pending, hp]
  · have hph := hcok.phase
    unfold PhaseOk at hph ⊢
    simp only [hp] at hph ⊢
    obtain ⟨b, hout⟩ := hph
    refine ⟨b, hout, fun hr => ?_⟩
    -- the dequeue in the TPL has been waited for
    have hdec : Decides x b s₀.tpl.recs := by
      rcases hout.2 with ⟨rid, -, hst⟩ | ⟨hno, -⟩
      · have hf := h₀.logs.once.fits x
        rw [hst] at hf
        exact (hf.2.1 b).mpr rfl
      · exact absurd hno hr
    exact hdec.mono fun p hpx hm => hsync.tplKept rfl hr p hm hpx

end TxnSys

end RhmStore
