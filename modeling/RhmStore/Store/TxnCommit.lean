import RhmStore.Store.TxnSteps

/-! # Prepare, outcome and end of a transaction keep the invariant -/

namespace RhmStore

open Function

namespace TxnSys

variable {n : Nat} {s s' : TxnSys} {x : Xid}

theorem xid_close (commit : Bool) (rid : Nat) (y : Xid) :
    (if commit then JRec.txc rid y else JRec.txa rid y).xid = y := by
  cases commit with
  | true => rfl
  | false => rfl

theorem isOp_close (commit : Bool) (rid : Nat) (y : Xid) :
    (if commit then JRec.txc rid y else JRec.txa rid y).isOp = false := by
  cases commit with
  | true => rfl
  | false => rfl

theorem tplEnqueue_ok {rid fid : Nat} (h : s.tplEnqueue x rid fid = some s') : ∃ c s₀ j, s.ctxs x = some c ∧
    c.phase = .active ∧ c.commit.isSome = !c.tpc ∧ Synced true s s₀ x c ∧
    s₀.tpl.write ⟨⟨.enq rid x 1 false false, fid⟩, [if c.tpc then 1 else 0]⟩ = some j ∧
    s' = { s₀ with tpl := j }.setCtx x (some { c with phase := .preparing, tplRid := some rid }) := by
  obtain ⟨c, hc, h⟩ := Option.bind_eq_some_iff.mp h
  split at h
  · rename_i hp
    obtain ⟨s₀, hs₀, h⟩ := Option.bind_eq_some_iff.mp h
    obtain ⟨j, hw, h⟩ := Option.bind_eq_some_iff.mp h
    exact ⟨c, s₀, j, hc, hp.1, hp.2, sync_ok hs₀, hw, (Option.some.inj h).symm⟩
  · cases h

theorem tplLog_write {w : DataRec} {j : Jnl} (h : s.tpl.write w = some j) :
    j.log.recs = s.tpl.log.recs ++ [w] := by
  obtain ⟨-, -, m, -, rfl⟩ := Jnl.write_ok h
  rfl

theorem Inv.kept_of_synced (h : s'.Inv n) {c : TxnCtxt} (hc : s'.ctxs x = some c) (hp : c.phase = .active)
    (hsync : Synced true s s' x c) (q : Nat) (p : Placed) (hm : p ∈ s'.wrote q) (hpx : p.jrec.xid = x) :
    p ∈ (s'.queues q).durable := by
  have hx := (h.logs.nonempty x c hc).1
  have hok := h.xids x hx
  obtain ⟨-, -, hun, hwro, -⟩ := hok.active hc hp
  have hrec := hwro q p hm hpx
  have hq := (hok.ctxt c hc).pending q
    (openEntries_of_op (hun q) hx hrec hpx (h.logs.operation q p hm))
  unfold TxnCtxt.pending at hq
  simp only [hp] at hq
  exact hsync.kept rfl q hq p hrec hpx

theorem Inv.tplEnqueue (h : s.Inv n) {rid fid : Nat} (hs : s.tplEnqueue x rid fid = some s') : s'.Inv n := by
  obtain ⟨c, s₀, j, hc, hp, hcom, hsync, hw, rfl⟩ := tplEnqueue_ok hs
  rw [← hsync.ctxs] at hc
  replace h := hsync.inv h
  have hl := h.logs
  obtain ⟨hx, -⟩ := hl.nonempty x c hc
  have hok := h.xids x hx
  obtain ⟨-, hprep, hun, -, -⟩ := hok.active hc hp
  have habs := h.absent_of_active hc hp
  have hfresh : rid ∉ dataRids s₀.tpl.log.recs := by
    rw [← rids_placeds]
    exact (Jnl.write_ok hw).1
  have hno : ∀ p ∈ placeds s₀.tpl.log.recs, p.jrec.xid ≠ x := fun p hm hpx =>
    hprep (hl.once.prepares_of_named hm hpx)
  have hrecs := Jnl.recs_write hw
  have hdur := Jnl.durable_write hw
  refine h.writeTpl hw (.prepare rid x fid c.tpc hx habs) (.prepare fid c.tpc hl.once hfresh hx hno) rfl rfl rfl
    rfl rfl (by change (s₀.ctxs x).isSome = true; rw [hc]; rfl) ⟨?_, ?_, ?_, ?_, ?_, ?_⟩
  · exact fun _ q p hm hpx => h.kept_of_synced hc hp hsync q p hm hpx
  · exact fun q hm => absurd hm (hun q).not_commits
  · exact fun q hm => absurd hm (unclosed_iff.mp (hun q)).2
  · intro hm
    change Commits x j.recs at hm
    rw [hrecs, commits_concat_iff] at hm
    rcases hm with ⟨p, hpm, rid', hj⟩ | ⟨rid', hj⟩
    · exact absurd (by rw [hj]; rfl) (hno p hpm)
    · cases hj
  · intro hn
    simp [setCtx, JRec.xid] at hn
  · intro c' hc'
    simp only [setCtx, JRec.xid, update_self, Option.some_inj] at hc'
    subst hc'
    have hcok := hok.ctxt c hc
    have hpend : TxnCtxt.pending { c with phase := .preparing, tplRid := some rid } = c.pending := by
      simp only [TxnCtxt.pending, hp]
    refine ⟨hpend ▸ hcok.nodup, hpend ▸ hcok.sub, hpend ▸ hcok.pending, hpend ▸ hcok.unclosed, hcok.told, ?_⟩
    refine ⟨⟨rid, rfl, ?_⟩, hun, hcom⟩
    change tplState x j.log.recs = _
    rw [tplLog_write hw, tplState_concat, habs]
    cases ht : c.tpc <;> simp [TplState.next]

theorem completed_ok {rid fid : Nat} (h : s.completed x rid fid = some s') : ∃ c commit, s.ctxs x = some c ∧
    c.commit = some commit ∧
    ((∃ erid j, c.tplRid = some erid ∧ c.phase = .prepared ∧
        s.tpl.write ⟨⟨.deq rid erid x commit, fid⟩, []⟩ = some j ∧
        s' = { s with tpl := j }.setCtx x (some { c with phase := .decided })) ∨
      c.tplRid = none ∧ c.phase = .active ∧ c.tpc = true ∧
        s' = s.setCtx x (some { c with phase := .decided })) := by
  unfold TxnSys.completed at h
  cases hc : s.ctxs x with
  | none => simp [hc] at h
  | some c =>
    obtain ⟨tpc, impactedQueues, phase, commit, tplRid⟩ := c
    simp only [hc] at h
    cases commit with
    | none => cases h
    | some commit =>
      refine ⟨_, commit, rfl, rfl, ?_⟩
      cases tplRid with
      | none =>
        simp only at h
        split at h
        · rename_i hp
          exact .inr ⟨rfl, hp.1, hp.2, (Option.some.inj h).symm⟩
        · cases h
      | some erid =>
        simp only at h
        split at h
        · rename_i hp
          cases hw : s.tpl.write ⟨⟨.deq rid erid x commit, fid⟩, []⟩ with
          | none => simp [hw] at h
          | some j =>
            simp only [hw] at h
            exact .inl ⟨erid, j, rfl, hp, hw, (Option.some.inj h).symm⟩
        · cases h

theorem Inv.completed (h : s.Inv n) {rid fid : Nat} (hs : s.completed x rid fid = some s') : s'.Inv n := by
  obtain ⟨c, commit, hc, hcom, hcase⟩ := completed_ok hs
  have hl := h.logs
  obtain ⟨hx, -⟩ := hl.nonempty x c hc
  have hok := h.xids x hx
  have hcok := hok.ctxt c hc
  rcases hcase with ⟨erid, j, hr, hp, hw, rfl⟩ | ⟨hr, hp, htpc, rfl⟩
  · have hph := hcok.phase
    unfold PhaseOk at hph
    simp only [hp, hr, Option.some_inj] at hph
    obtain ⟨⟨erid', rfl, hst⟩, hun⟩ := hph
    have hfresh : rid ∉ dataRids s.tpl.log.recs := by
      rw [← rids_placeds]
      exact (Jnl.write_ok hw).1
    have hfit := hl.once.fits x
    rw [hst] at hfit
    have hrecs := Jnl.recs_write hw
    refine h.writeTpl hw (.dequeue rid erid x commit fid c.tpc hst) (.dequeue fid commit hl.once hfresh hst) rfl rfl
      rfl rfl rfl (by change (s.ctxs x).isSome = true; rw [hc]; rfl) ⟨?_, ?_, ?_, ?_, ?_, ?_⟩
    · exact fun _ => hok.kept hfit.1
    · exact fun q hm => absurd hm (hun q).not_commits
    · exact fun q hm => absurd hm (unclosed_iff.mp (hun q)).2
    · intro hm
      change Commits x j.recs at hm
      rw [hrecs, commits_concat_iff] at hm
      rcases hm with hm | ⟨rid', hj⟩
      · exact absurd hm hfit.2.2.1
      · cases hj
    · intro hn
      simp [setCtx, JRec.xid] at hn
    · intro c' hc'
      simp only [setCtx, JRec.xid, update_self, Option.some_inj] at hc'
      subst hc'
      have hpend : TxnCtxt.pending { c with phase := .decided } = c.pending := by
        simp only [TxnCtxt.pending, hp]
      refine ⟨hpend ▸ hcok.nodup, hpend ▸ hcok.sub, hpend ▸ hcok.pending, hpend ▸ hcok.unclosed, hcok.told, ?_⟩
      refine ⟨commit, hcom, .inl ⟨erid, hr, ?_⟩⟩
      change tplState x j.log.recs = _
      rw [tplLog_write hw, tplState_concat, hst]
      simp [TplState.next]
  · refine h.replace hc (o := some { c with phase := .decided }) rfl rfl rfl rfl rfl (fun hn => by cases hn) ?_
    intro c' hc' _
    cases hc'
    refine hcok.of_phaseOk rfl ?_ ?_
    · simp only [TxnCtxt.pending, hp]
    · obtain ⟨-, hprep, -, -, hcf⟩ := hok.active hc hp
      refine ⟨commit, hcom, .inr ⟨hr, ?_, hprep⟩⟩
      cases commit with
      | false => rfl
      | true => exact absurd hcom (hcf htpc)

theorem commitTxnTpl_ok {rid fid : Nat} (h : s.commitTxnTpl x rid fid = some s') : ∃ c commit s₀,
    s.ctxs x = some c ∧ c.commit = some commit ∧ c.phase = .closing [] ∧ Synced commit s s₀ x c ∧
    ((∃ j, c.tplRid ≠ none ∧
        s₀.tpl.write ⟨⟨if commit then .txc rid x else .txa rid x, fid⟩, []⟩ = some j ∧
        s' = { s₀ with tpl := j }.setCtx x none) ∨
      c.tplRid = none ∧ s' = s₀.setCtx x none) := by
  obtain ⟨c, hc, h⟩ := Option.bind_eq_some_iff.mp h
  obtain ⟨commit, hcom, h⟩ := Option.bind_eq_some_iff.mp h
  split at h
  · rename_i hp
    obtain ⟨s₀, hs₀, h⟩ := Option.bind_eq_some_iff.mp h
    refine ⟨c, commit, s₀, hc, hcom, hp, syncCommit_ok hs₀, ?_⟩
    split at h
    · rename_i hr
      obtain ⟨j, hw, h⟩ := Option.bind_eq_some_iff.mp h
      exact .inl ⟨j, Option.isSome_iff_ne_none.mp hr, hw, (Option.some.inj h).symm⟩
    · rename_i hr
      rw [Bool.not_eq_true, Option.isSome_eq_false_iff, Option.isNone_iff_eq_none] at hr
      exact .inr ⟨hr, (Option.some.inj h).symm⟩
  · cases h

theorem Inv.committed_all (h : s'.Inv n) {c : TxnCtxt} (hc : s'.ctxs x = some c) (hp : c.phase = .closing [])
    (hd : Decides x true s'.tpl.durable) (hprep : Prepares x s'.tpl.recs) (hsync : Synced true s s' x c) (q : Nat)
    (p : Placed) (hm : p ∈ s'.wrote q) (hpx : p.jrec.xid = x) : Commits x (s'.queues q).durable := by
  have hx := (h.logs.nonempty x c hc).1
  have hok := h.xids x hx
  have hcok := hok.ctxt c hc
  have hrec := Jnl.durable_subset _ (hok.kept hprep q p hm hpx)
  have hdr : Decides x true s'.tpl.recs := hd.mono fun p _ hm => Jnl.durable_subset _ hm
  have hcl : Commits x (s'.queues q).recs := by
    by_contra hno
    have hun : Unclosed x (s'.queues q).recs := by
      refine unclosed_iff.mpr ⟨hno, fun ha => ?_⟩
      rcases hok.aborts q ha with hf | hf
      · have hfr : Decides x false s'.tpl.recs := hf.mono fun p _ hm => Jnl.durable_subset _ hm
        exact absurd (h.logs.once.decides_unique hdr hfr) (by decide)
      · exact hf hprep
    have hq := hcok.pending q (openEntries_of_op hun hx hrec hpx (h.logs.operation q p hm))
    simp [TxnCtxt.pending, hp] at hq
  rcases hcok.told q hcl with hq | hdone
  · exact hcl.mono fun p hpx hm => hsync.kept rfl q hq p hm hpx
  · exact hdone

theorem Inv.commitTxnTpl (h : s.Inv n) {rid fid : Nat} (hs : s.commitTxnTpl x rid fid = some s') : s'.Inv n := by
  obtain ⟨c, commit, s₀, hc, hcom, hp, hsync, hcase⟩ := commitTxnTpl_ok hs
  rw [← hsync.ctxs] at hc
  replace h := hsync.inv h
  have hl := h.logs
  obtain ⟨hx, -⟩ := hl.nonempty x c hc
  have hok := h.xids x hx
  have hcok := hok.ctxt c hc
  have hph := hcok.phase
  unfold PhaseOk at hph
  simp only [hp] at hph
  obtain ⟨b, ⟨hb, hout⟩, hd⟩ := hph
  obtain rfl : commit = b := Option.some.inj (hcom.symm.trans hb)
  rcases hcase with ⟨j, hr, hw, rfl⟩ | ⟨hr, rfl⟩
  · rcases hout with ⟨erid, -, hst⟩ | ⟨hno, -⟩
    · have hfresh : rid ∉ dataRids s₀.tpl.log.recs := by
        have hf := (Jnl.write_ok hw).1
        rw [Jnl.recs, rids_placeds] at hf
        cases commit <;> exact hf
      have hfit := hl.once.fits x
      rw [hst] at hfit
      have hrecs := Jnl.recs_write hw
      have hxid := xid_close commit rid x
      have hprep : Prepares x j.recs → Prepares x s₀.tpl.recs := fun _ => hfit.1
      have hadd : TplAdds s₀.tpl.log.recs ⟨⟨if commit then .txc rid x else .txa rid x, fid⟩, []⟩ := by
        cases commit with
        | true => exact .commit rid x fid erid c.tpc true hst
        | false => exact .abort rid x fid erid c.tpc false hst
      refine h.writeTpl hw hadd (.close fid hl.once hfresh hst) rfl rfl rfl
        (by rw [hxid]; rfl) rfl (by rw [hxid, hc]; rfl) ?_
      rw [hxid]
      refine ⟨fun hpr => hok.kept (hprep hpr), ?_, ?_, ?_, ?_, ?_⟩
      · intro q hm
        change Decides x true j.durable
        rw [Jnl.durable_write hw]
        exact hok.commits q hm
      · intro q hm
        change Decides x false j.durable ∨ _
        rw [Jnl.durable_write hw]
        exact .inl ((hok.aborts q hm).resolve_right fun hn => hn hfit.1)
      · intro hm q p hpm hpx
        change Commits x j.recs at hm
        rw [hrecs, commits_concat_iff] at hm
        rcases hm with hm | ⟨rid', hj⟩
        · exact absurd hm hfit.2.2.1
        · have htrue : commit = true := by
            cases commit with
            | true => rfl
            | false => cases hj
          subst htrue
          exact h.committed_all hc hp (hd hr) hfit.1 hsync q p hpm hpx
      · intro _
        change tplState x j.log.recs = .absent
        rw [tplLog_write hw, tplState_concat, hst]
        cases commit <;> simp [TplState.next]
      · intro c' hc'
        simp [setCtx] at hc'
    · exact absurd hno hr
  · rcases hout with ⟨erid, her, -⟩ | ⟨-, -, hprep⟩
    · rw [hr] at her
      cases her
    · exact h.replace hc (o := none) rfl rfl rfl rfl rfl (fun _ => hl.once.absent_of_not_prepares hprep)
        fun c' hc' _ => by cases hc'

theorem commitTxn_ok {q rid fid : Nat} (h : s.commitTxn x q rid fid = some s') : ∃ c todo commit s₀ j,
    s.ctxs x = some c ∧ c.phase = .closing todo ∧ c.commit = some commit ∧ q ∈ todo ∧ Synced commit s s₀ x c ∧
    (s₀.queues q).write ⟨⟨if commit then .txc rid x else .txa rid x, fid⟩, []⟩ = some j ∧
    s' = (s₀.setQueue q j).setCtx x (some { c with phase := .closing (todo.erase q) }) := by
  obtain ⟨c, hc, h⟩ := Option.bind_eq_some_iff.mp h
  obtain ⟨commit, hcom, h⟩ := Option.bind_eq_some_iff.mp h
  split at h
  · rename_i todo hp
    split at h
    · rename_i hq
      obtain ⟨s₀, hs₀, h⟩ := Option.bind_eq_some_iff.mp h
      obtain ⟨j, hw, h⟩ := Option.bind_eq_some_iff.mp h
      exact ⟨c, todo, commit, s₀, j, hc, hp, hcom, hq, syncCommit_ok hs₀, hw, (Option.some.inj h).symm⟩
    · cases h
  · cases h

/-- A queue is told the outcome. -/
theorem XidOk.commitTxn (h : s.XidOk x) {q rid fid : Nat} {c : TxnCtxt} {todo : List Nat} {commit : Bool}
    {j : Jnl} (hc : s.ctxs x = some c) (hp : c.phase = .closing todo) (hcom : c.commit = some commit)
    (hq : q ∈ todo) (hw : (s.queues q).write ⟨⟨if commit then .txc rid x else .txa rid x, fid⟩, []⟩ = some j)
    (hs : s' = (s.setQueue q j).setCtx x (some { c with phase := .closing (todo.erase q) })) : s'.XidOk x := by
  have hcok := h.ctxt c hc
  have hpend : c.pending = todo := by simp only [TxnCtxt.pending, hp]
  have hph := hcok.phase
  unfold PhaseOk at hph
  simp only [hp] at hph
  obtain ⟨b, hout, hd⟩ := hph
  obtain rfl : commit = b := Option.some.inj (hcom.symm.trans hout.1)
  have htpl : s'.tpl = s.tpl := by rw [hs]; rfl
  have hwr : s'.wrote = s.wrote := by rw [hs]; rfl
  have hqs : s'.queues = update s.queues q j := by rw [hs]; rfl
  have hcs : s'.ctxs x = some { c with phase := .closing (todo.erase q) } := by
    rw [hs]
    exact update_self _ _ _
  have hdur : ∀ q', (s'.queues q').durable = (s.queues q').durable := by
    intro q'
    rw [hqs]
    by_cases hqq : q' = q
    · subst hqq
      rw [update_self, Jnl.durable_write hw]
    · rw [update_of_ne hqq]
  have hrec : ∀ q', q' ≠ q → (s'.queues q').recs = (s.queues q').recs := by
    intro q' hqq
    rw [hqs, update_of_ne hqq]
  have hrecq : (s'.queues q).recs =
      (s.queues q).recs ++ [⟨if commit then .txc rid x else .txa rid x, fid⟩] := by
    rw [hqs, update_self, Jnl.recs_write hw]
  refine ⟨?_, ?_, ?_, ?_, ?_, ?_⟩
  · intro hpr q' p hm hpx
    rw [htpl] at hpr
    rw [hwr] at hm
    rw [hdur]
    exact h.kept hpr q' p hm hpx
  · intro q' hm
    rw [htpl]
    by_cases hqq : q' = q
    · subst hqq
      rw [hrecq, commits_concat_iff] at hm
      rcases hm with hm | ⟨rid', hj⟩
      · exact h.commits q' hm
      · cases commit with
        | false => cases hj
        | true =>
          refine hd fun hn => ?_
          rcases hout.2 with ⟨erid, her, -⟩ | ⟨-, hf, -⟩
          · rw [hn] at her
            cases her
          · cases hf
    · rw [hrec q' hqq] at hm
      exact h.commits q' hm
  · intro q' hm
    rw [htpl]
    by_cases hqq : q' = q
    · subst hqq
      rw [hrecq, aborts_concat_iff] at hm
      rcases hm with hm | ⟨rid', hj⟩
      · exact h.aborts q' hm
      · cases commit with
        | true => cases hj
        | false =>
          rcases hout.2 with ⟨erid, her, -⟩ | ⟨-, -, hnp⟩
          · exact .inl (hd (by rw [her]; exact Option.some_ne_none erid))
          · exact .inr hnp
    · rw [hrec q' hqq] at hm
      exact h.aborts q' hm
  · intro hm q' p hpm hpx
    rw [htpl] at hm
    rw [hwr] at hpm
    rw [hdur]
    exact h.closed hm q' p hpm hpx
  · intro hn
    rw [hcs] at hn
    cases hn
  · intro c' hc'
    rw [hcs] at hc'
    cases hc'
    obtain ⟨hn, hni⟩ := hcok.nodup
    rw [hpend] at hn
    refine ⟨⟨hn.erase q, hni⟩, ?_, ?_, ?_, ?_, ?_⟩
    · intro q' hq'
      exact hcok.sub q' (hpend ▸ List.mem_of_mem_erase hq')
    · intro q' ho
      by_cases hqq : q' = q
      · subst hqq
        have hcl : (if commit then JRec.txc rid x else JRec.txa rid x).closes x = true := by
          cases commit <;> simp [JRec.closes]
        rw [hrecq, openEntries_concat, if_pos hcl] at ho
        exact absurd rfl ho
      · rw [hrec q' hqq] at ho
        have hm := hcok.pending q' ho
        rw [hpend] at hm
        exact (List.mem_erase_of_ne hqq).mpr hm
    · intro q' hq'
      have hqq := (hn.mem_erase_iff.mp hq').1
      rw [hrec q' hqq]
      exact hcok.unclosed q' (hpend ▸ (hn.mem_erase_iff.mp hq').2)
    · intro q' hm
      by_cases hqq : q' = q
      · subst hqq
        exact .inl (hcok.sub q' (hpend ▸ hq))
      · rw [hrec q' hqq] at hm
        rw [hdur]
        exact hcok.told q' hm
    · refine ⟨commit, ⟨hcom, ?_⟩, ?_⟩
      · rw [htpl]
        exact hout.2
      · rw [htpl]
        exact hd

theorem Inv.commitTxn (h : s.Inv n) {q rid fid : Nat} (hqn : q < n) (hs : s.commitTxn x q rid fid = some s') :
    s'.Inv n := by
  obtain ⟨c, todo, commit, s₀, j, hc, hp, hcom, hq, hsync, hw, rfl⟩ := commitTxn_ok hs
  rw [← hsync.ctxs] at hc
  replace h := hsync.inv h
  have hx := (h.logs.nonempty x c hc).1
  have hok := h.xids x hx
  have hxid := xid_close commit rid x
  have hop := isOp_close commit rid x
  refine h.writeQueue hqn hw rfl rfl (fun q' => ?_) (fun y hy => ?_) (fun y => ?_) rfl (fun _ => ?_) fun _ => ?_
  · rw [if_neg fun hc => by rw [hop] at hc; cases hc.2]
    rfl
  · change y ≠ (if commit then JRec.txc rid x else JRec.txa rid x).xid at hy
    rw [hxid] at hy
    exact update_of_ne hy _ _
  · by_cases hy : y = x
    · subst hy
      simp [setCtx, hc]
    · simp [setCtx, setQueue, hy]
  · change (s₀.ctxs (if commit then JRec.txc rid x else JRec.txa rid x).xid).isSome = true ∧
      Unclosed (if commit then JRec.txc rid x else JRec.txa rid x).xid _
    rw [hxid, hc]
    refine ⟨rfl, (hok.ctxt c hc).unclosed q ?_⟩
    simpa only [TxnCtxt.pending, hp] using hq
  · change XidOk _ (if commit then JRec.txc rid x else JRec.txa rid x).xid
    rw [hxid]
    exact hok.commitTxn hc hp hcom hq hw rfl

end TxnSys

end RhmStore
