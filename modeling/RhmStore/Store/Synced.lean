import RhmStore.Store.Given

/-! # What `TxnCtxt::sync` waits for has returned

`is_txn_synced` looks at the entries of the open transaction, and at the commits and aborts that are
pending. That finds every write outstanding: a journal gets the commit or abort of a transaction when
no write of its operations is. -/

namespace RhmStore

open Function

theorem JRec.isOp_or_closes (r : JRec) : r.isOp = true ∨ r.closes r.xid = true := by
  cases r with
  | enq rid y d t e => exact .inl rfl
  | deq rid drid y c => exact .inl rfl
  | txa rid y => exact .inr (by simp [JRec.closes, JRec.xid])
  | txc rid y => exact .inr (by simp [JRec.closes, JRec.xid])

theorem JRec.not_closes_of_isOp {r : JRec} (h : r.isOp = true) (x : Xid) : r.closes x = false := by
  cases r with
  | enq rid y d t e => rfl
  | deq rid drid y c => rfl
  | txa rid y => cases h
  | txc rid y => cases h

theorem closes_close (commit : Bool) (rid : Nat) (y : Xid) :
    (if commit then JRec.txc rid y else JRec.txa rid y).closes y = true := by
  cases commit with
  | true => simp [JRec.closes]
  | false => simp [JRec.closes]

theorem JRec.ended_of_closes {r : JRec} {x : Xid} (h : r.closes x = true) : r.ended = [x] := by
  rcases (closes_iff r x).mp h with ⟨rid, rfl⟩ | ⟨rid, rfl⟩
  · rfl
  · rfl

theorem Maps.data_complete_isOp {m m' : Maps} {fid : Nat} {r : JRec} (hop : r.isOp = true)
    (h : complete fid r m = .ok () m') (x : Xid) :
    m'.tmap.getTdataList x = if r.xid ≠ [] ∧ x = r.xid then m.tmap.getTdataList x ++ [entryOf false fid r]
      else m.tmap.getTdataList x := by
  by_cases hx : r.xid = []
  · rw [if_neg fun hc => hc.1 hx]
    have hk : Keeps (·.tmap = m.tmap) (complete fid r) := by
      cases r with
      | enq rid y d t e =>
        obtain rfl : y = [] := hx
        change Keeps _ (incrEnqcnt fid >>= fun _ => insertPfid rid fid)
        refine Keeps.bind ?_ fun _ => keeps_tmap_insertPfid rid fid
        exact Keeps.modify fun _ h => h
      | deq rid drid y c =>
        obtain rfl : y = [] := hx
        change Keeps _ (getRemovePfid drid false >>= decrEnqcnt)
        exact (keeps_tmap_getRemovePfid drid false).bind keeps_tmap_decrEnqcnt
      | txa rid y => cases hop
      | txc rid y => cases hop
    rw [hk.of_ok rfl h]
  · simp only [ne_eq, hx, not_false_eq_true, true_and]
    cases r with
    | enq rid y d t e => exact data_complete_op hx (.inl ⟨rid, y, d, t, e, rfl⟩) h x
    | deq rid drid y c => exact data_complete_op hx (.inr ⟨rid, drid, y, c, rfl⟩) h x
    | txa rid y => cases hop
    | txc rid y => cases hop

theorem Maps.data_complete_closes {m m' : Maps} {fid : Nat} {r : JRec} {y : Xid} (hc : r.closes y = true)
    (h : complete fid r m = .ok () m') (x : Xid) :
    m'.tmap.getTdataList x = if x = y then [] else m.tmap.getTdataList x := by
  rcases (closes_iff r y).mp hc with ⟨rid, rfl⟩ | ⟨rid, rfl⟩
  · exact data_closeWith (fun _ td => keeps_tmap_abortEntry td) y h x
  · exact data_closeWith (fun _ td => keeps_tmap_commitEntry td) y h x

theorem Maps.entryOf_rid {fid : Nat} {r : JRec} (hop : r.isOp = true) :
    (entryOf false fid r).rid = r.rid ∧ (entryOf false fid r).aioCompl = false := by
  cases r with
  | enq rid y d t e => exact ⟨rfl, rfl⟩
  | deq rid drid y c => exact ⟨rfl, rfl⟩
  | txa rid y => cases hop
  | txc rid y => cases hop

namespace TxnMap

theorem mem_markAioCompl {rid : Nat} {td : TxnData} {tdl : List TxnData} (h : td ∈ tdl) (hr : td.rid ≠ rid) :
    td ∈ markAioCompl rid tdl := by
  induction tdl with
  | nil => cases h
  | cons td' tdl ih =>
    unfold markAioCompl
    split
    · rename_i heq
      rcases List.mem_cons.mp h with rfl | h
      · exact absurd heq hr
      · exact List.mem_cons_of_mem _ h
    · rcases List.mem_cons.mp h with rfl | h
      · exact List.mem_cons_self
      · exact List.mem_cons_of_mem _ (ih h)

end TxnMap

namespace Jnl

variable {j j' : Jnl} {w : DataRec} {x : Xid}

/-- No write of a record of the transaction is outstanding. -/
def Quiet (j : Jnl) (x : Xid) : Prop := ∀ p ∈ j.recs, p.jrec.xid = x → p.jrec.rid ∉ j.out

structure Awaits (j : Jnl) : Prop where
  nodup : j.out.Nodup
  known : ∀ r ∈ j.out, r ∈ rids j.recs
  op : ∀ p ∈ j.recs, p.jrec.isOp = true → p.jrec.xid ≠ [] → p.jrec.rid ∈ j.out →
    ∃ td ∈ j.maps.tmap.getTdataList p.jrec.xid, td.rid = p.jrec.rid ∧ td.aioCompl = false
  close : ∀ p ∈ j.recs, ∀ x, p.jrec.closes x = true → p.jrec.rid ∈ j.out → x ∈ j.txnPending
  once : ∀ p ∈ j.recs, ∀ p' ∈ j.recs, ∀ x, p.jrec.closes x = true → p'.jrec.closes x = true →
    p.jrec.rid ∈ j.out → p'.jrec.rid ∈ j.out → p.jrec.rid = p'.jrec.rid

theorem awaits_of_out (h : j.out = []) : j.Awaits := by
  have hno : ∀ r, r ∉ j.out := fun r => h ▸ List.not_mem_nil
  exact ⟨h ▸ List.nodup_nil, fun r hr => absurd hr (hno r), fun p _ _ _ hr => absurd hr (hno _),
    fun p _ _ _ hr => absurd hr (hno _), fun p _ _ _ _ _ _ hr => absurd hr (hno _)⟩

theorem Awaits.quiet (h : j.Awaits) (hx : x ≠ []) (hs : j.isTxnSynced x = true) : j.Quiet x := by
  simp only [isTxnSynced, Wmgr.txnSynced, Bool.and_eq_true, decide_eq_true_iff, ne_eq] at hs
  obtain ⟨hmap, hpend⟩ := hs
  rintro p hp rfl hr
  rcases p.jrec.isOp_or_closes with hop | hcl
  · obtain ⟨td, hm, -, haio⟩ := h.op p hp hop hx hr
    refine hmap ?_
    unfold TxnMap.getTdataList at hm
    unfold TxnMap.isTxnSynced
    cases hg : j.maps.tmap.map[p.jrec.xid]? with
    | none =>
      rw [hg] at hm
      cases hm
    | some tdl =>
      rw [hg, Option.getD_some] at hm
      rw [Option.map_some, Option.some_inj, ← Bool.not_eq_true, List.all_eq_true]
      intro hall
      rw [hall td hm] at haio
      cases haio
  · exact hpend (h.close p hp _ hcl hr)

theorem Awaits.sync (h : j.Awaits) (k : Nat) : ({ j with log := j.log.sync k } : Jnl).Awaits :=
  ⟨h.nodup, h.known, h.op, h.close, h.once⟩

theorem out_write (hw : j.write w = some j') {p : Placed} (hp : p ∈ j.recs) (hr : p.jrec.rid ∈ j'.out) :
    p.jrec.rid ∈ j.out := by
  obtain ⟨hn, -, m, -, rfl⟩ := write_ok hw
  rcases List.mem_cons.mp hr with hr | hr
  · exact absurd (hr ▸ List.mem_map_of_mem hp) hn
  · exact hr

theorem Awaits.nodup_write (h : j.Awaits) (hw : j.write w = some j') :
    j'.out.Nodup ∧ ∀ r ∈ j'.out, r ∈ rids j'.recs := by
  have hrecs := recs_write hw
  obtain ⟨hn, -, m, -, rfl⟩ := write_ok hw
  rw [hrecs, rids, List.map_append, List.map_singleton]
  refine ⟨List.nodup_cons.mpr ⟨fun hr => hn (h.known _ hr), h.nodup⟩, fun r hr => ?_⟩
  rcases List.mem_cons.mp hr with rfl | hr
  · exact List.mem_append_right _ List.mem_cons_self
  · exact List.mem_append_left _ (h.known r hr)

theorem Awaits.write_op (h : j.Awaits) (hw : j.write w = some j') (hop : w.placed.jrec.isOp = true) : j'.Awaits := by
  obtain ⟨hnd, hkn⟩ := h.nodup_write hw
  have hrecs := recs_write hw
  have hout := fun {p} hp => out_write (p := p) hw hp
  obtain ⟨-, -, m, hm, rfl⟩ := write_ok hw
  have hold : ∀ {p}, p ∈ j.recs ++ [w.placed] → p ∈ j.recs ∨ p = w.placed := fun hp =>
    (List.mem_append.mp hp).imp_right List.mem_singleton.mp
  -- a closing record is an old one
  have hcl : ∀ {p x}, p ∈ j.recs ++ [w.placed] → p.jrec.closes x = true → p ∈ j.recs := by
    intro p x hp hc
    refine (hold hp).resolve_right fun heq => ?_
    rw [heq, JRec.not_closes_of_isOp hop] at hc
    cases hc
  refine ⟨hnd, hkn, fun p hp hpo hx hr => ?_, fun p hp x hc hr => ?_, fun p hp p' hp' x hc hc' hr hr' => ?_⟩
  · rw [hrecs] at hp
    have hdata := Maps.data_complete_isOp hop (Maps.ok_perform hm).2 p.jrec.xid
    rcases hold hp with hpm | rfl
    · obtain ⟨td, htd, hr'⟩ := h.op p hpm hpo hx (hout hpm hr)
      refine ⟨td, ?_, hr'⟩
      rw [hdata]
      split
      · exact List.mem_append_left _ htd
      · exact htd
    · rw [hdata, if_pos ⟨hx, rfl⟩]
      exact ⟨_, List.mem_append_right _ List.mem_cons_self, Maps.entryOf_rid hop⟩
  · rw [hrecs] at hp
    have hpm := hcl hp hc
    exact List.mem_append_right _ (h.close p hpm x hc (hout hpm hr))
  · rw [hrecs] at hp hp'
    have hpm := hcl hp hc
    have hpm' := hcl hp' hc'
    exact h.once p hpm p' hpm' x hc hc' (hout hpm hr) (hout hpm' hr')

theorem Awaits.write_close (h : j.Awaits) (hw : j.write w = some j') (hc : w.placed.jrec.closes x = true)
    (hq : j.Quiet x) : j'.Awaits := by
  obtain ⟨hnd, hkn⟩ := h.nodup_write hw
  have hrecs := recs_write hw
  have hout := fun {p} hp => out_write (p := p) hw hp
  obtain ⟨-, -, m, hm, rfl⟩ := write_ok hw
  have hxid := xid_of_closes hc
  have hold : ∀ {p}, p ∈ j.recs ++ [w.placed] → p ∈ j.recs ∨ p = w.placed := fun hp =>
    (List.mem_append.mp hp).imp_right List.mem_singleton.mp
  have hdata := Maps.data_complete_closes hc (Maps.ok_perform hm).2
  refine ⟨hnd, hkn, fun p hp hpo hx hr => ?_, fun p hp y hcl hr => ?_, fun p hp p' hp' y hcl hcl' hr hr' => ?_⟩
  · rw [hrecs] at hp
    rcases hold hp with hpm | rfl
    · obtain ⟨td, htd, hr'⟩ := h.op p hpm hpo hx (hout hpm hr)
      refine ⟨td, ?_, hr'⟩
      rwa [hdata, if_neg fun heq => hq p hpm heq (hout hpm hr)]
    · rw [JRec.not_closes_of_isOp hpo] at hc
      cases hc
  · rw [hrecs] at hp
    rcases hold hp with hpm | rfl
    · exact List.mem_append_right _ (h.close p hpm y hcl (hout hpm hr))
    · rw [JRec.ended_of_closes hcl]
      exact List.mem_append_left _ List.mem_cons_self
  · rw [hrecs] at hp hp'
    -- no other record that closes it is outstanding
    have hlone : ∀ {p}, p ∈ j.recs → p.jrec.closes y = true → w.placed.jrec.closes y = true →
        p.jrec.rid ∉ j.out := by
      intro p hpm hpc hwc
      have hy : y = x := (xid_of_closes hwc).symm.trans hxid
      exact hq p hpm ((xid_of_closes hpc).trans hy)
    rcases hold hp with hpm | rfl
    · rcases hold hp' with hpm' | rfl
      · exact h.once p hpm p' hpm' y hcl hcl' (hout hpm hr) (hout hpm' hr')
      · exact absurd (hout hpm hr) (hlone hpm hcl hcl')
    · rcases hold hp' with hpm' | rfl
      · exact absurd (hout hpm' hr') (hlone hpm' hcl' hcl)
      · rfl

/-- A write returns. -/
theorem Awaits.returned (h : j.Awaits) {rid : Nat} (hrid : rid ∈ j.out) : (j.returned rid).Awaits := by
  have hret := j.returns_returned rid
  generalize j.returned rid = j' at hret
  have hmem : ∀ {r}, r ∈ j.out.erase rid → r ∈ j.out ∧ r ≠ rid := fun hr =>
    ⟨List.mem_of_mem_erase hr, fun heq => by
      rw [heq] at hr
      exact h.nodup.not_mem_erase hr⟩
  have hplain : ({ j with out := j.out.erase rid } : Jnl).Awaits := by
    refine ⟨h.nodup.erase rid, fun r hr => h.known r (hmem hr).1, fun p hp hop hx hr => ?_, fun p hp x hc hr => ?_,
      fun p hp p' hp' x hc hc' hr hr' => ?_⟩
    · exact h.op p hp hop hx (hmem hr).1
    · exact h.close p hp x hc (hmem hr).1
    · exact h.once p hp p' hp' x hc hc' (hmem hr).1 (hmem hr').1
  cases hret with
  | none => exact h
  | plain => exact hplain
  | marks y =>
    unfold setAioCompl
    cases hs : j.maps.tmap.setAioCompl y rid with
    | error e => exact hplain
    | ok tmap =>
      have hm : Maps.setAioCompl y rid j.maps = .ok () { j.maps with tmap := tmap } := by
        simp only [Maps.setAioCompl, ok_get_bind, hs, ok_set]
      refine ⟨hplain.nodup, hplain.known, fun p hp hop hx hr => ?_, hplain.close, hplain.once⟩
      obtain ⟨td, htd, htr, haio⟩ := h.op p hp hop hx (hmem hr).1
      refine ⟨td, ?_, htr, haio⟩
      have hdata := Maps.data_setAioCompl y rid hm p.jrec.xid
      change td ∈ tmap.getTdataList p.jrec.xid
      rw [hdata]
      split
      · exact TxnMap.mem_markAioCompl htd (htr ▸ (hmem hr).2)
      · exact htd
  | ends y hy =>
    obtain ⟨p₀, hp₀, hr₀, hc₀⟩ := hy
    refine ⟨hplain.nodup, hplain.known, hplain.op, fun p hp x hc hr => ?_, hplain.once⟩
    have hne : x ≠ y := by
      rintro rfl
      exact (hmem hr).2 ((h.once p hp p₀ hp₀ x hc hc₀ (hmem hr).1 (hr₀ ▸ hrid)).trans hr₀)
    exact (List.mem_erase_of_ne hne).mpr (h.close p hp x hc (hmem hr).1)

/-- A transaction that gets no record stays quiet. -/
theorem Quiet.live (h : j.Quiet x) (hl : Live j j') (hback : ∀ p ∈ j'.recs, p.jrec.xid = x → p ∈ j.recs) :
    j'.Quiet x := by
  intro p hp hpx hr
  have hpm := hback p hp hpx
  refine h p hpm hpx ?_
  cases hl with
  | sync k => exact hr
  | @write k w _ hw => exact out_write (j := { j with log := j.log.sync k }) hw hpm hr
  | returned rid =>
    generalize hj : j.returned rid = j₁ at hr
    have hret := hj ▸ j.returns_returned rid
    cases hret with
    | none => exact hr
    | plain => exact List.mem_of_mem_erase hr
    | marks y => exact List.mem_of_mem_erase hr
    | ends y _ => exact List.mem_of_mem_erase hr

end Jnl

namespace TxnSys

variable {n files tplFiles : Nat} {s s' s₀ : TxnSys} {x : Xid} {c : TxnCtxt} {a : TxnAct} {acts : List TxnAct}

/-- In each journal what is outstanding is in the maps, and nothing of a transaction whose end the
journal is still to be told. -/
structure Awaits (s : TxnSys) : Prop where
  queue : ∀ q, (s.queues q).Awaits
  tpl : s.tpl.Awaits
  closing : ∀ x c todo, s.ctxs x = some c → c.phase = .closing todo →
    (∀ q ∈ todo, (s.queues q).Quiet x) ∧ (c.tplRid ≠ none → s.tpl.Quiet x)

theorem Syncs.queueAwaits (h : Syncs s s₀) (hw : s.Awaits) (q : Nat) : (s₀.queues q).Awaits := by
  obtain ⟨k, hk⟩ := h.queue q
  rw [hk]
  exact (hw.queue q).sync k

theorem Syncs.tplAwaits (h : Syncs s s₀) (hw : s.Awaits) : s₀.tpl.Awaits := by
  obtain ⟨k, hk⟩ := h.tpl
  rw [hk]
  exact hw.tpl.sync k

theorem Syncs.quiet (h : Syncs s s₀) {q : Nat} (hq : (s.queues q).Quiet x) : (s₀.queues q).Quiet x := by
  obtain ⟨k, hk⟩ := h.queue q
  rw [hk]
  exact hq

theorem Syncs.tplQuiet (h : Syncs s s₀) (hq : s.tpl.Quiet x) : s₀.tpl.Quiet x := by
  obtain ⟨k, hk⟩ := h.tpl
  rw [hk]
  exact hq

theorem Awaits.quiet_of_synced (h : s.Awaits) (hx : x ≠ []) (hs : Synced true s s₀ x c) :
    (∀ q ∈ c.impactedQueues, (s.queues q).Quiet x) ∧ (c.tplRid ≠ none → s.tpl.Quiet x) :=
  ⟨fun q hq => (h.queue q).quiet hx (hs.synced rfl q hq), fun hr => h.tpl.quiet hx (hs.tplSynced rfl hr)⟩

theorem out_of_crash {k : Nat} {kept : Nat → Nat} (hs : s.crash n files tplFiles k kept = some s') :
    (∀ q < n, (s'.queues q).out = []) ∧ s'.tpl.out = [] := by
  obtain ⟨rm, -, hfound, -⟩ := crash_ok hs
  refine ⟨fun q hq => ?_, ?_⟩
  · have hj := hfound q hq
    unfold Jnl.recover at hj
    split at hj
    · rw [← Option.some.inj hj]
    · cases hj
  · unfold TxnSys.crash at hs
    simp only at hs
    split at hs
    · cases hs
    · split at hs
      · cases hs
      · split at hs
        · cases hs
          rfl
        · cases hs

theorem Awaits.journals (h : s.Awaits) (hi : s.Inv n) (hs : s.step n files tplFiles a = some s') :
    (∀ q, (s'.queues q).Awaits) ∧ s'.tpl.Awaits := by
  have written : ∀ {s₀ : TxnSys} {q : Nat} {j : Jnl}, (∀ q, (s₀.queues q).Awaits) → j.Awaits →
      ∀ q', (update s₀.queues q j q').Awaits := by
    intro s₀ q j hall hj q'
    by_cases hq : q' = q
    · subst hq
      rwa [update_self]
    · rw [update_of_ne hq]
      exact hall q'
  cases a with
  | begin y tpc =>
    obtain ⟨-, -, rfl⟩ := begin_ok hs
    exact ⟨h.queue, h.tpl⟩
  | store q w =>
    simp only [TxnSys.step] at hs
    split at hs
    · obtain ⟨hop, j, hw, ⟨-, rfl⟩ | ⟨-, c, -, -, -, rfl⟩⟩ := store_ok hs
      · exact ⟨written h.queue ((h.queue q).write_op hw hop), h.tpl⟩
      · exact ⟨written h.queue ((h.queue q).write_op hw hop), h.tpl⟩
    · cases hs
  | call y b =>
    obtain ⟨c, oc, -, -, rfl, -⟩ := call_ok hs
    exact ⟨h.queue, h.tpl⟩
  | drop y =>
    obtain ⟨c, -, -, -, rfl⟩ := drop_ok hs
    exact ⟨h.queue, h.tpl⟩
  | tplEnqueue y rid fid =>
    obtain ⟨c, s₀, j, -, -, -, hsync, hw, rfl⟩ := tplEnqueue_ok hs
    exact ⟨hsync.queueAwaits h, (hsync.tplAwaits h).write_op hw rfl⟩
  | prepareSynced y =>
    obtain ⟨c, s₀, -, -, hsync, rfl⟩ := prepareSynced_ok hs
    exact ⟨hsync.queueAwaits h, hsync.tplAwaits h⟩
  | completed y rid fid =>
    obtain ⟨c, b, -, -, ⟨erid, j, -, -, hw, rfl⟩ | ⟨-, -, -, rfl⟩⟩ := completed_ok hs
    · exact ⟨h.queue, h.tpl.write_op hw rfl⟩
    · exact ⟨h.queue, h.tpl⟩
  | completeSynced y =>
    obtain ⟨c, s₀, -, -, hsync, rfl⟩ := completeSynced_ok hs
    exact ⟨hsync.queueAwaits h, hsync.tplAwaits h⟩
  | commitTxn y q rid fid =>
    simp only [TxnSys.step] at hs
    split at hs
    · obtain ⟨c, todo, b, s₀, j, hc, hp, -, hq, hsync, hw, rfl⟩ := commitTxn_ok hs
      have hquiet := hsync.quiet ((h.closing y c todo hc hp).1 q hq)
      exact ⟨written (hsync.queueAwaits h) ((hsync.queueAwaits h q).write_close hw (closes_close b rid y) hquiet),
        hsync.tplAwaits h⟩
    · cases hs
  | commitTxnTpl y rid fid =>
    obtain ⟨c, b, s₀, hc, -, hp, hsync, ⟨j, hr, hw, rfl⟩ | ⟨-, rfl⟩⟩ := commitTxnTpl_ok hs
    · have hquiet := hsync.tplQuiet ((h.closing y c [] hc hp).2 hr)
      exact ⟨hsync.queueAwaits h, (hsync.tplAwaits h).write_close hw (closes_close b rid y) hquiet⟩
    · exact ⟨hsync.queueAwaits h, hsync.tplAwaits h⟩
  | returned q rid =>
    simp only [TxnSys.step] at hs
    split at hs
    · rename_i hr
      cases hs
      exact ⟨written h.queue ((h.queue q).returned hr), h.tpl⟩
    · cases hs
  | returnedTpl rid =>
    simp only [TxnSys.step] at hs
    split at hs
    · rename_i hr
      cases hs
      exact ⟨h.queue, h.tpl.returned hr⟩
    · cases hs
  | crash k kept =>
    obtain ⟨hout, htpl⟩ := out_of_crash hs
    refine ⟨fun q => ?_, Jnl.awaits_of_out htpl⟩
    by_cases hq : q < n
    · exact Jnl.awaits_of_out (hout q hq)
    · rw [(hi.crash hs).outside q (Nat.le_of_not_lt hq)]
      exact h.queue q

theorem Awaits.closing_of_step (h : s.Awaits) (hi : s.Inv n) (hs : s.step n files tplFiles a = some s')
    {todo : List Nat} (hc : s'.ctxs x = some c) (hp : c.phase = .closing todo) :
    (∀ q ∈ todo, (s'.queues q).Quiet x) ∧ (c.tplRid ≠ none → s'.tpl.Quiet x) := by
  have hx := ((hi.step hs).logs.nonempty x c hc).1
  -- the context that the step has made
  have made : ∀ {c' : TxnCtxt} {t : TxnSys}, (t.setCtx x (some c')).ctxs x = some c → c = c' := by
    intro c' t hm
    rw [ctxs_setCtx_self] at hm
    exact (Option.some.inj hm).symm
  have ends : ∀ {t : TxnSys}, (t.setCtx x none).ctxs x ≠ some c := by
    intro t hm
    rw [ctxs_setCtx_self] at hm
    cases hm
  by_cases hcr : ∃ k kept, a = .crash k kept
  · obtain ⟨k, kept, rfl⟩ := hcr
    have hctx := (hi.crash hs).ctxs x
    rw [hc] at hctx
    obtain ⟨t, -, rfl⟩ := Option.map_eq_some_iff.mp hctx.symm
    unfold recoverCtxt at hp
    simp only at hp
    split at hp
    · cases hp
    · cases hp
  have hnc : ∀ k kept, a ≠ .crash k kept := fun k kept hk => hcr ⟨k, kept, hk⟩
  by_cases hsub : subject a = some x
  · cases a with
    | begin y tpc =>
      cases hsub
      obtain ⟨-, -, rfl⟩ := begin_ok hs
      obtain rfl := made (t := s) hc
      cases hp
    | store q w =>
      simp only [TxnSys.step] at hs
      split at hs
      · obtain rfl : w.placed.jrec.xid = x := Option.some.inj hsub
        obtain ⟨-, j, -, ⟨hnil, -⟩ | ⟨-, c', -, hact, -, rfl⟩⟩ := store_ok hs
        · exact absurd hnil hx
        · obtain rfl := made hc
          cases hact.symm.trans hp
      · cases hs
    | call y b =>
      cases hsub
      obtain ⟨c', oc, -, -, rfl, ⟨rfl, -⟩ | ⟨rfl, ⟨hact, -⟩ | ⟨hact, -⟩⟩⟩ := call_ok hs
      · exact absurd hc ends
      · obtain rfl := made hc
        cases hact.symm.trans hp
      · obtain rfl := made hc
        cases hact.symm.trans hp
    | drop y =>
      cases hsub
      obtain ⟨c', -, -, -, rfl⟩ := drop_ok hs
      exact absurd hc ends
    | tplEnqueue y rid fid =>
      cases hsub
      obtain ⟨c', s₀, j, -, -, -, -, -, rfl⟩ := tplEnqueue_ok hs
      obtain rfl := made hc
      cases hp
    | prepareSynced y =>
      cases hsub
      obtain ⟨c', s₀, -, -, -, rfl⟩ := prepareSynced_ok hs
      obtain rfl := made hc
      cases hp
    | completed y rid fid =>
      cases hsub
      obtain ⟨c', b, -, -, ⟨erid, j, -, -, -, rfl⟩ | ⟨-, -, -, rfl⟩⟩ := completed_ok hs
      · obtain rfl := made hc
        cases hp
      · obtain rfl := made hc
        cases hp
    | completeSynced y =>
      cases hsub
      obtain ⟨c', s₀, hc', -, hsync, rfl⟩ := completeSynced_ok hs
      obtain ⟨hq, ht⟩ := h.quiet_of_synced hx hsync
      obtain rfl := made hc
      cases hp
      exact ⟨fun q hm => hsync.quiet (hq q hm), fun hr => hsync.tplQuiet (ht hr)⟩
    | commitTxn y q rid fid =>
      cases hsub
      simp only [TxnSys.step] at hs
      split at hs
      · obtain ⟨c', todo', b, s₀, j, hc', hp', -, -, hsync, -, rfl⟩ := commitTxn_ok hs
        obtain ⟨hq, ht⟩ := h.closing x c' todo' hc' hp'
        have hnd : todo'.Nodup := by
          have hpend := ((hi.xids x hx).ctxt c' hc').nodup.1
          rwa [TxnCtxt.pending, hp'] at hpend
        obtain rfl := made hc
        cases hp
        refine ⟨fun q' hm => ?_, fun hr => hsync.tplQuiet (ht hr)⟩
        have hne : q' ≠ q := by
          rintro rfl
          exact hnd.not_mem_erase hm
        simp only [setCtx, setQueue, update_of_ne hne]
        exact hsync.quiet (hq q' (List.mem_of_mem_erase hm))
      · cases hs
    | commitTxnTpl y rid fid =>
      cases hsub
      obtain ⟨c', b, s₀, -, -, -, -, ⟨j, -, -, rfl⟩ | ⟨-, rfl⟩⟩ := commitTxnTpl_ok hs
      · exact absurd hc ends
      · exact absurd hc ends
    | returned q rid => cases hsub
    | returnedTpl rid => cases hsub
    | crash k kept => cases hsub
  · have hsame := SameFor.of_step hs hsub hnc
    have hl := lives_of_step hs hnc
    obtain ⟨hq, ht⟩ := h.closing x c todo (hsame.ctxt.symm.trans hc) hp
    exact ⟨fun q hm => (hq q hm).live (hl.queue q) fun p hp hpx => (hsame.recs q p hpx).mp hp,
      fun hr => (ht hr).live hl.tpl fun p hp hpx => (hsame.tpl p hpx).mp hp⟩

theorem Awaits.step (h : s.Awaits) (hi : s.Inv n) (hs : s.step n files tplFiles a = some s') : s'.Awaits := by
  obtain ⟨hq, ht⟩ := h.journals hi hs
  exact ⟨hq, ht, fun x c todo hc hp => h.closing_of_step hi hs hc hp⟩

theorem awaits_of_run (hrun : (init files tplFiles).run n files tplFiles acts = some s) : s.Awaits := by
  refine run_induct (P := Awaits) (Inv.init n files tplFiles) ⟨fun q => ?_, ?_, fun x c todo hc => ?_⟩
    (fun _ _ _ _ hi ha hs => ha.step hi hs) hrun
  · exact Jnl.awaits_of_out rfl
  · exact Jnl.awaits_of_out rfl
  · cases hc

/-- When `TxnCtxt::sync` returns, no write of a record of the transaction is outstanding in the
journals that it is about. -/
theorem sync_quiet (hrun : (init files tplFiles).run n files tplFiles acts = some s) (hc : s.ctxs x = some c)
    (hs : s.sync x c = some s₀) :
    (∀ q ∈ c.impactedQueues, (s.queues q).Quiet x) ∧ (c.tplRid ≠ none → s.tpl.Quiet x) :=
  (awaits_of_run hrun).quiet_of_synced (((Inv.init n files tplFiles).run hrun).logs.nonempty x c hc).1 (sync_ok hs)

theorem toPrepare_quiet : ∃ s c s₀, (init 2 2).run 2 2 2 toPrepare = some s ∧ s.ctxs [1] = some c ∧
    s.sync [1] c = some s₀ ∧ (∀ q ∈ c.impactedQueues, (s.queues q).Quiet [1]) ∧ (c.tplRid ≠ none → s.tpl.Quiet [1]) := by
  have hsome : (((init 2 2).run 2 2 2 toPrepare).bind fun s =>
      (s.ctxs [1]).bind fun c => (s.sync [1] c).map fun _ => ()) = some () := by decide +kernel
  obtain ⟨s, hs, hsome⟩ := Option.bind_eq_some_iff.mp hsome
  obtain ⟨c, hc, hsome⟩ := Option.bind_eq_some_iff.mp hsome
  obtain ⟨s₀, hs₀, -⟩ := Option.map_eq_some_iff.mp hsome
  exact ⟨s, c, s₀, hs, hc, hs₀, sync_quiet hs hc hs₀⟩

end TxnSys

end RhmStore
