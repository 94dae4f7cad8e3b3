import RhmStore.Tools.Agrees

/-! # The offline reader over a whole journal -/

namespace RhmStore

namespace Janal

open View (Dequeues)

variable {m m' : TxnMap} {v : View} {log : List Placed}

namespace JrnlReader

variable {r r' : JrnlReader}

theorem handleEnqRec_spec {rid : Nat} {xid : Xid} {ds : Nat} {t e : Bool} {p : Placed}
    (hp : p.jrec = .enq rid xid ds t e) (h : Reads r.tmap v) (hf : v.FromLog log)
    (hw : WellNamed (log ++ [p])) (fid : Nat) :
    ∃ r', r.handleEnqRec fid p.jrec = .ok r' ∧ Reads r'.tmap (v.apply p.fid p.jrec) := by
  have hnd := hw.nodup
  rw [rids, List.map_append, List.map_singleton, List.nodup_append] at hnd
  have hxid : p.jrec.xid = xid := by rw [hp]; rfl
  have hrid : p.jrec.rid = rid := by rw [hp]; rfl
  unfold handleEnqRec
  rw [hxid]
  split
  · rename_i hx
    have hfree : v.enq p.jrec.rid = none := by
      by_contra hne
      obtain ⟨d, hd⟩ := Option.ne_none_iff_exists'.mp hne
      obtain ⟨q, hq, -, _, _, _, _, hj⟩ := hf.enq _ d hd
      apply hnd.2.2 q.jrec.rid (List.mem_map.mpr ⟨q, hq, rfl⟩) p.jrec.rid (by simp)
      rw [hj]
      rfl
    have hno : r.tmap.emap.lockOf p.jrec.rid = none := by rw [h.enq, hfree]; rfl
    obtain ⟨emap', hok, hlk⟩ := EnqMap.add_free hno fid false
    refine ⟨{ r with tmap.emap := emap', msgCnt := r.msgCnt + 1 }, ?_, ?_⟩
    · rw [hok]
      rfl
    · rw [hp]
      simp only [View.apply, hx, if_true]
      apply h.emap
      intro k
      rw [hlk, hrid, h.enq]
      by_cases hk : k = rid
      · subst hk
        simp
      · simp [hk]
  · rename_i hx
    let td : TxnData := { rid := rid, drid := 0, pfid := p.fid, enqFlag := true }
    have hadd : r.tmap.add fid p.jrec = .ok (r.tmap.append fid p.jrec) := by
      rw [hp]
      rfl
    refine ⟨{ r with
      tmap := r.tmap.append fid p.jrec
      txnMsgCnt := r.txnMsgCnt + 1
      msgCnt := r.msgCnt + 1 }, ?_, ?_⟩
    · rw [hadd]
      rfl
    · have hv : v.apply p.fid p.jrec = v.push xid td := by
        rw [hp]
        simp [View.apply, hx, td]
      have hdq : ∀ x k, Dequeues ((v.push xid td).opn x) k ↔ Dequeues (v.opn x) k := by
        intro x k
        rw [dequeues_push]
        simp [td]
      rw [hv]
      apply Reads.append hxid _ h.enq h.opn h.nonempty
      · intro x l hl
        rw [h.flag x l hl]
        simp only [hdq]
      · rw [hdq]
        -- no earlier dequeue names the new record
        rintro ⟨a, hm, ha, hr⟩
        rw [hf.opn] at hm
        obtain ⟨q, hq, hqe⟩ := mem_openEntries hm
        obtain ⟨c, hj⟩ := (mem_entry hqe).2.2.2.2.2.1 ha
        exact (allSplits_concat.mp hw.earlier).2 q hq _ _ _ _ hj (hrid.trans hr.symm)
      · rw [hp]
        rfl

theorem handleDeqRec_plain {rid drid : Nat} {c : Bool} {p : Placed} (hp : p.jrec = .deq rid drid [] c)
    (h : Reads r.tmap v) (fid : Nat) :
    ((∃ r', r.handleDeqRec fid p.jrec drid = .ok r') ↔ v.Takes p.jrec) ∧
      ∀ r', r.handleDeqRec fid p.jrec drid = .ok r' → Reads r'.tmap (v.apply p.fid p.jrec) := by
  have hxid : p.jrec.xid = [] := by rw [hp]; rfl
  have htakes : v.Takes p.jrec ↔ ∀ d, v.enq drid = some d → d.lock = false := by
    rw [hp]
    simp [View.Takes]
  have happ : v.apply p.fid p.jrec = v.remove drid := by
    rw [hp]
    simp [View.apply]
  rw [htakes, happ]
  unfold handleDeqRec
  rw [if_pos hxid]
  cases hv : v.enq drid with
  | none =>
    have hlk : r.tmap.emap.lockOf drid = none := by rw [h.enq, hv]; rfl
    rw [EnqMap.delete_absent hlk]
    refine ⟨⟨?_, ?_⟩, ?_⟩
    · intro _ d hd
      cases hd
    · intro _
      exact ⟨_, rfl⟩
    · intro r' hr'
      cases hr'
      rw [Maps.remove_of_none _ _ hv]
      exact h.emap h.enq
  | some d =>
    have hlk : r.tmap.emap.lockOf drid = some d.lock := by rw [h.enq, hv]; rfl
    cases hd : d.lock with
    | true =>
      rw [hd] at hlk
      rw [EnqMap.delete_locked hlk]
      refine ⟨⟨?_, ?_⟩, ?_⟩
      · rintro ⟨r', hr'⟩
        cases hr'
      · intro hfree
        rw [hfree d rfl] at hd
        cases hd
      · intro r' hr'
        cases hr'
    | false =>
      rw [hd] at hlk
      obtain ⟨emap', hok, hlk'⟩ := EnqMap.delete_unlocked hlk
      rw [hok]
      refine ⟨⟨?_, ?_⟩, ?_⟩
      · intro _ d' hd'
        cases hd'
        exact hd
      · intro _
        exact ⟨_, rfl⟩
      · intro r' hr'
        cases hr'
        apply h.emap
        intro k
        rw [hlk', h.enq]
        by_cases hk : k = drid
        · subst hk
          simp
        · simp [hk]

theorem handleDeqRec_txn {rid drid : Nat} {xid : Xid} {c : Bool} {p : Placed}
    (hp : p.jrec = .deq rid drid xid c) (hx : xid ≠ []) (h : Reads r.tmap v) (hf : v.FromLog log)
    (hw : WellNamed (log ++ [p])) (fid : Nat) :
    ((∃ r', r.handleDeqRec fid p.jrec drid = .ok r') ↔ v.Takes p.jrec) ∧
      ∀ r', r.handleDeqRec fid p.jrec drid = .ok r' → Reads r'.tmap (v.apply p.fid p.jrec) := by
  let td : TxnData := { rid := rid, drid := drid, pfid := p.fid, enqFlag := false }
  have hxid : p.jrec.xid = xid := by rw [hp]; rfl
  have hown : ∀ y a, a ∈ v.opn y → a.rid = drid → y = xid := by
    intro y a hm hr
    rw [hf.opn] at hm
    exact (allSplits_concat.mp hw.owned).2 rid drid xid c hp hx y a hm hr
  have htakes : v.Takes p.jrec ↔ (∀ d, v.enq drid = some d → d.lock = false) ∧
      (v.enq drid = none → (∃ a ∈ v.opn xid, a.rid = drid) → ¬Dequeues (v.opn xid) drid) := by
    rw [hp]
    simp only [View.Takes, hx, ne_eq, not_false_eq_true, true_implies]
  have happ : v.apply p.fid p.jrec = (v.setLock drid true).push xid td := by
    rw [hp]
    simp [View.apply, hx, td]
  have hnd := hw.of_concat.nodup
  obtain ⟨hiff, hspec⟩ := TxnMap.lockTarget_spec h hf hnd hown
  rw [htakes, happ, ← hiff]
  have hadd : r.tmap.add fid p.jrec =
      (r.tmap.lockTarget drid xid).map fun m => m.append fid p.jrec := by
    rw [hp]
    cases ht : r.tmap.lockTarget drid xid <;> simp only [TxnMap.add, ht] <;> rfl
  unfold handleDeqRec
  rw [if_neg (by rw [hxid]; exact hx), hadd]
  cases ht : r.tmap.lockTarget drid xid with
  | error e =>
    have hne : e ≠ .jWarning := by
      intro he
      subst he
      exact r.tmap.lockTarget_ne_jWarning ht
    have herr : (exceptJWarning ((Except.error e : Except Err TxnMap).map fun m =>
        m.append fid p.jrec) r.tmap) = .error e := by
      cases e <;> first | rfl | exact (hne rfl).elim
    rw [herr]
    refine ⟨⟨?_, ?_⟩, ?_⟩
    · rintro ⟨r', hr'⟩
      cases hr'
    · rintro ⟨m', hm'⟩
      cases hm'
    · intro r' hr'
      cases hr'
  | ok m₁ =>
    obtain ⟨henq, hget, hne⟩ := hspec m₁ ht
    refine ⟨⟨?_, ?_⟩, ?_⟩
    · intro _
      exact ⟨m₁, rfl⟩
    · intro _
      exact ⟨_, rfl⟩
    · intro r' hr'
      cases hr'
      have hrids : ∀ x, ((r.tmap.get x).map (·.hdr.rid)).Nodup := by
        intro x
        rw [names_rids (h.opn x)]
        exact hf.nodup_opn hnd x
      apply Reads.append hxid _ henq _ hne
      · intro x l hl
        rw [hget] at hl
        have hpush : Dequeues (((v.setLock drid true).push xid td).opn x) l.hdr.rid ↔
            Dequeues (v.opn x) l.hdr.rid ∨ x = xid ∧ drid = l.hdr.rid := by
          rw [dequeues_push]
          simp [td, View.setLock]
        by_cases hxx : x = xid
        · rw [if_pos hxx] at hl
          rcases TxnMap.mem_lockEntry (hrids x) hl with ⟨hr, hlock⟩ | ⟨hr, hl⟩
          · rw [hlock]
            exact (decide_eq_true (hpush.mpr (Or.inr ⟨hxx, hr.symm⟩))).symm
          · rw [h.flag x l hl]
            simp [hpush, Ne.symm hr]
        · rw [if_neg hxx] at hl
          rw [h.flag x l hl]
          simp [hpush, hxx]
      · have hr : p.jrec.rid = rid := by rw [hp]; rfl
        rw [dequeues_push]
        rintro (⟨a, hm, ha, har⟩ | ⟨-, -, hself⟩)
        · change a ∈ v.opn xid at hm
          rw [hf.opn] at hm
          obtain ⟨q, hq, hqe⟩ := mem_openEntries hm
          obtain ⟨c', hj⟩ := (mem_entry hqe).2.2.2.2.2.1 ha
          exact (allSplits_concat.mp hw.earlier).2 q hq _ _ _ _ hj (hr.trans har.symm)
        · exact hw.notSelf p (by simp) rid drid xid c hp hself
      · rw [hp]
        rfl
      · intro x
        rw [hget]
        split
        · exact TxnMap.names_lockEntry drid (h.opn x)
        · exact h.opn x

theorem handleTxnRec_commit {rid : Nat} {xid : Xid} {p : Placed} (hp : p.jrec = .txc rid xid)
    (h : Reads r.tmap v) (hv : v.Ordered) (hf : v.FromLog log) (hn : (rids log).Nodup) :
    ∃ r', r.handleTxnRec p.jrec true = .ok r' ∧ Reads r'.tmap (v.apply p.fid p.jrec) := by
  have happ : v.apply p.fid p.jrec = (v.opn xid).foldl View.commitEntry (v.close xid) := by
    rw [hp]
    rfl
  rw [happ, hp]
  unfold handleTxnRec closeTxn
  cases hc : r.tmap.contains xid with
  | false =>
    obtain ⟨hno, hr⟩ := h.absent hc
    simp only [JRec.xid, hc, Bool.false_eq_true, if_false, if_true]
    refine ⟨_, rfl, ?_⟩
    rw [hno]
    exact hr
  | true =>
    obtain ⟨m', miss, hok, hr⟩ := reads_commit h hv hf hn xid
    simp only [JRec.xid, hc, if_true, TxnMap.delete, hok]
    exact ⟨_, rfl, hr⟩

theorem handleTxnRec_abort {rid : Nat} {xid : Xid} {p : Placed} (hp : p.jrec = .txa rid xid)
    (h : Reads r.tmap v) (hv : v.Ordered) (hf : v.FromLog log) (hn : (rids log).Nodup) :
    ((∃ r', r.handleTxnRec p.jrec false = .ok r') ↔ v.Takes p.jrec) ∧
      ∀ r', r.handleTxnRec p.jrec false = .ok r' → Reads r'.tmap (v.apply p.fid p.jrec) := by
  have happ : v.apply p.fid p.jrec = v.abort xid := by
    rw [hp]
    rfl
  have htakes : v.Takes p.jrec ↔
      ∀ td ∈ v.opn xid, td.enqFlag = false → (v.enq td.drid).isSome := by
    rw [hp]
    rfl
  rw [happ, htakes, hp]
  unfold handleTxnRec closeTxn
  cases hc : r.tmap.contains xid with
  | false =>
    obtain ⟨hno, hr⟩ := h.absent hc
    simp only [JRec.xid, hc, Bool.false_eq_true, if_false]
    refine ⟨⟨?_, ?_⟩, ?_⟩
    · intro _ td hm
      rw [hno] at hm
      cases hm
    · intro _
      exact ⟨_, rfl⟩
    · intro r' hr'
      cases hr'
      rw [View.abort, hno]
      exact hr
  | true =>
    obtain ⟨hiff, hr⟩ := reads_abort h hv hf hn xid
    rw [← hiff]
    simp only [JRec.xid, hc, if_true, TxnMap.delete, Bool.false_eq_true, if_false]
    cases hok : r.tmap.abort xid with
    | error e =>
      refine ⟨⟨?_, ?_⟩, ?_⟩
      · rintro ⟨r', hr'⟩
        cases hr'
      · rintro ⟨m', hm'⟩
        cases hm'
      · intro r' hr'
        cases hr'
    | ok m' =>
      refine ⟨⟨?_, ?_⟩, ?_⟩
      · intro _
        exact ⟨m', rfl⟩
      · intro _
        exact ⟨_, rfl⟩
      · intro r' hr'
        cases hr'
        exact hr m' hok

/-- The reader takes a record exactly as recovery does, or raises. -/
theorem getNextRecord_spec {p q : Placed} (hj : q.jrec = p.jrec) (h : Reads r.tmap v)
    (hv : v.Ordered) (hf : v.FromLog log) (hw : WellNamed (log ++ [p])) :
    ((∃ r', r.getNextRecord q = .ok r') ↔ v.Takes p.jrec) ∧
      ∀ r', r.getNextRecord q = .ok r' → Reads r'.tmap (v.apply p.fid p.jrec) := by
  have hn := hw.of_concat.nodup
  have always : ∀ {x : Except Err JrnlReader},
      (∃ r', x = .ok r' ∧ Reads r'.tmap (v.apply p.fid p.jrec)) → v.Takes p.jrec →
      ((∃ r', x = .ok r') ↔ v.Takes p.jrec) ∧
        ∀ r', x = .ok r' → Reads r'.tmap (v.apply p.fid p.jrec) := by
    rintro x ⟨r', rfl, hr⟩ ht
    refine ⟨⟨fun _ => ht, fun _ => ⟨r', rfl⟩⟩, ?_⟩
    intro r'' h''
    cases h''
    exact hr
  let r₁ : JrnlReader := { r with recCnt := r.recCnt + 1 }
  have h₁ : Reads r₁.tmap v := h
  cases hp : p.jrec with
  | enq rid xid ds t e =>
    have heq : r.getNextRecord q = r₁.handleEnqRec q.fid p.jrec := by
      simp only [getNextRecord, hj, hp, r₁]
    rw [heq, ← hp]
    apply always
    · exact handleEnqRec_spec hp h₁ hf hw q.fid
    · rw [hp]
      trivial
  | deq rid drid xid c =>
    have heq : r.getNextRecord q = r₁.handleDeqRec q.fid p.jrec drid := by
      simp only [getNextRecord, hj, hp, r₁]
    rw [heq, ← hp]
    by_cases hx : xid = []
    · subst hx
      exact handleDeqRec_plain hp h₁ q.fid
    · exact handleDeqRec_txn hp hx h₁ hf hw q.fid
  | txa rid xid =>
    have heq : r.getNextRecord q = r₁.handleTxnRec p.jrec false := by
      simp only [getNextRecord, hj, hp, r₁]
    rw [heq, ← hp]
    exact handleTxnRec_abort hp h₁ hv hf hn
  | txc rid xid =>
    have heq : r.getNextRecord q = r₁.handleTxnRec p.jrec true := by
      simp only [getNextRecord, hj, hp, r₁]
    rw [heq, ← hp]
    apply always
    · exact handleTxnRec_commit hp h₁ hv hf hn
    · rw [hp]
      trivial

theorem run_concat (read : List Placed) (q : Placed) :
    run (read ++ [q]) = (run read >>= fun r => r.getNextRecord q) := by
  rw [run, List.foldlM_append]
  simp only [List.foldlM_cons, List.foldlM_nil, bind_pure]
  rfl

end JrnlReader

/-- Recovery finds the records as `View.Takes` says, each after those before it. -/
def Readable (image : List Placed) : Prop :=
  AllSplits (fun pre p => (View.empty.applyAll pre).Takes p.jrec) image

theorem readable_concat {image : List Placed} {p : Placed} :
    Readable (image ++ [p]) ↔ Readable image ∧ (View.empty.applyAll image).Takes p.jrec :=
  allSplits_concat

theorem reads_init : Reads JrnlReader.init.tmap View.empty := by
  have hget : ∀ x, JrnlReader.init.tmap.get x = [] := by
    intro x
    simp [JrnlReader.init, TxnMap.get]
  refine ⟨?_, ?_, ?_, ?_⟩
  · intro r
    simp [JrnlReader.init, EnqMap.lockOf, View.empty]
  · intro x
    rw [hget]
    exact List.Forall₂.nil
  · intro x
    simp [JrnlReader.init]
  · intro x l hl
    rw [hget] at hl
    cases hl

/-- The reader does not raise exactly on readable records, and then its maps stand for what recovery
builds. The files it notes may differ. -/
theorem run_spec {image read : List Placed} (hw : WellNamed image)
    (hr : read.map (·.jrec) = image.map (·.jrec)) :
    ((∃ r, JrnlReader.run read = .ok r) ↔ Readable image) ∧
      ∀ r, JrnlReader.run read = .ok r →
        Reads r.tmap (View.empty.applyAll image) ∧ (View.empty.applyAll image).Ordered := by
  induction image using List.reverseRecOn generalizing read with
  | nil =>
    rw [List.map_nil, List.map_eq_nil_iff] at hr
    subst hr
    refine ⟨⟨fun _ => allSplits_nil _, fun _ => ⟨_, rfl⟩⟩, ?_⟩
    intro r hrun
    cases hrun
    exact ⟨reads_init, View.ordered_empty⟩
  | append_singleton image p ih =>
    rw [List.map_append, List.map_singleton] at hr
    obtain ⟨read, last, rfl, hread, hlast⟩ := List.map_eq_append_iff.mp hr
    obtain ⟨q, rest, rfl, hq, hrest⟩ := List.map_eq_cons_iff.mp hlast
    rw [List.map_eq_nil_iff] at hrest
    subst hrest
    obtain ⟨hiff, hspec⟩ := ih hw.of_concat hread
    have hf := View.fromLog_applyAll hw.of_concat.nodup
    rw [JrnlReader.run_concat, readable_concat, View.applyAll_concat]
    cases hok : JrnlReader.run read with
    | error e =>
      refine ⟨⟨?_, ?_⟩, ?_⟩
      · rintro ⟨r, hr'⟩
        cases hr'
      · rintro ⟨hreadable, -⟩
        obtain ⟨r, hr'⟩ := hiff.mpr hreadable
        rw [hok] at hr'
        cases hr'
      · intro r hr'
        cases hr'
    | ok r₀ =>
      obtain ⟨hreads, hord⟩ := hspec r₀ hok
      obtain ⟨hstep, hnext⟩ := JrnlReader.getNextRecord_spec hq hreads hord hf hw
      change ((∃ r, r₀.getNextRecord q = .ok r) ↔ _) ∧ ∀ r, r₀.getNextRecord q = .ok r → _
      refine ⟨?_, ?_⟩
      · rw [hstep]
        constructor
        · intro ht
          exact ⟨hiff.mp ⟨r₀, hok⟩, ht⟩
        · rintro ⟨-, ht⟩
          exact ht
      · intro r hr'
        refine ⟨hnext r hr', ?_⟩
        exact View.ordered_concat hord hf hw (hstep.mp ⟨r, hr'⟩)

/-- The same rids with the same locks, and the same operations of the same open transactions. -/
structure Agrees (r : JrnlReader) (m : Maps) : Prop where
  enq : ∀ rid : Nat, (r.tmap.emap.map[rid]?).map (·.lock) = (m.emap.map[rid]?).map (·.lock)
  txn : ∀ xid : Xid, (r.tmap.map[xid]?).map (·.map (·.hdr.op)) =
    (m.tmap.map[xid]?).map (·.map fun td => some td.op)

/-- Neither reader throws, and they agree. -/
def ReadsAs (n : Nat) (read image : List Placed) : Prop :=
  ∃ r m, JrnlReader.run read = .ok r ∧ replay image (Maps.init n) = .ok () m ∧ Agrees r m

theorem names_op {ls : List Entry} {tdl : List TxnData} (h : List.Forall₂ Entry.Names ls tdl) :
    ls.map (·.hdr.op) = tdl.map fun td => some td.op := by
  induction h with
  | nil => rfl
  | cons hd _ ih =>
    rw [List.map_cons, List.map_cons, ih]
    exact congrArg (· :: _) hd

theorem Reads.agrees {n : Nat} {r : JrnlReader} {m : Maps} (h : Reads r.tmap m.view)
    (hs : m.Shaped n) : Agrees r m := by
  refine ⟨h.enq, ?_⟩
  intro xid
  have hops := names_op (h.opn xid)
  have hlen := (h.opn xid).length_eq
  simp only [Maps.view, Xid, TxnMap.get, RhmStore.TxnMap.getTdataList] at hops hlen
  have hl := h.nonempty xid
  have hm := hs.nonempty xid
  revert hops hlen hl hm
  cases r.tmap.map[xid]? with
  | none =>
    cases m.tmap.map[xid]? with
    | none =>
      intros
      rfl
    | some tdl =>
      intro _ hlen _ hm
      simp only [Option.getD_none, List.length_nil, Option.getD_some, List.length_map] at hlen
      rw [List.length_eq_zero_iff.mp hlen.symm] at hm
      exact (hm rfl).elim
  | some ls =>
    cases m.tmap.map[xid]? with
    | none =>
      intro _ hlen hl _
      simp only [Option.getD_none, List.length_nil, Option.getD_some, List.map_nil] at hlen
      rw [List.length_eq_zero_iff.mp hlen] at hl
      exact (hl rfl).elim
    | some tdl =>
      intro hops _ _ _
      simp only [Option.getD_some, List.map_map] at hops
      simp only [Option.map_some, hops]
      rfl

/-- Of any run of a journal, with any tail torn off: the offline reader agrees with recovery exactly
where recovery finds the records as `View.Takes` says. -/
theorem readsAs_iff {n : Nat} {acts : List LogAct} {s : Journal} {image read : List Placed}
    (h : (Journal.init n).run n acts = some s) (hi : image <+: s.records n)
    (hr : read.map (·.jrec) = image.map (·.jrec)) : ReadsAs n read image ↔ Readable image := by
  obtain ⟨post, hpost⟩ := hi
  have hw : WellNamed image := by
    have hlog := (Journal.traced_run (Journal.init_traced n) h).log
    rw [← hpost] at hlog
    exact hlog.of_front
  obtain ⟨hiff, hspec⟩ := run_spec hw hr
  obtain ⟨m, hm, hv, hs, -⟩ := Maps.replay_isOk n hw.nodup hw.transient
  rw [← hiff]
  constructor
  · rintro ⟨r, -, hrun, -⟩
    exact ⟨r, hrun⟩
  · rintro ⟨r, hrun⟩
    refine ⟨r, m, hrun, hm, ?_⟩
    apply Reads.agrees _ hs
    rw [hv]
    exact (hspec r hrun).1

/-- A transaction dequeues what it has enqueued, and ends. -/
def ownDequeueRun (last : JRec) : List LogAct :=
  [.op (.enq 1 [7] 10 false false) 0, .op (.deq 2 1 [7] false) 0, .op last 0]

theorem ownDequeueRun_commit :
    ∃ s, (Journal.init 4).run 4 (ownDequeueRun (.txc 3 [7])) = some s ∧
      ReadsAs 4 (s.records 4) (s.records 4) := by
  obtain ⟨s, hs⟩ : ∃ s, (Journal.init 4).run 4 (ownDequeueRun (.txc 3 [7])) = some s :=
    Option.isSome_iff_exists.mp (by decide)
  refine ⟨s, hs, (readsAs_iff hs (List.prefix_refl _) rfl).mpr ?_⟩
  have hrec : ((Journal.init 4).run 4 (ownDequeueRun (.txc 3 [7]))).map (·.records 4) =
      some [⟨.enq 1 [7] 10 false false, 0⟩, ⟨.deq 2 1 [7] false, 0⟩, ⟨.txc 3 [7], 0⟩] := by
    decide
  rw [hs, Option.map_some, Option.some.injEq] at hrec
  rw [hrec]
  have h₁ : Readable [⟨.enq 1 [7] 10 false false, 0⟩] :=
    (@readable_concat [] _).mpr ⟨allSplits_nil _, trivial⟩
  have h₂ : Readable [⟨.enq 1 [7] 10 false false, 0⟩, ⟨.deq 2 1 [7] false, 0⟩] :=
    (@readable_concat [_] _).mpr ⟨h₁, by decide⟩
  exact (@readable_concat [_, _] _).mpr ⟨h₂, trivial⟩

/-- An abort raises there, since the record was never enqueued. -/
theorem ownDequeueRun_abort :
    ∃ s, (Journal.init 4).run 4 (ownDequeueRun (.txa 3 [7])) = some s ∧
      ¬ReadsAs 4 (s.records 4) (s.records 4) := by
  obtain ⟨s, hs⟩ : ∃ s, (Journal.init 4).run 4 (ownDequeueRun (.txa 3 [7])) = some s :=
    Option.isSome_iff_exists.mp (by decide)
  refine ⟨s, hs, ?_⟩
  rintro ⟨r, m, hr, -⟩
  have herr : ((Journal.init 4).run 4 (ownDequeueRun (.txa 3 [7]))).all fun s =>
      (JrnlReader.run (s.records 4)).toOption.isNone := by decide
  simp only [hs, Option.all_some, hr, Except.toOption, Option.isNone_some, Bool.false_eq_true]
    at herr

end Janal

end RhmStore
