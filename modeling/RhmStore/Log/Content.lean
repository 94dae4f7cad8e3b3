import RhmStore.Log.Finish

/-! # What is enqueued after a log

A record is enqueued if an operation that counts has enqueued it and none that counts has dequeued
it. The operations that count are those outside of transactions and those of committed ones. -/

namespace RhmStore

namespace JRec

def Enqueues (j : JRec) (r : Nat) : Prop := ∃ x d t e, j = .enq r x d t e

def Dequeues (j : JRec) (r : Nat) : Prop := ∃ rid x c, j = .deq rid r x c

end JRec

/-- The log commits `x`. -/
def Commits (x : Xid) (log : List Placed) : Prop := ∃ p ∈ log, ∃ rid, p.jrec = .txc rid x

/-- The log aborts `x`. -/
def Aborts (x : Xid) (log : List Placed) : Prop := ∃ p ∈ log, ∃ rid, p.jrec = .txa rid x

/-- Of the operations of `log`, `p` is one that counts. -/
def Counts (log : List Placed) (p : Placed) : Prop := p.jrec.xid = [] ∨ Commits p.jrec.xid log

/-- Each record has a new rid, none of a transaction comes after its commit or abort, and a dequeue
finds its record enqueued, by its own transaction at least. -/
inductive Orderly : List Placed → Prop
  | nil : Orderly []
  | concat {log : List Placed} {p : Placed} : Orderly log → p.jrec.rid ∉ rids log →
      p.jrec.isTransient = false →
      (p.jrec.xid ≠ [] → ∀ q ∈ log, q.jrec.closes p.jrec.xid = false) →
      (∀ x, p.jrec.closes x = true → x ≠ []) →
      (∀ r, p.jrec.Dequeues r → ((View.empty.applyAll log).enq r).isSome ∨
        ∃ td ∈ openEntries p.jrec.xid log, td.rid = r) →
      Orderly (log ++ [p])

variable {log : List Placed} {p : Placed} {x : Xid} {r : Nat}

theorem closes_iff (j : JRec) (x : Xid) :
    j.closes x = true ↔ (∃ rid, j = .txa rid x) ∨ ∃ rid, j = .txc rid x := by
  cases j with
  | enq rid y d t e => simp [JRec.closes]
  | deq rid drid y c => simp [JRec.closes]
  | txa rid y => simp [JRec.closes]
  | txc rid y => simp [JRec.closes]

theorem xid_of_closes {j : JRec} (h : j.closes x = true) : j.xid = x := by
  rcases (closes_iff j x).mp h with ⟨rid, rfl⟩ | ⟨rid, rfl⟩
  · rfl
  · rfl

/-- No commit or abort of `x`. -/
def Unclosed (x : Xid) (log : List Placed) : Prop := ∀ q ∈ log, q.jrec.closes x = false

theorem Unclosed.not_commits (h : Unclosed x log) : ¬Commits x log := by
  rintro ⟨p, hp, rid, hj⟩
  have hc := h p hp
  rw [hj] at hc
  simp [JRec.closes] at hc

theorem Unclosed.of_concat (h : Unclosed x (log ++ [p])) : Unclosed x log :=
  fun q hq => h q (List.mem_append_left _ hq)

theorem unclosed_iff : Unclosed x log ↔ ¬Commits x log ∧ ¬Aborts x log := by
  constructor
  · intro h
    refine ⟨h.not_commits, ?_⟩
    rintro ⟨p, hp, rid, hj⟩
    have hc := h p hp
    rw [hj] at hc
    simp [JRec.closes] at hc
  · rintro ⟨hc, ha⟩ q hq
    by_contra hne
    rw [Bool.not_eq_false, closes_iff] at hne
    rcases hne with ⟨rid, hj⟩ | ⟨rid, hj⟩
    · exact ha ⟨q, hq, rid, hj⟩
    · exact hc ⟨q, hq, rid, hj⟩

/-- Without a commit or abort every operation is open. -/
theorem mem_openEntries_of_unclosed (h : Unclosed x log) {td : TxnData} :
    td ∈ openEntries x log ↔ ∃ q ∈ log, td ∈ q.entry x := by
  induction log using List.reverseRecOn with
  | nil => simp [openEntries]
  | append_singleton log p ih =>
    have hp := h p (List.mem_append_right _ (List.mem_singleton_self p))
    rw [openEntries_concat, hp, if_neg Bool.false_ne_true, List.mem_append, ih h.of_concat]
    constructor
    · rintro (⟨q, hq, ht⟩ | ht)
      · exact ⟨q, List.mem_append_left _ hq, ht⟩
      · exact ⟨p, List.mem_append_right _ (List.mem_singleton_self p), ht⟩
    · rintro ⟨q, hq, ht⟩
      rcases List.mem_append.mp hq with hq | hq
      · exact .inl ⟨q, hq, ht⟩
      · rw [List.mem_singleton.mp hq] at ht
        exact .inr ht

theorem entry_of_enqueues (h : p.jrec.Enqueues r) (hx : p.jrec.xid ≠ []) :
    ∃ td ∈ p.entry p.jrec.xid, td.enqFlag = true ∧ td.rid = r := by
  obtain ⟨x, d, t, e, hj⟩ := h
  have hne : x ≠ [] := by
    rw [hj] at hx
    exact hx
  simp only [Placed.entry, hj, JRec.xid, hne, ne_eq, not_false_eq_true, and_self, if_true]
  exact ⟨_, List.mem_singleton_self _, rfl, rfl⟩

theorem entry_of_dequeues (h : p.jrec.Dequeues r) (hx : p.jrec.xid ≠ []) :
    ∃ td ∈ p.entry p.jrec.xid, td.enqFlag = false ∧ td.drid = r := by
  obtain ⟨rid, x, c, hj⟩ := h
  have hne : x ≠ [] := by
    rw [hj] at hx
    exact hx
  simp only [Placed.entry, hj, JRec.xid, hne, ne_eq, not_false_eq_true, and_self, if_true]
  exact ⟨_, List.mem_singleton_self _, rfl, rfl⟩

namespace Orderly

theorem nodup (h : Orderly log) : (rids log).Nodup := by
  induction h with
  | nil => exact List.nodup_nil
  | concat _ hn _ _ _ _ ih =>
    rw [rids, List.map_append, List.nodup_append]
    refine ⟨ih, List.nodup_singleton _, ?_⟩
    intro a ha b hb hab
    rw [List.map_singleton, List.mem_singleton] at hb
    exact hn (by rw [← hb, ← hab]; exact ha)

theorem persistent (h : Orderly log) : ∀ p ∈ log, p.jrec.isTransient = false := by
  induction h with
  | nil => exact fun _ hp => (List.not_mem_nil hp).elim
  | concat _ _ ht _ _ _ ih =>
    intro q hq
    rcases List.mem_append.mp hq with hq | hq
    · exact ih q hq
    · rw [List.mem_singleton.mp hq]
      exact ht

theorem of_front {l : List Placed} (h : Orderly log) (hp : l <+: log) : Orderly l := by
  induction h with
  | nil =>
    rw [List.prefix_nil.mp hp]
    exact Orderly.nil
  | concat h hn ht hc hx hd ih =>
    rcases List.prefix_concat_iff.mp hp with rfl | hp
    · exact Orderly.concat h hn ht hc hx hd
    · exact ih hp

/-- A dequeue names a record that is there. -/
theorem dequeued_mem (h : Orderly log) (hp : p ∈ log) (hr : p.jrec.Dequeues r) : r ∈ rids log := by
  induction h with
  | nil => cases hp
  | @concat log q _ _ _ _ _ hd ih =>
    rw [rids, List.map_append, List.mem_append]
    rcases List.mem_append.mp hp with hp | hp
    · exact .inl (ih hp)
    · obtain rfl := List.mem_singleton.mp hp
      rcases hd r hr with hs | ⟨td, hm, rfl⟩
      · obtain ⟨d, hd⟩ := Option.isSome_iff_exists.mp hs
        exact .inl (View.enq_applyAll hd)
      · exact .inl ((openEntries_rids _ _).subset (List.mem_map_of_mem hm))

theorem pairwise (h : Orderly log) (x : Xid) :
    (openEntries x log).Pairwise fun a b => a.enqFlag = false → b.rid ≠ a.drid := by
  induction h with
  | nil => exact List.Pairwise.nil
  | @concat log p h hn _ _ _ _ ih =>
    rw [openEntries_concat]
    split
    · exact List.Pairwise.nil
    · refine List.pairwise_append.mpr ⟨ih, ?_, ?_⟩
      · unfold Placed.entry
        split
        · split
          · exact List.pairwise_singleton _ _
          · exact List.Pairwise.nil
        · split
          · exact List.pairwise_singleton _ _
          · exact List.Pairwise.nil
        · exact List.Pairwise.nil
      · intro a ha b hb he heq
        obtain ⟨q, hq, hqe⟩ := mem_openEntries ha
        obtain ⟨c, hj⟩ := (mem_entry hqe).2.2.2.2.2.1 he
        have hb' := (mem_entry hb).1
        refine hn ?_
        rw [hb', heq]
        exact h.dequeued_mem hq ⟨_, _, _, hj⟩

end Orderly

namespace View

theorem isSome_foldl_commitEntry {tdl : List TxnData}
    (h : tdl.Pairwise fun a b => a.enqFlag = false → b.rid ≠ a.drid) (v : View) (r : Nat) :
    ((tdl.foldl commitEntry v).enq r).isSome ↔
      ((v.enq r).isSome ∨ ∃ td ∈ tdl, td.enqFlag = true ∧ td.rid = r) ∧
        ¬∃ td ∈ tdl, td.enqFlag = false ∧ td.drid = r := by
  induction tdl using List.reverseRecOn with
  | nil => simp
  | append_singleton tdl td ih =>
    rw [List.pairwise_append] at h
    obtain ⟨hp, -, hlast⟩ := h
    have hlast := fun a ha => hlast a ha td (List.mem_singleton_self td)
    rw [List.foldl_append, List.foldl_cons, List.foldl_nil]
    cases he : td.enqFlag with
    | true =>
      by_cases hr : r = td.rid
      · have hno : ¬∃ a ∈ tdl, a.enqFlag = false ∧ a.drid = r := by
          rintro ⟨a, ha, hf, rfl⟩
          exact hlast a ha hf hr.symm
        simp only [commitEntry, he, if_true, insert, hr, Function.update_self, Option.isSome_some, true_iff]
        refine ⟨.inr ⟨td, by simp, he, rfl⟩, ?_⟩
        rintro ⟨a, ha, hf, hd⟩
        rcases List.mem_append.mp ha with ha | ha
        · exact hno ⟨a, ha, hf, hd.trans hr.symm⟩
        · rw [List.mem_singleton.mp ha, he] at hf
          cases hf
      · have hlist : ∀ P : TxnData → Prop, ¬P td → ((∃ a ∈ tdl ++ [td], P a) ↔ ∃ a ∈ tdl, P a) := by
          intro P hP
          simp [or_and_right, exists_or, hP]
        simp only [commitEntry, he, if_true, insert, Function.update_of_ne hr]
        rw [ih hp, hlist _ (fun hb => hr hb.2.symm), hlist _ (fun hb => by rw [he] at hb; cases hb.1)]
    | false =>
      by_cases hr : r = td.drid
      · simp only [commitEntry, he, Bool.false_eq_true, if_false, remove, hr, Function.update_self,
          Option.isSome_none, false_iff, not_and, not_not]
        exact fun _ => ⟨td, by simp, he, rfl⟩
      · have hlist : ∀ P : TxnData → Prop, ¬P td → ((∃ a ∈ tdl ++ [td], P a) ↔ ∃ a ∈ tdl, P a) := by
          intro P hP
          simp [or_and_right, exists_or, hP]
        simp only [commitEntry, he, Bool.false_eq_true, if_false, remove, Function.update_of_ne hr]
        rw [ih hp, hlist _ (fun hb => by rw [he] at hb; cases hb.1), hlist _ (fun hb => hr hb.2.symm)]

theorem isSome_foldl_abortEntry (tdl : List TxnData) (v : View) (r : Nat) :
    ((tdl.foldl abortEntry v).enq r).isSome = (v.enq r).isSome := by
  have h := congrArg Option.isSome (pfid_foldl_abortEntry tdl v r)
  rwa [Option.isSome_map, Option.isSome_map] at h

end View

theorem rid_of_enqueues {j : JRec} (h : j.Enqueues r) : j.rid = r := by
  obtain ⟨x, d, t, e, rfl⟩ := h
  rfl

theorem commits_concat (h : ¬∃ rid x, p.jrec = .txc rid x) : Commits x (log ++ [p]) ↔ Commits x log := by
  constructor
  · rintro ⟨q, hq, rid, hj⟩
    rcases List.mem_append.mp hq with hq | hq
    · exact ⟨q, hq, rid, hj⟩
    · rw [List.mem_singleton.mp hq] at hj
      exact absurd ⟨rid, x, hj⟩ h
  · rintro ⟨q, hq, hj⟩
    exact ⟨q, List.mem_append_left _ hq, hj⟩

theorem commits_concat_txc {rid : Nat} {y : Xid} (h : p.jrec = .txc rid y) :
    Commits x (log ++ [p]) ↔ Commits x log ∨ x = y := by
  constructor
  · rintro ⟨q, hq, rid', hj⟩
    rcases List.mem_append.mp hq with hq | hq
    · exact .inl ⟨q, hq, rid', hj⟩
    · rw [List.mem_singleton.mp hq, h] at hj
      cases hj
      exact .inr rfl
  · rintro (⟨q, hq, hj⟩ | rfl)
    · exact ⟨q, List.mem_append_left _ hq, hj⟩
    · exact ⟨p, List.mem_append_right _ (List.mem_singleton_self p), rid, h⟩

/-- What is enqueued after the log, and that only the transaction itself dequeues what it has
enqueued while it is open. -/
structure Content (log : List Placed) : Prop where
  enq : ∀ r, ((View.empty.applyAll log).enq r).isSome ↔
    (∃ p ∈ log, p.jrec.Enqueues r ∧ Counts log p) ∧ ¬∃ p ∈ log, p.jrec.Dequeues r ∧ Counts log p
  own : ∀ p ∈ log, ∀ q ∈ log, ∀ r, p.jrec.Enqueues r → q.jrec.Dequeues r → p.jrec.xid ≠ [] →
    Unclosed p.jrec.xid log → q.jrec.xid = p.jrec.xid

namespace Content

theorem nil : Content [] := by
  refine ⟨fun r => ?_, fun p hp => absurd hp List.not_mem_nil⟩
  simp [View.empty]

theorem enq_of_same (h : Content log) (hsame : ((View.empty.applyAll (log ++ [p])).enq r).isSome =
      ((View.empty.applyAll log).enq r).isSome) (htxc : ¬∃ rid x, p.jrec = .txc rid x)
    (hop : p.jrec.Enqueues r ∨ p.jrec.Dequeues r → ¬Counts log p) :
    ((View.empty.applyAll (log ++ [p])).enq r).isSome ↔
      (∃ q ∈ log ++ [p], q.jrec.Enqueues r ∧ Counts (log ++ [p]) q) ∧
        ¬∃ q ∈ log ++ [p], q.jrec.Dequeues r ∧ Counts (log ++ [p]) q := by
  have hcounts : ∀ q, Counts (log ++ [p]) q ↔ Counts log q := fun q =>
    or_congr Iff.rfl (commits_concat htxc)
  have hlist : ∀ P : Placed → Prop, (¬(P p ∧ Counts log p)) →
      ((∃ q ∈ log ++ [p], P q ∧ Counts (log ++ [p]) q) ↔ ∃ q ∈ log, P q ∧ Counts log q) := by
    intro P hP
    simp only [hcounts]
    simp [or_and_right, exists_or, hP]
  rw [hsame, h.enq r, hlist (fun q => q.jrec.Enqueues r) fun hc => hop (.inl hc.1) hc.2,
    hlist (fun q => q.jrec.Dequeues r) fun hc => hop (.inr hc.1) hc.2]

theorem enq_insert (h : Content log) (ho : Orderly log) {rid d : Nat} {t e : Bool}
    (hj : p.jrec = .enq rid [] d t e) (hn : rid ∉ rids log) :
    ((View.empty.applyAll (log ++ [p])).enq r).isSome ↔
      (∃ q ∈ log ++ [p], q.jrec.Enqueues r ∧ Counts (log ++ [p]) q) ∧
        ¬∃ q ∈ log ++ [p], q.jrec.Dequeues r ∧ Counts (log ++ [p]) q := by
  have htxc : ¬∃ rid x, p.jrec = .txc rid x := by simp [hj]
  by_cases hr : r = rid
  · subst hr
    have hsome : ((View.empty.applyAll (log ++ [p])).enq r).isSome := by
      simp [View.applyAll_concat, hj, View.apply, View.insert]
    simp only [hsome, true_iff]
    refine ⟨⟨p, by simp, ⟨[], d, t, e, hj⟩, .inl (by rw [hj]; rfl)⟩, ?_⟩
    rintro ⟨q, hq, hd, -⟩
    rcases List.mem_append.mp hq with hq | hq
    · exact hn (ho.dequeued_mem hq hd)
    · obtain ⟨rid', x, c, hjq⟩ := hd
      rw [List.mem_singleton.mp hq, hj] at hjq
      cases hjq
  · refine h.enq_of_same ?_ htxc ?_
    · simp [View.applyAll_concat, hj, View.apply, View.insert, hr]
    · rintro (he | ⟨rid', x, c, hd⟩)
      · have hrid := rid_of_enqueues he
        rw [hj] at hrid
        exact absurd hrid.symm hr
      · rw [hj] at hd
        cases hd

theorem enq_remove (h : Content log) {rid drid : Nat} {c : Bool} (hj : p.jrec = .deq rid drid [] c) :
    ((View.empty.applyAll (log ++ [p])).enq r).isSome ↔
      (∃ q ∈ log ++ [p], q.jrec.Enqueues r ∧ Counts (log ++ [p]) q) ∧
        ¬∃ q ∈ log ++ [p], q.jrec.Dequeues r ∧ Counts (log ++ [p]) q := by
  have htxc : ¬∃ rid x, p.jrec = .txc rid x := by simp [hj]
  by_cases hr : r = drid
  · subst hr
    have hnone : ((View.empty.applyAll (log ++ [p])).enq r).isSome = false := by
      simp [View.applyAll_concat, hj, View.apply, View.remove]
    simp only [hnone, Bool.false_eq_true, false_iff, not_and, not_not]
    exact fun _ => ⟨p, by simp, ⟨rid, [], c, hj⟩, .inl (by rw [hj]; rfl)⟩
  · refine h.enq_of_same ?_ htxc ?_
    · simp [View.applyAll_concat, hj, View.apply, View.remove, hr]
    · rintro (⟨x, d, t, e, he⟩ | ⟨rid', x, c', hd⟩)
      · rw [hj] at he
        cases he
      · rw [hj] at hd
        cases hd
        exact absurd rfl hr

theorem enq_commit (h : Content log) (ho : Orderly log) {rid : Nat} {x : Xid} (hj : p.jrec = .txc rid x)
    (hx : x ≠ []) (hc : Unclosed x log) :
    ((View.empty.applyAll (log ++ [p])).enq r).isSome ↔
      (∃ q ∈ log ++ [p], q.jrec.Enqueues r ∧ Counts (log ++ [p]) q) ∧
        ¬∃ q ∈ log ++ [p], q.jrec.Dequeues r ∧ Counts (log ++ [p]) q := by
  have hview : ((View.empty.applyAll (log ++ [p])).enq r).isSome ↔
      (((View.empty.applyAll log).enq r).isSome ∨ ∃ td ∈ openEntries x log, td.enqFlag = true ∧ td.rid = r) ∧
        ¬∃ td ∈ openEntries x log, td.enqFlag = false ∧ td.drid = r := by
    rw [View.applyAll_concat, hj]
    simp only [View.apply, View.opn_applyAll]
    exact View.isSome_foldl_commitEntry (ho.pairwise x) _ r
  have hcounts : ∀ q, Counts (log ++ [p]) q ↔ Counts log q ∨ q.jrec.xid = x := fun q => by
    unfold Counts
    rw [commits_concat_txc hj, or_assoc]
  have hE : (∃ td ∈ openEntries x log, td.enqFlag = true ∧ td.rid = r) ↔
      ∃ q ∈ log, q.jrec.Enqueues r ∧ q.jrec.xid = x := by
    constructor
    · rintro ⟨td, hm, he, rfl⟩
      obtain ⟨q, hq, hqe⟩ := mem_openEntries hm
      obtain ⟨d, t, e, hjq⟩ := (mem_entry hqe).2.2.2.2.1 he
      exact ⟨q, hq, ⟨x, d, t, e, hjq⟩, (mem_entry hqe).2.1⟩
    · rintro ⟨q, hq, he, rfl⟩
      obtain ⟨td, ht, hf⟩ := entry_of_enqueues he hx
      exact ⟨td, (mem_openEntries_of_unclosed hc).mpr ⟨q, hq, ht⟩, hf⟩
  have hD : (∃ td ∈ openEntries x log, td.enqFlag = false ∧ td.drid = r) ↔
      ∃ q ∈ log, q.jrec.Dequeues r ∧ q.jrec.xid = x := by
    constructor
    · rintro ⟨td, hm, he, rfl⟩
      obtain ⟨q, hq, hqe⟩ := mem_openEntries hm
      obtain ⟨c, hjq⟩ := (mem_entry hqe).2.2.2.2.2.1 he
      exact ⟨q, hq, ⟨td.rid, x, c, hjq⟩, (mem_entry hqe).2.1⟩
    · rintro ⟨q, hq, he, rfl⟩
      obtain ⟨td, ht, hf⟩ := entry_of_dequeues he hx
      exact ⟨td, (mem_openEntries_of_unclosed hc).mpr ⟨q, hq, ht⟩, hf⟩
  have hlist : ∀ P : Placed → Prop, ¬P p → ((∃ q ∈ log ++ [p], P q ∧ Counts (log ++ [p]) q) ↔
      (∃ q ∈ log, P q ∧ Counts log q) ∨ ∃ q ∈ log, P q ∧ q.jrec.xid = x) := by
    intro P hP
    simp only [hcounts, and_or_left, exists_or]
    simp [or_and_right, exists_or, hP]
  have hno : (∃ q ∈ log, q.jrec.Enqueues r ∧ q.jrec.xid = x) →
      ¬∃ q ∈ log, q.jrec.Dequeues r ∧ Counts log q := by
    rintro ⟨q, hq, he, rfl⟩ ⟨q', hq', hd, hcq⟩
    have hown := h.own q hq q' hq' r he hd hx hc
    rcases hcq with hnil | hcom
    · exact hx (hown.symm.trans hnil)
    · rw [hown] at hcom
      exact hc.not_commits hcom
  rw [hview, hE, hD, h.enq r, hlist (fun q => q.jrec.Enqueues r) (by simp [hj, JRec.Enqueues]),
    hlist (fun q => q.jrec.Dequeues r) (by simp [hj, JRec.Dequeues])]
  constructor
  · rintro ⟨⟨hin, hout⟩ | hin, hd⟩
    · exact ⟨.inl hin, not_or.mpr ⟨hout, hd⟩⟩
    · exact ⟨.inr hin, not_or.mpr ⟨hno hin, hd⟩⟩
  · rintro ⟨hin | hin, hnot⟩
    · exact ⟨.inl ⟨hin, (not_or.mp hnot).1⟩, (not_or.mp hnot).2⟩
    · exact ⟨.inr hin, (not_or.mp hnot).2⟩

theorem own_concat (h : Content log) (ho : Orderly log) (hn : p.jrec.rid ∉ rids log)
    (hd : ∀ r, p.jrec.Dequeues r → ((View.empty.applyAll log).enq r).isSome ∨
      ∃ td ∈ openEntries p.jrec.xid log, td.rid = r) :
    ∀ q ∈ log ++ [p], ∀ q' ∈ log ++ [p], ∀ r, q.jrec.Enqueues r → q'.jrec.Dequeues r →
      q.jrec.xid ≠ [] → Unclosed q.jrec.xid (log ++ [p]) → q'.jrec.xid = q.jrec.xid := by
  intro q hq q' hq' r he hdq hx hc
  have hrid := rid_of_enqueues he
  rcases List.mem_append.mp hq with hql | hql
  · rcases List.mem_append.mp hq' with hq' | hq'
    · exact h.own q hql q' hq' r he hdq hx hc.of_concat
    · obtain rfl := List.mem_singleton.mp hq'
      rcases hd r hdq with hs | ⟨td, hm, htd⟩
      · obtain ⟨⟨q₂, hq₂, he₂, hcnt⟩, -⟩ := (h.enq r).mp hs
        have heq : q₂ = q := nodup_rids_eq ho.nodup hq₂ hql ((rid_of_enqueues he₂).trans hrid.symm)
        subst heq
        rcases hcnt with hnil | hcom
        · exact absurd hnil hx
        · exact absurd hcom hc.of_concat.not_commits
      · obtain ⟨q₂, hq₂, hqe⟩ := mem_openEntries hm
        have hent := mem_entry hqe
        have heq : q₂ = q := nodup_rids_eq ho.nodup hq₂ hql (by rw [hent.1, htd, hrid])
        rw [← heq]
        exact hent.2.1.symm
  · obtain rfl := List.mem_singleton.mp hql
    rcases List.mem_append.mp hq' with hq' | hq'
    · exact absurd (hrid ▸ ho.dequeued_mem hq' hdq) hn
    · rw [List.mem_singleton.mp hq']

end Content

theorem Orderly.content (h : Orderly log) : Content log := by
  induction h with
  | nil => exact Content.nil
  | @concat log p ho hn ht hc hx hd ih =>
    refine ⟨fun r => ?_, ih.own_concat ho hn hd⟩
    cases hj : p.jrec with
    | enq rid y d t e =>
      have hrid : rid ∉ rids log := by
        rw [hj] at hn
        exact hn
      by_cases hy : y = []
      · subst hy
        exact ih.enq_insert ho hj hrid
      · refine ih.enq_of_same ?_ (by simp [hj]) fun _ hcnt => ?_
        · simp [View.applyAll_concat, hj, View.apply, hy, View.push]
        · rw [hj] at hc
          rcases hcnt with hnil | hcom
          · rw [hj] at hnil
            exact hy hnil
          · rw [hj] at hcom
            exact Unclosed.not_commits (hc hy) hcom
    | deq rid drid y c =>
      by_cases hy : y = []
      · subst hy
        exact ih.enq_remove hj
      · refine ih.enq_of_same ?_ (by simp [hj]) fun _ hcnt => ?_
        · simp only [View.applyAll_concat, hj, View.apply, hy, if_false, View.push, View.isSome_setLock]
        · rw [hj] at hc
          rcases hcnt with hnil | hcom
          · rw [hj] at hnil
            exact hy hnil
          · rw [hj] at hcom
            exact Unclosed.not_commits (hc hy) hcom
    | txa rid y =>
      refine ih.enq_of_same ?_ (by simp [hj]) ?_
      · simp only [View.applyAll_concat, hj, View.apply]
        exact View.isSome_foldl_abortEntry _ _ _
      · rintro (⟨x, d, t, e, he⟩ | ⟨rid', x, c, he⟩)
        · rw [hj] at he
          cases he
        · rw [hj] at he
          cases he
    | txc rid y =>
      have hy : y ≠ [] := hx y (by simp [hj, JRec.closes])
      have hcy : Unclosed y log := by
        rw [hj] at hc
        exact hc hy
      exact ih.enq_commit ho hj hy hcy

/-- An open operation on the record `r`. -/
def TxnData.Touches (td : TxnData) (r : Nat) : Prop := if td.enqFlag then td.rid = r else td.drid = r

def View.Touches (v : View) (x : Xid) (r : Nat) : Prop := ∃ td ∈ v.opn x, td.Touches r

theorem touches_tmap (m : Maps) (x : Xid) (r : Nat) :
    (∃ td ∈ m.tmap.getTdataList x, td.Touches r) ↔ m.view.Touches x r := by
  change _ ↔ ∃ td ∈ (m.tmap.getTdataList x).map TxnData.core, td.Touches r
  constructor
  · rintro ⟨td, hm, ht⟩
    exact ⟨td.core, List.mem_map_of_mem hm, ht⟩
  · rintro ⟨td, hm, ht⟩
    obtain ⟨td', hm', rfl⟩ := List.mem_map.mp hm
    exact ⟨td', hm', ht⟩

theorem isEnq_iff_touches (m : Maps) (r : Nat) : m.tmap.isEnq r = true ↔ ∃ x, m.view.Touches x r := by
  have htd : ∀ td : TxnData, (if td.enqFlag then td.rid == r else td.drid == r) = true ↔ td.Touches r := by
    intro td
    unfold TxnData.Touches
    cases td.enqFlag with
    | true => simp
    | false => simp
  unfold TxnMap.isEnq
  simp only [List.any_eq_true, htd, ← touches_tmap]
  constructor
  · rintro ⟨⟨x, l⟩, hp, td, hm, ht⟩
    have hx := Std.ExtTreeMap.mem_toList_iff_getElem?_eq_some.mp hp
    exact ⟨x, td, by simpa [TxnMap.getTdataList, hx] using hm, ht⟩
  · rintro ⟨x, td, hm, ht⟩
    cases hx : m.tmap.map[x]? with
    | none => simp [TxnMap.getTdataList, hx] at hm
    | some l =>
      refine ⟨(x, l), Std.ExtTreeMap.mem_toList_iff_getElem?_eq_some.mpr hx, td, ?_, ht⟩
      simpa [TxnMap.getTdataList, hx] using hm

end RhmStore
