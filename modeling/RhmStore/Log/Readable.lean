import RhmStore.Log.Locked
import RhmStore.Log.Protected
import RhmStore.Log.Reader

/-! # What a reader finds in a journal in use -/

namespace RhmStore

section Gone

variable {m m' : Maps} {fid r : Nat} {j : JRec} {used : List Nat}

/-- What is gone never comes back: a record is enqueued, or dequeued in a transaction, only while it
is there or pending. -/
theorem gone_perform (h : Maps.perform fid j m = .ok () m') (hu : r ∈ used) (hj : j.rid ∉ used)
    (hown : ∀ x td, td ∈ m.view.opn x → td.enqFlag = false → td.rid ≠ r) (hg : recState m r = .gone) :
    recState m' r = .gone := by
  obtain ⟨henq, hopn⟩ := recState_eq_gone.mp hg
  obtain ⟨hck, hc⟩ := Maps.ok_perform h
  have hne : j.rid ≠ r := fun he => hj (he ▸ hu)
  have hv := Maps.view_complete fid j hc
  refine recState_eq_gone.mpr ⟨?_, ?_⟩
  · rw [hv]
    by_contra hsome
    obtain ⟨d, hd⟩ := Option.ne_none_iff_exists'.mp hsome
    rcases View.enq_apply (p := ⟨j, fid⟩) hd with ⟨d', hd', -⟩ | ⟨-, ds, t, e, hje⟩ | ⟨x, td, -, hm, he, hr, -⟩
    · rw [henq] at hd'
      cases hd'
    · obtain rfl : j = .enq r [] ds t e := hje
      exact hne rfl
    · exact hopn x ⟨td, hm, by rw [TxnData.Touches, he, if_pos rfl, hr]⟩
  · intro x ht
    obtain ⟨td, hm, ht⟩ := ht
    rw [hv, View.opn_apply m.view ⟨j, fid⟩] at hm
    split at hm
    · cases hm
    · rcases List.mem_append.mp hm with hm | hm
      · exact hopn x ⟨td, hm, ht⟩
      · obtain ⟨hrid, -, -, -, -, hdeq, -⟩ := mem_entry hm
        unfold TxnData.Touches at ht
        cases he : td.enqFlag with
        | true =>
          rw [he, if_pos rfl] at ht
          exact hne (hrid.trans ht)
        | false =>
          rw [he, if_neg Bool.false_ne_true] at ht
          obtain ⟨c, hjd⟩ := hdeq he
          obtain rfl : j = .deq td.rid td.drid x c := hjd
          rcases (Maps.ok_dequeueCheck hck).2 with ⟨d, hd, -⟩ | ⟨-, -, td', hm', hr'⟩
          · rw [ht, henq] at hd
            cases hd
          · rw [ht] at hr'
            cases he' : td'.enqFlag with
            | true => exact hopn x ⟨td', hm', by rw [TxnData.Touches, he', if_pos rfl, hr']⟩
            | false => exact hown x td' hm' he' hr'

end Gone

/-- What the reader relies on of a journal in use. -/
structure Journal.Readable (s : Journal) : Prop where
  nodup : (s.log.map fun e => e.jrec.rid).Nodup
  logged : ∀ e ∈ s.log, e.jrec.rid ∈ s.used
  uses : s.maps.view.Uses s.used
  own : ∀ x td, td ∈ s.maps.view.opn x → td.enqFlag = false →
    ∀ e ∈ s.log, ∀ r, e.jrec.Enqueues r → td.rid ≠ r
  sorted : s.log.Pairwise fun a b => a.inst ≤ b.inst

namespace Journal

variable {n : Nat} {s s' : Journal}

theorem Inv.readable (h : s.Inv n) : s.Readable := by
  refine ⟨?_, fun e he => (h.used e he).1, h.uses, fun x td hm he e hme r hr heq => ?_, h.sorted⟩
  · have hn := h.nodup
    rwa [rids, records, List.map_map] at hn
  · have ho := (h.agree.mem.mp hm).1
    rw [h.fromLog.opn] at ho
    obtain ⟨p, hp, hpe⟩ := mem_openEntries ho
    have hpe' := mem_entry hpe
    obtain ⟨c, hj⟩ := hpe'.2.2.2.2.2.1 he
    have hsame : p = e.placed n := nodup_rids_eq h.nodup hp (List.mem_map_of_mem hme)
      (hpe'.1.trans (heq.trans (rid_of_enqueues hr).symm))
    obtain ⟨x', d, t, ext, hj'⟩ := hr
    rw [hsame] at hj
    cases hj'.symm.trans hj

/-- Of the records that the reader has read or passed, no step makes one come back. -/
theorem LivesTo.gone (h : s.LivesTo n s') (hs : s.Readable) {e : LogRec} (he : e ∈ s.log) {r : Nat}
    (hr : e.jrec.Enqueues r) (hg : recState s.maps r = .gone) : recState s'.maps r = .gone := by
  cases h with
  | op hnew _ hp =>
    have hu : r ∈ s.used := rid_of_enqueues hr ▸ hs.logged e he
    exact gone_perform hp hu hnew (fun x td hm hf => hs.own x td hm hf e he r hr) hg
  | advance _ => exact hg

theorem LivesTo.readable (h : s.LivesTo n s') (hs : s.Readable) : s'.Readable := by
  cases h with
  | @op j inst m hnew ha hp =>
    have hold : ∀ e ∈ s.log, e.jrec.rid ≠ j.rid := fun e he heq => hnew (heq ▸ hs.logged e he)
    refine ⟨?_, fun e he => ?_, Maps.uses_perform hp hs.uses, fun x td hm hf e he r hr heq => ?_, ?_⟩
    · rw [List.map_append, List.nodup_append]
      refine ⟨hs.nodup, List.nodup_singleton _, fun a ha b hb heq => ?_⟩
      obtain ⟨e, he, rfl⟩ := List.mem_map.mp ha
      rw [List.map_singleton, List.mem_singleton] at hb
      exact hold e he (heq.trans hb)
    · rcases List.mem_append.mp he with he | he
      · exact List.mem_cons_of_mem _ (hs.logged e he)
      · rw [List.mem_singleton.mp he]
        exact List.mem_cons_self
    · have hv : m.view = s.maps.view.apply (inst % n) j := Maps.view_complete _ _ (Maps.ok_perform hp).2
      have hrid := rid_of_enqueues hr
      have hcase : td ∈ s.maps.view.opn x ∨ ∃ c, j = .deq td.rid td.drid x c := by
        rw [hv, View.opn_apply s.maps.view ⟨j, inst % n⟩] at hm
        split at hm
        · cases hm
        · exact (List.mem_append.mp hm).imp id fun hm => (mem_entry hm).2.2.2.2.2.1 hf
      rcases hcase with hm | ⟨c, hj⟩
      · rcases List.mem_append.mp he with he | he
        · exact hs.own x td hm hf e he r hr heq
        · rw [List.mem_singleton.mp he] at hrid
          exact hnew (hrid.trans heq.symm ▸ (hs.uses.opn x td hm).1)
      · rcases List.mem_append.mp he with he | he
        · refine hold e he ?_
          rw [hrid, ← heq, hj]
          rfl
        · obtain ⟨x', d, t, ext, hj'⟩ := hr
          rw [List.mem_singleton.mp he] at hj'
          cases hj'.symm.trans hj
    · rw [List.pairwise_append]
      refine ⟨hs.sorted, List.pairwise_singleton _ _, fun a ha' b hb => ?_⟩
      rw [List.mem_singleton.mp hb]
      exact ha.2.2 a ha'
  | advance _ =>
    have hsub : (s.log.filter fun e => s.cur + 1 < e.inst + n).Sublist s.log := List.filter_sublist
    exact ⟨hs.nodup.sublist (hsub.map _), fun e he => hs.logged e (hsub.subset he), hs.uses,
      fun x td hm hf e he => hs.own x td hm hf e (hsub.subset he), hs.sorted.sublist hsub⟩

theorem LivesTo.log_eq (h : s.LivesTo n s') (hs : s.Readable) :
    (∃ e, s'.log = s.log ++ [e]) ∨ ∃ front, s.log = front ++ s'.log := by
  cases h with
  | op _ _ _ => exact .inl ⟨_, rfl⟩
  | advance hc =>
    refine .inr (advance_suffix (n := n) hs.sorted ?_)
    simp only [step, if_pos hc]

/-- A rid once given is given to no other record. -/
theorem LivesTo.old (h : s.LivesTo n s') {r : Nat} (hr : r ∈ s.used) :
    r ∈ s'.used ∧ ∀ e ∈ s'.log, e.jrec.rid = r → e ∈ s.log := by
  cases h with
  | op hnew _ _ =>
    refine ⟨List.mem_cons_of_mem _ hr, fun e he heq => ?_⟩
    rcases List.mem_append.mp he with he | he
    · exact he
    · rw [List.mem_singleton.mp he] at heq
      exact absurd (heq ▸ hr) hnew
  | advance _ => exact ⟨hr, fun e he _ => (List.mem_filter.mp he).1⟩

structure Kept (n : Nat) (s : Journal) : Prop where
  maps : s.maps.Protected n
  window : ∀ e ∈ s.log, e.inst ≤ s.cur ∧ s.cur < e.inst + n
  enq : ∀ r d, s.maps.view.enq r = some d → ∃ e ∈ s.log, e.jrec.Enqueues r ∧ e.inst % n = d.pfid
  opn : ∀ x td, td ∈ s.maps.view.opn x → td.enqFlag = true →
    ∃ e ∈ s.log, e.jrec.Enqueues td.rid ∧ e.inst % n = td.pfid

theorem Inv.kept (h : s.Inv n) (hn : 0 < n) : s.Kept n := by
  have hrec : ∀ {p}, p ∈ s.records n → ∃ e ∈ s.log, e.jrec = p.jrec ∧ e.inst % n = p.fid := by
    intro p hp
    obtain ⟨e, he, rfl⟩ := List.mem_map.mp hp
    exact ⟨e, he, rfl, rfl⟩
  have henq : ∀ r d, s.maps.view.enq r = some d → ∃ e ∈ s.log, e.jrec.Enqueues r ∧ e.inst % n = d.pfid := by
    intro r d hd
    obtain ⟨d', hd', hpf⟩ := View.some_of_pfid (h.agree.pfid r) hd
    obtain ⟨p, hp, hf, hj⟩ := h.fromLog.enq r d' hd'
    obtain ⟨e, he, hje, hfe⟩ := hrec hp
    exact ⟨e, he, hje ▸ hj, by rw [hfe, hf, hpf]⟩
  have hopn : ∀ x td, td ∈ s.maps.view.opn x → td.enqFlag = true →
      ∃ e ∈ s.log, e.jrec.Enqueues td.rid ∧ e.inst % n = td.pfid := by
    intro x td hm hf
    have ho := (h.agree.mem.mp hm).1
    rw [h.fromLog.opn] at ho
    obtain ⟨p, hp, hpe⟩ := mem_openEntries ho
    have hpe' := mem_entry hpe
    obtain ⟨d, t, ext, hj⟩ := hpe'.2.2.2.2.1 hf
    obtain ⟨e, he, hje, hfe⟩ := hrec hp
    exact ⟨e, he, ⟨x, d, t, ext, hje.trans hj⟩, by rw [hfe, hpe'.2.2.1]⟩
  refine ⟨⟨h.counted, h.shaped, ⟨fun r d hd => ?_, fun x td hm hf => ?_⟩⟩, h.window, henq, hopn⟩
  · obtain ⟨e, -, -, hf⟩ := henq r d hd
    exact hf ▸ Nat.mod_lt _ hn
  · obtain ⟨e, -, -, hf⟩ := hopn x td hm hf
    exact hf ▸ Nat.mod_lt _ hn

/-- What is in the file to be entered is counted. -/
theorem Kept.stays (h : s.Kept n) {e : LogRec} (he : e ∈ s.log) (hc : s.maps.enqCnt.getD (e.inst % n) 0 ≠ 0)
    (h0 : s.maps.enqCnt.getD ((s.cur + 1) % n) 0 = 0) :
    e ∈ s.log.filter fun e => s.cur + 1 < e.inst + n := by
  refine List.mem_filter.mpr ⟨he, ?_⟩
  have hw := h.window e he
  by_contra hle
  rw [decide_eq_true_iff] at hle
  have heq : s.cur + 1 = e.inst + n := by omega
  rw [heq, Nat.add_mod_right] at h0
  exact hc h0

theorem LivesTo.kept (h : s.LivesTo n s') (hn : 0 < n) (hs : s.Kept n) : s'.Kept n := by
  cases h with
  | @op j inst m hnew ha hp =>
    have hcm := (Maps.ok_perform hp).2
    have hv : m.view = s.maps.view.apply (inst % n) j := Maps.view_complete _ _ hcm
    have hin : ∀ {r f}, (∃ e ∈ s.log, e.jrec.Enqueues r ∧ e.inst % n = f) →
        ∃ e ∈ s.log ++ [⟨j, inst⟩], e.jrec.Enqueues r ∧ e.inst % n = f := by
      intro r f hex
      obtain ⟨e, he, hr⟩ := hex
      exact ⟨e, List.mem_append_left _ he, hr⟩
    have hlast : (⟨j, inst⟩ : LogRec) ∈ s.log ++ [⟨j, inst⟩] := List.mem_append_right _ List.mem_cons_self
    refine ⟨hs.maps.complete (Nat.mod_lt _ hn) hcm, fun e he => ?_, fun r d hd => ?_, fun x td hm hf => ?_⟩
    · rcases List.mem_append.mp he with he | he
      · exact hs.window e he
      · rw [List.mem_singleton.mp he]
        exact ⟨ha.1, ha.2.1⟩
    · rw [hv] at hd
      rcases View.enq_apply (p := ⟨j, inst % n⟩) hd with ⟨d', hd', hpf⟩ | ⟨hf, ds, t, ext, hj⟩ | ⟨x, td, -, hm, hf, rfl, hpf⟩
      · exact hpf ▸ hin (hs.enq r d' hd')
      · exact ⟨_, hlast, ⟨[], ds, t, ext, hj⟩, hf⟩
      · exact hpf ▸ hin (hs.opn x td hm hf)
    · rw [hv, View.opn_apply s.maps.view ⟨j, inst % n⟩] at hm
      split at hm
      · cases hm
      · rcases List.mem_append.mp hm with hm | hm
        · exact hin (hs.opn x td hm hf)
        · obtain ⟨-, -, hpf, -, henq, -⟩ := mem_entry hm
          obtain ⟨d, t, ext, hj⟩ := henq hf
          exact ⟨_, hlast, ⟨x, d, t, ext, hj⟩, hpf⟩
  | advance h0 =>
    refine ⟨hs.maps, fun e he => ?_, fun r d hd => ?_, fun x td hm hf => ?_⟩
    · obtain ⟨he, hlt⟩ := List.mem_filter.mp he
      have hw := hs.window e he
      rw [decide_eq_true_iff] at hlt
      exact ⟨Nat.le_succ_of_le hw.1, hlt⟩
    · obtain ⟨e, he, hr, hf⟩ := hs.enq r d hd
      have hc : s.maps.enqCnt.getD d.pfid 0 ≠ 0 := hs.maps.with_nil.count_enq hd
      exact ⟨e, hs.stays he (hf.symm ▸ hc) h0, hr, hf⟩
    · obtain ⟨e, he, hr, hpf⟩ := hs.opn x td hm hf
      obtain ⟨td', hm', rfl⟩ := List.mem_map.mp hm
      have hlt : td'.pfid < s.maps.enqCnt.length := hs.maps.shaped.length.symm ▸ hs.maps.ring.opn x td'.core hm hf
      have hpos : 0 < s.maps.tmap.held td'.pfid := held_pos_of_opn hm' hf rfl
      have hc := (Maps.counted_iff _).mp hs.maps.counted _ hlt
      exact ⟨e, hs.stays he (hpf.symm ▸ (show s.maps.enqCnt.getD td'.pfid 0 ≠ 0 by omega)) h0, hr, hpf⟩

end Journal

end RhmStore
