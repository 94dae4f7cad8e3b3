import RhmStore.Log.Inv

/-! # Entering the next file of the ring

The file is entered only when its count is zero. What goes with it is then named by nothing that is
enqueued or open. -/

namespace RhmStore

namespace Journal

variable {n : Nat} {s s' : Journal}

theorem filter_append_of_sorted {α : Type*} {le : α → α → Prop} {p : α → Bool}
    (hp : ∀ a b, le a b → p a = true → p b = true) {l : List α} (h : l.Pairwise le) :
    l = l.filter (fun a => !p a) ++ l.filter p := by
  induction l with
  | nil => rfl
  | cons a l ih =>
    rw [List.pairwise_cons] at h
    cases ha : p a with
    | false =>
      rw [List.filter_cons_of_pos (by simp [ha]), List.filter_cons_of_neg (by simp [ha]),
        List.cons_append, ← ih h.2]
    | true =>
      have hall : ∀ b ∈ l, p b = true := fun b hb => hp a b (h.1 b hb) ha
      have hno : l.filter (fun a => !p a) = [] := by
        rw [List.filter_eq_nil_iff]
        intro b hb
        simp [hall b hb]
      rw [List.filter_cons_of_neg (by simp [ha]), List.filter_cons_of_pos ha, hno,
        List.filter_eq_self.mpr hall]
      rfl

private theorem records_split (h : s.Inv n) :
    ∃ pre rest, s.log = pre ++ rest ∧ rest = s.log.filter (fun e => s.cur + 1 < e.inst + n) ∧
      ∀ e ∈ pre, e.inst % n = (s.cur + 1) % n := by
  refine ⟨_, _, filter_append_of_sorted (p := fun e => decide (s.cur + 1 < e.inst + n))
    ?_ h.sorted, rfl, ?_⟩
  · intro a b hab ha
    simp only [decide_eq_true_eq] at ha ⊢
    omega
  · intro e he
    obtain ⟨he, hn⟩ := List.mem_filter.mp he
    have hw := h.window e he
    simp only [Bool.not_eq_true', decide_eq_false_iff_not] at hn
    have : s.cur + 1 = e.inst + n := by omega
    rw [this, Nat.add_mod_right]

variable {pre rest : List LogRec}

/-- Entering the next file drops the oldest records. -/
theorem advance_suffix (h : s.log.Pairwise fun a b => a.inst ≤ b.inst)
    (hs : s.step n .advance = some s') : ∃ front, s.log = front ++ s'.log := by
  obtain ⟨-, rfl⟩ := step_advance hs
  refine ⟨_, filter_append_of_sorted (p := fun e => decide (s.cur + 1 < e.inst + n)) ?_ h⟩
  intro a b hab ha
  simp only [decide_eq_true_eq] at ha ⊢
  omega

theorem apart_of_split (h : s.Inv n) (hl : s.log = pre ++ rest) :
    Apart (pre.map (LogRec.placed n)) (rest.map (LogRec.placed n)) := by
  have hn := h.nodup
  have hd := h.named
  rw [records, hl, List.map_append, rids, List.map_append, List.nodup_append] at hn
  rw [hl, List.pairwise_append] at hd
  rintro p hp (hr | ⟨q, hq, rid, xid, c, hj⟩)
  · exact hn.2.2 _ hr _ (List.mem_map_of_mem hp) rfl
  · obtain ⟨b, hb, rfl⟩ := List.mem_map.mp hp
    obtain ⟨a, ha, rfl⟩ := List.mem_map.mp hq
    exact hd.2.2 a ha b hb rid _ xid c hj rfl

section Advance

variable (h : s.Inv n) (hl : s.log = pre ++ rest) (hn : 0 < n)
  (hf : ∀ e ∈ pre, e.inst % n = (s.cur + 1) % n)
  (hc : s.maps.enqCnt.getD ((s.cur + 1) % n) 0 = 0)

include h hn hc in
private theorem nothing_held :
    s.maps.emap.held ((s.cur + 1) % n) = 0 ∧ s.maps.tmap.held ((s.cur + 1) % n) = 0 := by
  have hlt : (s.cur + 1) % n < s.maps.enqCnt.length := by
    rw [h.shaped.length]
    exact Nat.mod_lt _ hn
  have := (Maps.counted_iff _).mp h.counted _ hlt
  omega

private theorem rid_mem_pre {p : Placed} (h : s.Inv n) (hl : s.log = pre ++ rest)
    (hp : p ∈ s.records n) (hr : p.jrec.rid ∈ rids (pre.map (LogRec.placed n))) :
    ∃ e ∈ pre, p = e.placed n := by
  obtain ⟨q, hq, he⟩ := List.mem_map.mp hr
  have hq' : q ∈ s.records n := by
    rw [records, hl, List.map_append]
    exact List.mem_append_left _ hq
  have hpq := nodup_rids_eq h.nodup hq' hp he
  obtain ⟨e, hm, rfl⟩ := List.mem_map.mp hq
  exact ⟨e, hm, hpq.symm⟩

include h hl hn hf hc in
private theorem named_not_enq {r : Nat} (hr : Named (pre.map (LogRec.placed n)) r) :
    (s.found n).enq r = none := by
  by_contra hne
  obtain ⟨d, hd⟩ := Option.ne_none_iff_exists'.mp hne
  obtain ⟨p, hp, hpf, x, ds, t, e, hj⟩ := h.fromLog.enq r d hd
  have hpr : p.jrec.rid = r := by rw [hj]; rfl
  have hpre : r ∈ rids (pre.map (LogRec.placed n)) := by
    rcases hr with hr | hr
    · exact hr
    · have hp' : p ∈ pre.map (LogRec.placed n) ++ rest.map (LogRec.placed n) := by
        rw [← List.map_append, ← hl]
        exact hp
      rcases List.mem_append.mp hp' with hp' | hp'
      · exact hpr ▸ List.mem_map_of_mem hp'
      · exact (apart_of_split h hl p hp' (hpr ▸ Or.inr hr)).elim
  obtain ⟨q, hq, rfl⟩ := rid_mem_pre h hl hp (hpr ▸ hpre)
  obtain ⟨d', hd', hdf⟩ := View.some_of_pfid (h.agree.pfid r).symm hd
  have hpos := held_pos_of_enq hd' (hdf.trans (hpf.symm.trans (hf q hq)))
  have := (nothing_held h hn hc).1
  omega

include h hl hn hf hc in
/-- No operation of the running journal is among the dropped records: an enqueue would be counted,
and a dequeue would be of an enqueued record or of an earlier operation among them. -/
private theorem live_not_dropped (k : Nat) : ∀ i (hi : i < pre.length), i < k →
    ∀ x td, td ∈ s.maps.view.opn x → td.rid ≠ (pre.get ⟨i, hi⟩).jrec.rid := by
  induction k with
  | zero =>
    intro i _ hk
    omega
  | succ k ih =>
    intro i hi hk x td hm heq
    have ho := (h.agree.mem.mp hm).1
    rw [h.fromLog.opn] at ho
    obtain ⟨p, hp, hpe⟩ := mem_openEntries ho
    have hpe' := mem_entry hpe
    have hmem : pre.get ⟨i, hi⟩ ∈ pre := List.get_mem _ _
    have hpi : p = (pre.get ⟨i, hi⟩).placed n := by
      refine nodup_rids_eq h.nodup hp ?_ (hpe'.1.trans heq)
      rw [records, hl, List.map_append]
      exact List.mem_append_left _ (List.mem_map_of_mem hmem)
    cases he : td.enqFlag with
    | true =>
      have hpf : td.pfid = (s.cur + 1) % n := by
        rw [← hpe'.2.2.1, hpi]
        exact hf _ hmem
      obtain ⟨td₀, hm₀, rfl⟩ := List.mem_map.mp hm
      have hpos := held_pos_of_opn hm₀ he hpf
      have := (nothing_held h hn hc).2
      omega
    | false =>
      obtain ⟨c, hj⟩ := hpe'.2.2.2.2.2.1 he
      have hj' : (pre.get ⟨i, hi⟩).jrec = .deq td.rid td.drid x c := by
        rw [hpi] at hj
        exact hj
      have hnamed : Named (pre.map (LogRec.placed n)) td.drid :=
        Or.inr ⟨_, List.mem_map_of_mem hmem, td.rid, x, c, hj'⟩
      rcases h.locks.target x td hm he with hs | ⟨td', hm', hr'⟩
      · obtain ⟨d, hd⟩ := Option.isSome_iff_exists.mp hs
        obtain ⟨d', hd', -⟩ := View.some_of_pfid (h.agree.pfid _) hd
        rw [named_not_enq h hl hn hf hc hnamed] at hd'
        cases hd'
      · have ho' := (h.agree.mem.mp hm').1
        rw [h.fromLog.opn] at ho'
        obtain ⟨q, hq, hqe⟩ := mem_openEntries ho'
        have hqr : q.jrec.rid = td.drid := (mem_entry hqe).1.trans hr'
        have hqpre : q.jrec.rid ∈ rids (pre.map (LogRec.placed n)) := by
          have hq' : q ∈ pre.map (LogRec.placed n) ++ rest.map (LogRec.placed n) := by
            rw [← List.map_append, ← hl]
            exact hq
          rcases List.mem_append.mp hq' with hq' | hq'
          · exact List.mem_map_of_mem hq'
          · exact (apart_of_split h hl q hq' (hqr ▸ hnamed)).elim
        obtain ⟨e, hee, rfl⟩ := rid_mem_pre h hl hq hqpre
        obtain ⟨j, hjl, rfl⟩ := List.mem_iff_getElem.mp hee
        have hnp : pre.Pairwise fun a b =>
            ∀ rid drid xid c, a.jrec = .deq rid drid xid c → b.jrec.rid ≠ drid := by
          have := h.named
          rw [hl, List.pairwise_append] at this
          exact this.1
        have hji : j < i := by
          rcases Nat.lt_trichotomy j i with hlt | heq' | hgt
          · exact hlt
          · subst heq'
            have hself := h.notSelf (pre.get ⟨j, hi⟩) (by
              rw [hl]
              exact List.mem_append_left _ hmem) _ _ _ _ hj'
            have : (pre.get ⟨j, hi⟩).jrec.rid = td.drid := hqr
            rw [hj'] at this
            exact (hself this.symm).elim
          · exact (List.pairwise_iff_getElem.mp hnp i j hi hjl hgt _ _ _ _ hj' hqr).elim
        exact ih j hjl (by omega) x td' hm' (hr'.trans hqr.symm)

end Advance

/-- Entering a file whose count is zero keeps the invariant. -/
theorem inv_advance (h : s.Inv n) (hn : 0 < n) (hs : s.step n .advance = some s') : s'.Inv n := by
  obtain ⟨hc, rfl⟩ := step_advance hs
  obtain ⟨pre, rest, hl, hr, hf⟩ := records_split h
  rw [← hr]
  have hap := apart_of_split h hl
  have hlk := lacks_drop hap
  have hrec : s.records n = pre.map (LogRec.placed n) ++ rest.map (LogRec.placed n) := by
    rw [records, hl, List.map_append]
  rw [← hrec] at hlk
  have henq : (View.empty.applyAll (rest.map (LogRec.placed n))).enq = (s.found n).enq := by
    funext r
    by_cases hq : Named (pre.map (LogRec.placed n)) r
    · rw [(hlk r).1 hq, named_not_enq h hl hn hf hc hq]
    · exact (hlk r).2 hq
  have hopn : ∀ x, (View.empty.applyAll (rest.map (LogRec.placed n))).opn x =
      ((s.found n).opn x).filter fun td => td.rid ∉ rids (pre.map (LogRec.placed n)) := by
    intro x
    rw [View.opn_applyAll, openEntries_drop hap, found, View.opn_applyAll, hrec]
  have hlive : ∀ x td, td ∈ s.maps.view.opn x → td.rid ∉ rids (pre.map (LogRec.placed n)) := by
    intro x td hm hmr
    obtain ⟨p, hp, hpr⟩ := List.mem_map.mp hmr
    obtain ⟨e, he, rfl⟩ := List.mem_map.mp hp
    obtain ⟨i, hi, rfl⟩ := List.mem_iff_getElem.mp he
    exact live_not_dropped h hl hn hf hc (i + 1) i hi (by omega) x td hm hpr.symm
  have hmem : ∀ e ∈ rest, e ∈ s.log := by
    intro e he
    rw [hl]
    exact List.mem_append_right _ he
  have hsub : rest.Sublist s.log := by
    rw [hl]
    exact List.sublist_append_right _ _
  refine ⟨h.shaped, h.counted, ⟨?_, ?_, ?_, ?_⟩, h.locks, ?_, fun e he => h.used e (hmem e he),
    h.discarded, fun e he => h.transient e (hmem e he), ?_, h.sorted.sublist hsub,
    h.named.sublist hsub, fun e he => h.notSelf e (hmem e he)⟩
  · intro r
    change _ = ((View.empty.applyAll (rest.map (LogRec.placed n))).enq r).map _
    rw [henq]
    exact h.agree.pfid r
  · intro x
    change _ = ((View.empty.applyAll (rest.map (LogRec.placed n))).opn x).filter _
    rw [hopn, List.filter_filter, h.agree.opn x]
    apply List.filter_congr
    intro td hm
    by_cases hd : td.rid ∈ s.discarded
    · simp [hd]
    · simp [hd, hlive x td (h.agree.mem.mpr ⟨hm, hd⟩)]
  · intro r d d' hd hd'
    change (View.empty.applyAll (rest.map (LogRec.placed n))).enq r = _ at hd'
    rw [henq] at hd'
    exact h.agree.lock r d d' hd hd'
  · intro r d d' hd hd' hlk' hlk''
    change (View.empty.applyAll (rest.map (LogRec.placed n))).enq r = _ at hd'
    rw [henq] at hd'
    obtain ⟨x, td, hm, hdisc, he, ht⟩ := h.agree.stale r d d' hd hd' hlk' hlk''
    refine ⟨x, td, ?_, hdisc, he, ht⟩
    change td ∈ (View.empty.applyAll (rest.map (LogRec.placed n))).opn x
    rw [hopn, List.mem_filter]
    refine ⟨hm, ?_⟩
    have hnot : td.rid ∉ rids (pre.map (LogRec.placed n)) := by
      intro hmr
      rw [h.fromLog.opn, hrec] at hm
      have hnam := (openEntries_sorted hap hm).1 hmr he
      rw [ht] at hnam
      rw [named_not_enq h hl hn hf hc hnam] at hd'
      cases hd'
    simpa using hnot
  · change (rids (rest.map (LogRec.placed n))).Nodup
    have hnd := h.nodup
    rw [hrec, rids, List.map_append, List.nodup_append] at hnd
    exact hnd.2.1
  · intro e he
    have hw := h.window e (hmem e he)
    rw [hr, List.mem_filter, decide_eq_true_eq] at he
    exact ⟨by change e.inst ≤ s.cur + 1; omega, he.2⟩

end Journal

end RhmStore
