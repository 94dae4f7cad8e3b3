import RhmStore.Log.Advance

/-! # Repeated crashes and recoveries -/

namespace RhmStore

namespace Journal

variable {n : Nat} {s s' : Journal}

private theorem discards_eq (h : s.Inv n) {prepared : List Xid} (hc : s.RecoverClean n prepared)
    {a b : View} (ha : View.Discards (· ∉ prepared) s.maps.view a)
    (hb : View.Discards (· ∉ prepared) (s.found n) b) : a = b := by
  have hstale : ∀ x td, td ∈ (s.found n).opn x → td.rid ∈ s.discarded → x ∉ prepared :=
    fun x td hm hd => hc.1 _ ((mem_stale h).mpr ⟨hm, hd⟩)
  have hsub : ∀ x r, View.Dequeues (s.maps.view.opn x) r →
      View.Dequeues ((s.found n).opn x) r := by
    rintro x r ⟨td, hm, ht⟩
    exact ⟨td, (h.agree.mem.mp hm).1, ht⟩
  have hpf : ∀ r, (a.enq r).map EmapData.pfid = (b.enq r).map EmapData.pfid := by
    intro r
    rw [ha.pfid, hb.pfid]
    exact h.agree.pfid r
  have hDD : ∀ r, (∃ x, x ∉ prepared ∧ View.Dequeues (s.maps.view.opn x) r) →
      ∃ x, x ∉ prepared ∧ View.Dequeues ((s.found n).opn x) r :=
    fun r ⟨x, hx, hd⟩ => ⟨x, hx, hsub x r hd⟩
  ext1
  · funext r
    cases hv : s.maps.view.enq r with
    | none =>
      have hw : (s.found n).enq r = none := (View.none_of_pfid (h.agree.pfid r)).mp hv
      rw [(View.none_of_pfid (ha.pfid r)).mpr hv, (View.none_of_pfid (hb.pfid r)).mpr hw]
    | some d =>
      obtain ⟨d', hw, hdf⟩ := View.some_of_pfid (h.agree.pfid r) hv
      have heq : ∀ e e' : EmapData, e.pfid = e'.pfid → e.lock = e'.lock → some e = some e' := by
        intro e e' h₁ h₂
        cases e
        cases e'
        simp only at h₁ h₂
        rw [h₁, h₂]
      by_cases hDw : ∃ x, x ∉ prepared ∧ View.Dequeues ((s.found n).opn x) r
      · rw [hb.unlocked r hDw, hw]
        by_cases hDv : ∃ x, x ∉ prepared ∧ View.Dequeues (s.maps.view.opn x) r
        · rw [ha.unlocked r hDv, hv]
          exact heq _ _ hdf.symm rfl
        · -- only a discarded operation dequeues `r`, so no prepared one may have it locked
          rw [ha.same r hDv, hv]
          refine heq _ _ hdf.symm ?_
          change d.lock = false
          by_contra hl
          obtain ⟨y, hy⟩ := h.locks.held r d hv (by simpa using hl)
          have hyp : y ∈ prepared := by
            by_contra hyn
            exact hDv ⟨y, hyn, hy⟩
          obtain ⟨x, hx, td, hm, he, ht⟩ := hDw
          have hd : td.rid ∈ s.discarded := by
            by_contra hnd
            exact hDv ⟨x, hx, td, h.agree.mem.mpr ⟨hm, hnd⟩, he, ht⟩
          obtain ⟨td', hm', he', ht'⟩ := hy
          exact hc.2 _ ((mem_stale h).mpr ⟨hm, hd⟩) he _ ((mem_live h).mpr hm') hyp he'
            (ht'.trans ht.symm)
      · have hDv : ¬∃ x, x ∉ prepared ∧ View.Dequeues (s.maps.view.opn x) r :=
          fun hD => hDw (hDD r hD)
        rw [hb.same r hDw, hw, ha.same r hDv, hv]
        refine heq _ _ hdf.symm ?_
        cases hl : d.lock with
        | true => exact (h.agree.lock r d d' hv hw hl).symm
        | false =>
          cases hl' : d'.lock with
          | false => rfl
          | true =>
            obtain ⟨x, td, hm, hd, he, ht⟩ := h.agree.stale r d d' hv hw hl' hl
            exact (hDw ⟨x, hstale x td hm hd, td, hm, he, ht⟩).elim
  · funext x
    by_cases hx : x ∈ prepared
    · rw [ha.kept x (fun hn => hn hx), hb.kept x (fun hn => hn hx), h.agree.opn x,
        List.filter_eq_self]
      intro td hm
      have : td.rid ∉ s.discarded := fun hd => hstale x td hm hd hx
      simpa using this
    · rw [ha.gone x hx, hb.gone x hx]

/-- A clean recovery builds what memory held, less the transactions that are not prepared. -/
theorem janalyze_same (h : s.Inv n) {prepared : List Xid} (hc : s.RecoverClean n prepared) :
    ∃ m m', janalyze n (s.records n) prepared = .ok () m ∧
      Maps.discard prepared s.maps = .ok () m' ∧ m.Same m' ∧ m.view = m'.view ∧
      m.Shaped n ∧ m.Counted ∧ m.view.Locks ∧
      View.Discards (· ∉ prepared) (s.found n) m.view := by
  have ht : ∀ p ∈ s.records n, p.jrec.isTransient = false := by
    intro p hp
    obtain ⟨e, he, rfl⟩ := List.mem_map.mp hp
    exact h.transient e he
  obtain ⟨m₀, hm₀, hv₀, hs₀, hc₀⟩ := Maps.replay_isOk n h.nodup ht
  obtain ⟨m, hm, hd, hs, hcm, -⟩ := Maps.discard_spec prepared m₀ hs₀
  obtain ⟨m', hm', hd', hs', hcm', hl'⟩ := Maps.discard_spec prepared s.maps h.shaped
  rw [hv₀] at hd
  have hv : m.view = m'.view := (discards_eq h hc hd' hd).symm
  refine ⟨m, m', ok_bind.mpr ⟨(), m₀, hm₀, hm⟩, hm',
    Maps.same_of_view hv hs hs' (hcm hc₀) (hcm' h.counted), hv, hs, hcm hc₀, ?_, hd⟩
  rw [hv]
  exact hl' h.locks

/-- A clean recovery keeps the invariant. -/
theorem inv_recover (h : s.Inv n) {prepared : List Xid} (hc : s.Clean n (.recover prepared))
    (hs : s.step n (.recover prepared) = some s') : s'.Inv n := by
  obtain ⟨m, hm, rfl⟩ := step_recover hs
  obtain ⟨m₁, m', hm₁, -, -, -, hsh, hcnt, hlk, hd⟩ := janalyze_same h hc
  rw [hm] at hm₁
  cases hm₁
  have hmem : ∀ {x td}, td ∈ (s.found n).opn x → x ∉ prepared →
      td.rid ∈ ((s.openOps n).filter fun o => o.1 ∉ prepared).map (·.2.rid) := by
    intro x td htd hx
    rw [h.fromLog.opn, ← mem_openOps] at htd
    exact List.mem_map.mpr ⟨(x, td), List.mem_filter.mpr ⟨htd, by simpa using hx⟩, rfl⟩
  have hmem' : ∀ {r}, r ∈ ((s.openOps n).filter fun o => o.1 ∉ prepared).map (·.2.rid) →
      ∃ x td, td ∈ (s.found n).opn x ∧ x ∉ prepared ∧ td.rid = r := by
    intro r hr
    obtain ⟨⟨x, td⟩, ho, rfl⟩ := List.mem_map.mp hr
    obtain ⟨ho, hx⟩ := List.mem_filter.mp ho
    rw [mem_openOps, ← h.fromLog.opn] at ho
    exact ⟨x, td, ho, by simpa using hx, rfl⟩
  refine ⟨hsh, hcnt, ⟨?_, ?_, ?_, ?_⟩, hlk, h.nodup, h.used, ?_, h.transient, h.window, h.sorted,
    h.named, h.notSelf⟩
  · exact hd.pfid
  · intro x
    change m.view.opn x = ((s.found n).opn x).filter _
    by_cases hx : x ∈ prepared
    · symm
      rw [hd.kept x (fun hn => hn hx), List.filter_eq_self]
      intro td htd
      have : td.rid ∉ s.discarded ++
          ((s.openOps n).filter fun o => o.1 ∉ prepared).map (·.2.rid) := by
        rw [List.mem_append]
        rintro (hr | hr)
        · exact hc.1 _ ((mem_stale h).mpr ⟨htd, hr⟩) hx
        · obtain ⟨y, td', htd', hy, hrr⟩ := hmem' hr
          rw [h.fromLog.opn] at htd htd'
          exact hy ((openEntries_inj h.nodup htd' htd hrr).1 ▸ hx)
      simpa using this
    · rw [hd.gone x hx]
      symm
      rw [List.filter_eq_nil_iff]
      intro td htd
      have : td.rid ∈ s.discarded ++
          ((s.openOps n).filter fun o => o.1 ∉ prepared).map (·.2.rid) :=
        List.mem_append_right _ (hmem htd hx)
      rw [decide_eq_true_eq]
      exact fun hnot => hnot this
  · intro r d d' hd₁ hd₂ hl
    change (s.found n).enq r = some d' at hd₂
    by_cases hD : ∃ x, x ∉ prepared ∧ View.Dequeues ((s.found n).opn x) r
    · rw [hd.unlocked r hD] at hd₁
      obtain ⟨_, -, rfl⟩ := Option.map_eq_some_iff.mp hd₁
      cases hl
    · rw [hd.same r hD, hd₂] at hd₁
      cases hd₁
      exact hl
  · intro r d d' hd₁ hd₂ hl hl'
    change (s.found n).enq r = some d' at hd₂
    by_cases hD : ∃ x, x ∉ prepared ∧ View.Dequeues ((s.found n).opn x) r
    · obtain ⟨x, hx, td, htd, he, ht⟩ := hD
      exact ⟨x, td, htd, List.mem_append_right _ (hmem htd hx), he, ht⟩
    · rw [hd.same r hD, hd₂] at hd₁
      cases hd₁
      rw [hl] at hl'
      cases hl'
  · intro r hr
    rcases List.mem_append.mp hr with hr | hr
    · exact h.discarded r hr
    · obtain ⟨x, td, htd, -, rfl⟩ := hmem' hr
      rw [h.fromLog.opn] at htd
      obtain ⟨p, hp, hpe⟩ := mem_openEntries htd
      rw [← (mem_entry hpe).1]
      exact (rid_mem_used h hp).1

theorem inv_step (h : s.Inv n) (hn : 0 < n) {a : LogAct} (hc : s.Clean n a)
    (hs : s.step n a = some s') : s'.Inv n := by
  cases a with
  | op r inst => exact inv_op h hc hs
  | advance => exact inv_advance h hn hs
  | recover prepared => exact inv_recover h hc hs

/-- A run whose steps are all clean. -/
inductive CleanRun (n : Nat) : Journal → Prop
  | init : CleanRun n (init n)
  | step {s s' : Journal} {a : LogAct} (h : CleanRun n s) (hc : s.Clean n a)
      (hs : s.step n a = some s') : CleanRun n s'

theorem CleanRun.inv (h : CleanRun n s) (hn : 0 < n) : s.Inv n := by
  induction h with
  | init => exact init_inv n
  | step _ hc hs ih => exact inv_step ih hn hc hs

end Journal

end RhmStore
