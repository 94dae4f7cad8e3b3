import RhmStore.Log.Epochs

/-! # The surviving records of any run

What holds of them whatever the recoveries before have forgotten. -/

namespace RhmStore

def AllSplits (P : List Placed → Placed → Prop) (log : List Placed) : Prop :=
  ∀ pre p post, log = pre ++ p :: post → P pre p

theorem allSplits_nil (P : List Placed → Placed → Prop) : AllSplits P [] := by
  intro pre p post h
  cases pre <;> cases h

theorem allSplits_concat {P : List Placed → Placed → Prop} {log : List Placed} {p : Placed} :
    AllSplits P (log ++ [p]) ↔ AllSplits P log ∧ P log p := by
  constructor
  · intro h
    refine ⟨?_, h log p [] rfl⟩
    intro pre q post he
    apply h pre q (post ++ [p])
    rw [he, List.append_assoc, List.cons_append]
  · rintro ⟨h, hp⟩ pre q post he
    rcases List.eq_nil_or_concat' post with rfl | ⟨post, a, rfl⟩
    · obtain ⟨rfl, hq⟩ := List.append_inj' he rfl
      cases hq
      exact hp
    · have he' : log ++ [p] = (pre ++ q :: post) ++ [a] := by
        rw [he, List.append_assoc, List.cons_append]
      exact h pre q post (List.append_inj' he' rfl).1

theorem openEntries_suffix {front log : List Placed} {x : Xid} {td : TxnData}
    (h : td ∈ openEntries x log) : td ∈ openEntries x (front ++ log) := by
  induction log using List.reverseRecOn with
  | nil => cases h
  | append_singleton log p ih =>
    rw [openEntries_concat] at h
    rw [← List.append_assoc, openEntries_concat]
    split
    · rename_i hc
      rw [if_pos hc] at h
      cases h
    · rename_i hc
      rw [if_neg hc] at h
      rcases List.mem_append.mp h with h | h
      · exact List.mem_append_left _ (ih h)
      · exact List.mem_append_right _ h

/-- A dequeue names no record that comes later, not itself, and no open operation of another
transaction. -/
structure WellNamed (log : List Placed) : Prop where
  nodup : (rids log).Nodup
  transient : ∀ p ∈ log, p.jrec.isTransient = false
  earlier : AllSplits (fun pre p => ∀ q ∈ pre, ∀ rid drid xid c, q.jrec = .deq rid drid xid c →
    p.jrec.rid ≠ drid) log
  notSelf : ∀ p ∈ log, ∀ rid drid xid c, p.jrec = .deq rid drid xid c → drid ≠ rid
  owned : AllSplits (fun pre p => ∀ rid drid xid c, p.jrec = .deq rid drid xid c → xid ≠ [] →
    ∀ y td, td ∈ openEntries y pre → td.rid = drid → y = xid) log

theorem wellNamed_nil : WellNamed [] :=
  ⟨List.nodup_nil, fun _ h => (List.not_mem_nil h).elim, allSplits_nil _,
    fun _ h => (List.not_mem_nil h).elim, allSplits_nil _⟩

theorem WellNamed.of_concat {log : List Placed} {p : Placed} (h : WellNamed (log ++ [p])) :
    WellNamed log := by
  have hn := h.nodup
  rw [rids, List.map_append] at hn
  refine ⟨hn.of_append_left, ?_, (allSplits_concat.mp h.earlier).1, ?_,
    (allSplits_concat.mp h.owned).1⟩
  · intro q hq
    exact h.transient q (List.mem_append_left _ hq)
  · intro q hq
    exact h.notSelf q (List.mem_append_left _ hq)

theorem WellNamed.of_front {log post : List Placed} (h : WellNamed (log ++ post)) :
    WellNamed log := by
  induction post using List.reverseRecOn with
  | nil => rwa [List.append_nil] at h
  | append_singleton post p ih =>
    rw [← List.append_assoc] at h
    exact ih h.of_concat

theorem WellNamed.of_suffix {front log : List Placed} (h : WellNamed (front ++ log)) :
    WellNamed log := by
  have hn := h.nodup
  rw [rids, List.map_append] at hn
  refine ⟨hn.of_append_right, ?_, ?_, ?_, ?_⟩
  · intro q hq
    exact h.transient q (List.mem_append_right _ hq)
  · intro pre p post he q hq
    exact h.earlier (front ++ pre) p post (by rw [he, List.append_assoc]) q
      (List.mem_append_right _ hq)
  · intro q hq
    exact h.notSelf q (List.mem_append_right _ hq)
  · intro pre p post he rid drid xid c hj hx y td hm
    exact h.owned (front ++ pre) p post (by rw [he, List.append_assoc]) rid drid xid c hj hx y td
      (openEntries_suffix hm)

namespace Journal

/-- What the maps of a running journal have to do with its surviving records. -/
structure Traced (n : Nat) (s : Journal) : Prop where
  log : WellNamed (s.records n)
  used : ∀ p ∈ s.records n, p.jrec.rid ∈ s.used ∧
    ∀ rid drid xid c, p.jrec = .deq rid drid xid c → drid ∈ s.used
  sorted : s.log.Pairwise fun a b => a.inst ≤ b.inst
  uses : s.maps.view.Uses s.used
  closed : ∀ r, (s.maps.view.enq r).isSome → ∀ y td, td ∈ openEntries y (s.records n) → td.rid ≠ r
  whose : ∀ x td, td ∈ s.maps.view.opn x → ∀ p ∈ s.records n, p.jrec.rid = td.rid → p.jrec.xid = x

variable {n : Nat} {s s' : Journal}

theorem init_traced (n : Nat) : (init n).Traced n := by
  have hv : (init n).maps.view = View.empty := Maps.view_init n
  refine ⟨wellNamed_nil, fun _ h => (List.not_mem_nil h).elim, List.Pairwise.nil, ?_, ?_, ?_⟩
  · rw [hv]
    refine ⟨?_, ?_⟩
    · intro r h
      cases h
    · intro x td h
      cases h
  · intro r h
    rw [hv] at h
    cases h
  · intro x td h
    rw [hv] at h
    cases h

theorem mem_opn_apply {v : View} {p : Placed} {x : Xid} {td : TxnData}
    (h : td ∈ (v.apply p.fid p.jrec).opn x) : td ∈ v.opn x ∨ td ∈ p.entry x := by
  rw [View.opn_apply] at h
  split at h
  · cases h
  · exact List.mem_append.mp h

theorem mem_openEntries_concat {log : List Placed} {p : Placed} {x : Xid} {td : TxnData}
    (h : td ∈ openEntries x (log ++ [p])) :
    p.jrec.closes x = false ∧ (td ∈ openEntries x log ∨ td ∈ p.entry x) := by
  rw [openEntries_concat] at h
  split at h
  · cases h
  · rename_i hc
    exact ⟨Bool.eq_false_iff.mpr hc, List.mem_append.mp h⟩

theorem uses_apply {v : View} {used : List Nat} (h : v.Uses used) (p : Placed)
    (hd : ∀ rid drid xid c, p.jrec = .deq rid drid xid c → drid ∈ used) :
    (v.apply p.fid p.jrec).Uses (p.jrec.rid :: used) := by
  constructor
  · intro r hs
    obtain ⟨d, hr⟩ := Option.isSome_iff_exists.mp hs
    rcases View.enq_apply hr with ⟨d', hv, -⟩ | ⟨-, ds, t, e, hj⟩ | ⟨x, td, -, hm, -, rfl, -⟩
    · apply List.mem_cons_of_mem
      exact h.enq r (by rw [hv]; rfl)
    · rw [hj]
      exact List.mem_cons_self
    · exact List.mem_cons_of_mem _ (h.opn x td hm).1
  · intro x td hm
    rcases mem_opn_apply hm with hm | hm
    · constructor
      · exact List.mem_cons_of_mem _ (h.opn x td hm).1
      · intro he
        exact List.mem_cons_of_mem _ ((h.opn x td hm).2 he)
    · obtain ⟨hr, -, -, -, -, hq, -⟩ := mem_entry hm
      constructor
      · rw [hr]
        exact List.mem_cons_self
      · intro he
        obtain ⟨c, hj⟩ := hq he
        exact List.mem_cons_of_mem _ (hd _ _ _ _ hj)

theorem Traced.owned_deq (h : s.Traced n) {rid drid : Nat} {xid : Xid} {c : Bool} {m : Maps}
    (hck : Maps.checkOp (.deq rid drid xid c) s.maps = .ok () m) :
    ∀ y td, td ∈ openEntries y (s.records n) → td.rid = drid → y = xid := by
  intro y td hm hr
  rcases (Maps.ok_dequeueCheck hck).2 with ⟨d, hd, -⟩ | ⟨-, -, td', hm', hr'⟩
  · have hs : (s.maps.view.enq drid).isSome := by rw [hd]; rfl
    exact (h.closed drid hs y td hm hr).elim
  · obtain ⟨p, hp, hpe⟩ := mem_openEntries hm
    have he := mem_entry hpe
    rw [← he.2.1]
    apply h.whose xid td' hm' p hp
    rw [he.1, hr, hr']

theorem traced_op (h : s.Traced n) {r : JRec} {inst : Nat}
    (hs : s.step n (.op r inst) = some s') : s'.Traced n := by
  obtain ⟨hr, ht, had, m, hp, rfl⟩ := step_op hs
  obtain ⟨hck, hcm⟩ := Maps.ok_perform hp
  let p : Placed := ⟨r, inst % n⟩
  have hv : m.view = s.maps.view.apply p.fid p.jrec := Maps.view_complete _ _ hcm
  have hrec : records n { s with log := s.log ++ [⟨r, inst⟩], maps := m, used := r.rid :: s.used } =
      s.records n ++ [p] := by simp [records, LogRec.placed, p]
  have hdeq : ∀ rid drid xid c, r = .deq rid drid xid c → drid ∈ s.used := by
    intro rid drid xid c he
    subst he
    exact Maps.uses_deq hp h.uses
  -- the new record's rid was not in use
  have hnew : ∀ {k : Nat}, k ∈ s.used → r.rid ≠ k := by
    intro k hk he
    exact hr (he ▸ hk)
  have hopen : ∀ {x : Xid} {td : TxnData}, td ∈ openEntries x (s.records n) → td.rid ∈ s.used := by
    intro x td hm
    obtain ⟨q, hq, hqe⟩ := mem_openEntries hm
    rw [← (mem_entry hqe).1]
    exact (h.used q hq).1
  have hlog : WellNamed (s.records n ++ [p]) := by
    refine ⟨?_, ?_, allSplits_concat.mpr ⟨h.log.earlier, ?_⟩, ?_,
      allSplits_concat.mpr ⟨h.log.owned, ?_⟩⟩
    · rw [rids, List.map_append, List.nodup_append]
      refine ⟨h.log.nodup, List.nodup_singleton _, ?_⟩
      intro a ha b hb
      obtain ⟨q, hq, rfl⟩ := List.mem_map.mp ha
      rw [List.map_singleton, List.mem_singleton] at hb
      subst hb
      exact (hnew (h.used q hq).1).symm
    · intro q hq
      rcases List.mem_append.mp hq with hq | hq
      · exact h.log.transient q hq
      · rw [List.mem_singleton] at hq
        subst hq
        exact ht
    · intro q hq rid drid xid c hj
      exact hnew ((h.used q hq).2 rid drid xid c hj)
    · intro q hq rid drid xid c hj
      rcases List.mem_append.mp hq with hq | hq
      · exact h.log.notSelf q hq rid drid xid c hj
      · rw [List.mem_singleton] at hq
        subst hq
        have hrr : r.rid = rid := by rw [show r = _ from hj]; rfl
        rw [← hrr]
        exact (hnew (hdeq rid drid xid c hj)).symm
    · intro rid drid xid c hj hx y td hm htd
      have hj' : r = .deq rid drid xid c := hj
      subst hj'
      exact h.owned_deq hck y td hm htd
  refine ⟨hrec ▸ hlog, ?_, ?_, ?_, ?_, ?_⟩
  · rw [hrec]
    intro q hq
    rcases List.mem_append.mp hq with hq | hq
    · refine ⟨List.mem_cons_of_mem _ (h.used q hq).1, ?_⟩
      intro rid drid xid c hj
      exact List.mem_cons_of_mem _ ((h.used q hq).2 rid drid xid c hj)
    · rw [List.mem_singleton] at hq
      subst hq
      refine ⟨List.mem_cons_self, ?_⟩
      intro rid drid xid c hj
      exact List.mem_cons_of_mem _ (hdeq rid drid xid c hj)
  · rw [List.pairwise_append]
    refine ⟨h.sorted, List.pairwise_singleton _ _, ?_⟩
    intro a ha b hb
    rw [List.mem_singleton] at hb
    subst hb
    exact had.2.2 a ha
  · change m.view.Uses (p.jrec.rid :: s.used)
    rw [hv]
    exact uses_apply h.uses p hdeq
  · intro k hk y td hm
    change (m.view.enq k).isSome at hk
    rw [hv] at hk
    rw [hrec] at hm
    obtain ⟨hc, hm⟩ := mem_openEntries_concat hm
    obtain ⟨d, hd⟩ := Option.isSome_iff_exists.mp hk
    rcases View.enq_apply hd with ⟨d', hold, -⟩ | ⟨-, ds, t, e, hj⟩ | ⟨x, td', hx, hm', -, rfl, -⟩
    · have hk' : (s.maps.view.enq k).isSome := by rw [hold]; rfl
      rcases hm with hm | hm
      · exact h.closed k hk' y td hm
      · rw [← (mem_entry hm).1]
        exact hnew (h.uses.enq k hk')
    · have hkr : k = r.rid := by rw [show r = _ from hj]; rfl
      subst hkr
      rcases hm with hm | hm
      · exact (hnew (hopen hm)).symm
      · have hx := (mem_entry hm).2.1
        rw [hj] at hx
        exact ((mem_entry hm).2.2.2.1 hx.symm).elim
    · rcases hm with hm | hm
      · intro heq
        obtain ⟨q, hq, hqe⟩ := mem_openEntries hm
        have he := mem_entry hqe
        have hqx : q.jrec.xid = x := h.whose x td' hm' q hq (he.1.trans heq)
        rw [he.2.1.symm.trans hqx, hx] at hc
        cases hc
      · rw [← (mem_entry hm).1]
        exact hnew (h.uses.opn x td' hm').1
  · intro x td hm q hq hqr
    change td ∈ m.view.opn x at hm
    rw [hv] at hm
    rw [hrec] at hq
    rcases mem_opn_apply hm with hm | hm
    · rcases List.mem_append.mp hq with hq | hq
      · exact h.whose x td hm q hq hqr
      · rw [List.mem_singleton] at hq
        subst hq
        exact (hnew (h.uses.opn x td hm).1 hqr).elim
    · rcases List.mem_append.mp hq with hq | hq
      · exact (hnew (h.used q hq).1 ((mem_entry hm).1.trans hqr.symm)).elim
      · rw [List.mem_singleton] at hq
        subst hq
        exact (mem_entry hm).2.1

theorem traced_advance (h : s.Traced n) (hs : s.step n .advance = some s') : s'.Traced n := by
  obtain ⟨front, hf⟩ := advance_suffix h.sorted hs
  obtain ⟨-, rfl⟩ := step_advance hs
  generalize s.log.filter (fun e => decide (s.cur + 1 < e.inst + n)) = rest at hf
  have hrec : s.records n = front.map (LogRec.placed n) ++ rest.map (LogRec.placed n) := by
    rw [records, hf, List.map_append]
  have hmem : ∀ p ∈ rest.map (LogRec.placed n), p ∈ s.records n := by
    intro p hp
    rw [hrec]
    exact List.mem_append_right _ hp
  have hlog := h.log
  rw [hrec] at hlog
  refine ⟨hlog.of_suffix, fun p hp => h.used p (hmem p hp), ?_, h.uses, ?_, ?_⟩
  · have hsort := h.sorted
    rw [hf, List.pairwise_append] at hsort
    exact hsort.2.1
  · intro r hr y td hm
    apply h.closed r hr y td
    rw [hrec]
    exact openEntries_suffix hm
  · intro x td hm p hp
    exact h.whose x td hm p (hmem p hp)

theorem traced_recover (h : s.Traced n) {prepared : List Xid}
    (hs : s.step n (.recover prepared) = some s') : s'.Traced n := by
  obtain ⟨m, hm, rfl⟩ := step_recover hs
  obtain ⟨m₀, hm₀, hv₀, hs₀, -⟩ := Maps.replay_isOk n h.log.nodup h.log.transient
  obtain ⟨m₁, hm₁, hd, -⟩ := Maps.discard_spec prepared m₀ hs₀
  have hmm : m = m₁ := by
    have hj : janalyze n (s.records n) prepared = .ok () m₁ := ok_bind.mpr ⟨(), m₀, hm₀, hm₁⟩
    rw [hm] at hj
    cases hj
    rfl
  subst hmm
  have hfrom := View.fromLog_applyAll h.log.nodup
  rw [← hv₀] at hfrom
  have henq : ∀ r, (m.view.enq r).isSome → ∃ d, m₀.view.enq r = some d := by
    intro r hr
    obtain ⟨d, hr⟩ := Option.isSome_iff_exists.mp hr
    obtain ⟨d', hd', -⟩ := View.some_of_pfid (hd.pfid r) hr
    exact ⟨d', hd'⟩
  have hopn : ∀ x td, td ∈ m.view.opn x → td ∈ openEntries x (s.records n) := by
    intro x td htd
    by_cases hx : x ∈ prepared
    · rw [hd.kept x (fun hn => hn hx), hfrom.opn] at htd
      exact htd
    · rw [hd.gone x hx] at htd
      cases htd
  refine ⟨h.log, h.used, h.sorted, ⟨?_, ?_⟩, ?_, ?_⟩
  · intro r hr
    obtain ⟨d, hd'⟩ := henq r hr
    obtain ⟨p, hp, -, x, ds, t, e, hj⟩ := hfrom.enq r d hd'
    have := (h.used p hp).1
    rwa [hj] at this
  · intro x td htd
    obtain ⟨p, hp, hpe⟩ := mem_openEntries (hopn x td htd)
    have he := mem_entry hpe
    refine ⟨he.1 ▸ (h.used p hp).1, ?_⟩
    intro hf
    obtain ⟨c, hj⟩ := he.2.2.2.2.2.1 hf
    exact (h.used p hp).2 _ _ _ _ hj
  · intro r hr y td htd heq
    change td ∈ openEntries y (s.records n) at htd
    obtain ⟨d, hd'⟩ := henq r hr
    obtain ⟨p, hp, -, x, ds, t, e, hj⟩ := hfrom.enq r d hd'
    obtain ⟨q, hq, hqe⟩ := mem_openEntries htd
    have he := mem_entry hqe
    -- the open operation is of the enqueue itself, which is then not yet enqueued
    have hpq : q = p := nodup_rids_eq h.log.nodup hq hp (by rw [he.1, heq, hj]; rfl)
    have hflag : td.enqFlag = true := by
      by_contra hf
      obtain ⟨c, hj'⟩ := he.2.2.2.2.2.1 (by simpa using hf)
      rw [hpq, hj] at hj'
      cases hj'
    rw [← hfrom.opn] at htd
    rw [← heq, hfrom.fresh y td htd hflag] at hd'
    cases hd'
  · intro x td htd p hp hpr
    obtain ⟨q, hq, hqe⟩ := mem_openEntries (hopn x td htd)
    have he := mem_entry hqe
    rw [nodup_rids_eq h.log.nodup hp hq (hpr.trans he.1.symm)]
    exact he.2.1

theorem traced_step (h : s.Traced n) {a : LogAct} (hs : s.step n a = some s') : s'.Traced n := by
  cases a with
  | op r inst => exact traced_op h hs
  | advance => exact traced_advance h hs
  | recover prepared => exact traced_recover h hs

theorem traced_run (h : s.Traced n) {acts : List LogAct} (hr : s.run n acts = some s') :
    s'.Traced n := by
  induction acts generalizing s with
  | nil =>
    cases hr
    exact h
  | cons a acts ih =>
    obtain ⟨s₁, h₁, h₂⟩ := Option.bind_eq_some_iff.mp hr
    exact ih (traced_step h h₁) h₂

end Journal

end RhmStore
