import RhmStore.Log.Transient

/-! # Locks of a journal in use, and of its recovery -/

namespace RhmStore

namespace View

/-- An enqueued record is locked just while open operations dequeue it, all of one transaction. -/
structure Exclusive (v : View) : Prop where
  held : ∀ r d, v.enq r = some d → d.lock = true → ∃ x, Dequeues (v.opn x) r
  holder : ∀ x r d, Dequeues (v.opn x) r → v.enq r = some d → d.lock = true
  one : ∀ x y r, Dequeues (v.opn x) r → Dequeues (v.opn y) r → (v.enq r).isSome → x = y

theorem Locks.exclusive {v : View} (h : v.Locks) : v.Exclusive where
  held := h.held
  holder x r d hd hr := by
    obtain ⟨td, hm, he, rfl⟩ := hd
    exact h.holder x td d hm he hr
  one x y r hx hy hs := by
    obtain ⟨td, hm, he, rfl⟩ := hx
    obtain ⟨td', hm', he', hr'⟩ := hy
    exact (h.unique x y td td' hm hm' he he' hr'.symm hs).1

theorem Exclusive.skips {ts : List Nat} {v w : View} (h : v.Exclusive) (hs : Skips ts v w) :
    w.Exclusive := by
  have hdeq : ∀ x r, Dequeues (w.opn x) r ↔ Dequeues (v.opn x) r := by
    intro x r
    rw [hs.opn]
    constructor
    · intro hd
      obtain ⟨td, hm, ht⟩ := hd
      exact ⟨td, (List.mem_filter.mp hm).1, ht⟩
    · intro hd
      obtain ⟨td, hm, he, ht⟩ := hd
      exact ⟨td, List.mem_filter.mpr ⟨hm, stays_of_deq ts he⟩, he, ht⟩
  have henq : ∀ r d, w.enq r = some d → v.enq r = some d := by
    intro r d hr
    by_cases hm : r ∈ ts
    · rw [(hs.enq r).1 hm] at hr
      cases hr
    · rwa [(hs.enq r).2 hm] at hr
  constructor
  · intro r d hr hl
    obtain ⟨x, hx⟩ := h.held r d (henq r d hr) hl
    exact ⟨x, (hdeq x r).mpr hx⟩
  · intro x r d hd hr
    exact h.holder x r d ((hdeq x r).mp hd) (henq r d hr)
  · intro x y r hx hy hr
    obtain ⟨d, hd⟩ := Option.isSome_iff_exists.mp hr
    apply h.one x y r ((hdeq x r).mp hx) ((hdeq y r).mp hy)
    rw [henq r d hd]
    rfl

/-- A recovery gives up the locks of the transactions that it discards, and no others. -/
theorem Exclusive.discards {p : Xid → Prop} {v w : View} (h : v.Exclusive)
    (hd : Discards p v w) : w.Exclusive := by
  have hopn : ∀ x r, Dequeues (w.opn x) r → ¬p x ∧ Dequeues (v.opn x) r := by
    intro x r hx
    by_cases hp : p x
    · rw [hd.gone x hp] at hx
      obtain ⟨td, hm, -⟩ := hx
      cases hm
    · rw [hd.kept x hp] at hx
      exact ⟨hp, hx⟩
  have hsome : ∀ r, (w.enq r).isSome → (v.enq r).isSome := by
    intro r hr
    by_cases hD : ∃ x, p x ∧ Dequeues (v.opn x) r
    · rwa [hd.unlocked r hD, Option.isSome_map] at hr
    · rwa [hd.same r hD] at hr
  constructor
  · intro r d hr hl
    by_cases hD : ∃ x, p x ∧ Dequeues (v.opn x) r
    · rw [hd.unlocked r hD] at hr
      obtain ⟨_, -, rfl⟩ := Option.map_eq_some_iff.mp hr
      cases hl
    · rw [hd.same r hD] at hr
      obtain ⟨x, hx⟩ := h.held r d hr hl
      have hp : ¬p x := fun hp => hD ⟨x, hp, hx⟩
      exact ⟨x, by rwa [hd.kept x hp]⟩
  · intro x r d hx hr
    obtain ⟨hp, hx⟩ := hopn x r hx
    have hs : (v.enq r).isSome := hsome r (by rw [hr]; rfl)
    have hD : ¬∃ y, p y ∧ Dequeues (v.opn y) r := by
      intro hD
      obtain ⟨y, hy, hyd⟩ := hD
      exact hp (h.one x y r hx hyd hs ▸ hy)
    rw [hd.same r hD] at hr
    exact h.holder x r d hx hr
  · intro x y r hx hy hr
    exact h.one x y r (hopn x r hx).2 (hopn y r hy).2 (hsome r hr)

end View

namespace Maps

def HasDeq (m : Maps) (xid : Xid) (rid : Nat) : Prop :=
  ∃ td ∈ m.tmap.getTdataList xid, td.enqFlag = false ∧ td.drid = rid

/-- An enqueued record is locked just while exactly one open transaction dequeues it, and two never
do. -/
def LockedExactly (m : Maps) : Prop :=
  ∀ rid d, m.emap.map[rid]? = some d →
    (d.lock = true ↔ ∃! xid, m.HasDeq xid rid) ∧
      ∀ xid xid', m.HasDeq xid rid → m.HasDeq xid' rid → xid = xid'

theorem hasDeq_iff (m : Maps) (xid : Xid) (rid : Nat) :
    m.HasDeq xid rid ↔ View.Dequeues (m.view.opn xid) rid := by
  constructor
  · intro h
    obtain ⟨td, hm, ht⟩ := h
    exact ⟨td.core, List.mem_map_of_mem hm, ht⟩
  · intro h
    obtain ⟨td, hm, ht⟩ := h
    obtain ⟨td', hm', rfl⟩ := List.mem_map.mp hm
    exact ⟨td', hm', ht⟩

theorem lockedExactly_of_exclusive {m : Maps} (h : m.view.Exclusive) : m.LockedExactly := by
  intro rid d hd
  have hsome : (m.view.enq rid).isSome := by
    change (m.emap.map[rid]?).isSome = true
    rw [hd]
    rfl
  have hone : ∀ xid xid', m.HasDeq xid rid → m.HasDeq xid' rid → xid = xid' := by
    intro x y hx hy
    rw [hasDeq_iff] at hx hy
    exact h.one x y rid hx hy hsome
  refine ⟨?_, hone⟩
  constructor
  · intro hl
    obtain ⟨x, hx⟩ := h.held rid d hd hl
    rw [← hasDeq_iff] at hx
    exact ⟨x, hx, fun y hy => hone y x hy hx⟩
  · intro hex
    obtain ⟨x, hx, -⟩ := hex
    exact h.holder x rid d ((hasDeq_iff m x rid).mp hx) hd

end Maps

def FindsFree (pre : List Placed) (p : Placed) : Prop :=
  ∀ rid drid c, p.jrec = .deq rid drid [] c →
    ∀ d, (View.empty.applyAll pre).enq drid = some d → d.lock = false

namespace Journal

def liveStep (n : Nat) (s : Journal) : LogAct → Option Journal
  | .op r inst =>
    if r.rid ∉ s.used ∧ s.Admits n inst then
      match Maps.perform (inst % n) r s.maps with
      | .ok _ m => some { s with log := s.log ++ [⟨r, inst⟩], maps := m, used := r.rid :: s.used }
      | .error _ _ => none
    else none
  | .advance => s.step n .advance
  | .recover _ => none

def liveRun (n : Nat) (s : Journal) : List LogAct → Option Journal
  | [] => some s
  | a :: acts => (s.liveStep n a).bind fun s' => s'.liveRun n acts

theorem liveStep_op {n : Nat} {s s' : Journal} {r : JRec} {inst : Nat} (h : s.liveStep n (.op r inst) = some s') :
    r.rid ∉ s.used ∧ s.Admits n inst ∧ ∃ m, Maps.perform (inst % n) r s.maps = .ok () m ∧
      s' = { s with log := s.log ++ [⟨r, inst⟩], maps := m, used := r.rid :: s.used } := by
  simp only [liveStep] at h
  split at h
  · rename_i hc
    cases hp : Maps.perform (inst % n) r s.maps with
    | ok a m =>
      rw [hp] at h
      exact ⟨hc.1, hc.2, m, rfl, (Option.some.inj h).symm⟩
    | error e m =>
      rw [hp] at h
      cases h
  · cases h

theorem liveStep_eq {n : Nat} {s : Journal} {r : JRec} (ht : r.isTransient = false) (inst : Nat) :
    s.liveStep n (.op r inst) = s.step n (.op r inst) := by
  by_cases hc : r.rid ∉ s.used ∧ s.Admits n inst
  · have hc' : r.rid ∉ s.used ∧ r.isTransient = false ∧ s.Admits n inst := ⟨hc.1, ht, hc.2⟩
    exact (if_pos hc).trans (if_pos hc').symm
  · have hc' : ¬(r.rid ∉ s.used ∧ r.isTransient = false ∧ s.Admits n inst) := fun h => hc ⟨h.1, h.2.2⟩
    exact (if_neg hc).trans (if_neg hc').symm

def persisted (s : Journal) : Journal :=
  { s with log := s.log.map fun e => { e with jrec := e.jrec.persisted } }

variable {n : Nat} {s s' : Journal}

theorem records_persisted (n : Nat) (s : Journal) :
    s.persisted.records n = (s.records n).map Placed.persisted := by
  simp only [records, persisted, List.map_map]
  rfl

theorem admits_persisted (inst : Nat) : s.persisted.Admits n inst ↔ s.Admits n inst := by
  simp [Admits, persisted]

/-- What a step of a journal in use does. -/
inductive LivesTo (n : Nat) (s : Journal) : Journal → Prop
  | op {r : JRec} {inst : Nat} {m : Maps} (hr : r.rid ∉ s.used) (ha : s.Admits n inst)
    (h : Maps.perform (inst % n) r s.maps = .ok () m) :
    LivesTo n s { s with log := s.log ++ [⟨r, inst⟩], maps := m, used := r.rid :: s.used }
  | advance (h : s.maps.enqCnt.getD ((s.cur + 1) % n) 0 = 0) : LivesTo n s
    { s with cur := s.cur + 1, log := s.log.filter fun e => s.cur + 1 < e.inst + n }

theorem livesTo {a : LogAct} (h : s.liveStep n a = some s') : s.LivesTo n s' := by
  cases a with
  | op r inst =>
    obtain ⟨hr, ha, m, hp, rfl⟩ := liveStep_op h
    exact .op hr ha hp
  | advance =>
    obtain ⟨hc, rfl⟩ := step_advance h
    exact .advance hc
  | recover prepared => cases h

theorem persisted_op {r : JRec} {inst : Nat} {m : Maps} (hr : r.rid ∉ s.used)
    (ha : s.Admits n inst) (hp : Maps.perform (inst % n) r s.maps = .ok () m) :
    s.persisted.step n (.op r.persisted inst) = some (Journal.persisted
      { s with log := s.log ++ [⟨r, inst⟩], maps := m, used := r.rid :: s.used }) := by
  have hc : r.persisted.rid ∉ s.persisted.used ∧ r.persisted.isTransient = false ∧
      s.persisted.Admits n inst := by
    rw [r.rid_persisted]
    exact ⟨hr, r.isTransient_persisted, (admits_persisted inst).mpr ha⟩
  have hp' : Maps.perform (inst % n) r.persisted s.persisted.maps = .ok () m := by
    rw [Maps.perform_persisted]
    exact hp
  simp only [step, if_pos hc, hp']
  simp [Journal.persisted]

theorem persisted_advance (hc : s.maps.enqCnt.getD ((s.cur + 1) % n) 0 = 0) :
    s.persisted.step n .advance = some (Journal.persisted
      { s with cur := s.cur + 1, log := s.log.filter fun e => s.cur + 1 < e.inst + n }) := by
  have hc' : s.persisted.maps.enqCnt.getD ((s.persisted.cur + 1) % n) 0 = 0 := hc
  simp only [step, if_pos hc']
  simp only [Journal.persisted, List.filter_map]
  rfl

theorem LivesTo.persisted (h : s.LivesTo n s') :
    ∃ a, s.persisted.step n a = some s'.persisted ∧
      ((∃ r inst, a = .op r inst ∧ r.isTransient = false) ∨ a = .advance) := by
  cases h with
  | op hr ha hp =>
    exact ⟨_, persisted_op hr ha hp, Or.inl ⟨_, _, rfl, JRec.isTransient_persisted _⟩⟩
  | advance hc => exact ⟨_, persisted_advance hc, Or.inr rfl⟩

structure Unbroken (n : Nat) (s : Journal) : Prop where
  none : s.discarded = []
  inv : s.persisted.Inv n
  plain : AllSplits FindsFree (s.persisted.records n)

theorem init_unbroken (n : Nat) : (init n).Unbroken n :=
  ⟨rfl, init_inv n, allSplits_nil _⟩

theorem stale_nil (h : s.discarded = []) : s.stale n = [] := by
  rw [stale, h, List.filter_eq_nil_iff]
  intro o _
  simp

theorem clean_of_none (h : s.discarded = []) (a : LogAct) : s.Clean n a := by
  have hs := stale_nil (n := n) h
  cases a with
  | op r inst =>
    cases r with
    | enq => trivial
    | deq => trivial
    | txa rid xid =>
      intro o ho
      rw [hs] at ho
      cases ho
    | txc rid xid =>
      intro o ho
      rw [hs] at ho
      cases ho
  | advance => trivial
  | recover prepared =>
    constructor
    · intro o ho
      rw [hs] at ho
      cases ho
    · intro o ho
      rw [hs] at ho
      cases ho

/-- With nothing discarded, replay builds what memory holds. -/
theorem Inv.view_eq (h : s.Inv n) (hd : s.discarded = []) : s.maps.view = s.found n := by
  have ha := h.agree
  rw [hd] at ha
  exact ha.eq

theorem plain_free {rid drid fid : Nat} {c : Bool} {m m' : Maps}
    (h : Maps.perform fid (.deq rid drid [] c) m = .ok () m') :
    ∃ d, m.emap.map[drid]? = some d ∧ d.lock = false := by
  have hc := (Maps.ok_perform h).2
  simp only [Maps.complete, Maps.dequeueComplete, ne_eq, not_true_eq_false, if_false] at hc
  obtain ⟨efid, m₁, h₁, -⟩ := ok_bind.mp hc
  obtain ⟨-, d, hd, -, hl⟩ := Maps.view_getRemovePfid _ _ h₁
  exact ⟨d, hd, hl rfl⟩

theorem findsFree_suffix {front log : List Placed} (ha : Apart front log)
    (h : AllSplits FindsFree (front ++ log)) : AllSplits FindsFree log := by
  intro pre p post he rid drid c hj d hd
  have hpre : Apart front pre := by
    intro q hq
    apply ha
    rw [he]
    exact List.mem_append_left _ hq
  have hl := lacks_drop hpre drid
  have hnamed : ¬Named front drid := by
    intro hn
    rw [hl.1 hn] at hd
    cases hd
  apply h (front ++ pre) p post (by rw [he, List.append_assoc]) rid drid c hj d
  rw [← hl.2 hnamed, hd]

theorem LivesTo.unbroken (ht : s.LivesTo n s') (h : s.Unbroken n) (hn : 0 < n) :
    s'.Unbroken n := by
  have hnone : s'.discarded = [] := by
    cases ht with
    | op _ _ _ => exact h.none
    | advance _ => exact h.none
  obtain ⟨a, hs, ha⟩ := ht.persisted
  have hclean : s.persisted.Clean n a := clean_of_none (s := s.persisted) h.none a
  refine ⟨hnone, inv_step h.inv hn hclean hs, ?_⟩
  rcases ha with ⟨r, inst, rfl, -⟩ | rfl
  · obtain ⟨-, -, -, m, hp, he⟩ := step_op hs
    rw [he]
    have hrec : records n { s.persisted with
        log := s.persisted.log ++ [⟨r, inst⟩], maps := m, used := r.rid :: s.persisted.used } =
        s.persisted.records n ++ [⟨r, inst % n⟩] := by simp [records, LogRec.placed]
    rw [hrec, allSplits_concat]
    refine ⟨h.plain, ?_⟩
    intro rid drid c hj d hd
    obtain rfl : r = .deq rid drid [] c := hj
    obtain ⟨d', hd', hl⟩ := plain_free hp
    have hview : (s.persisted.found n).enq drid = some d' := by
      rw [← h.inv.view_eq h.none]
      exact hd'
    change (s.persisted.found n).enq drid = some d at hd
    rw [hview] at hd
    cases hd
    exact hl
  · obtain ⟨front, hf⟩ := advance_suffix h.inv.sorted hs
    have happ := apart_of_split h.inv hf
    have hrec : s.persisted.records n =
        front.map (LogRec.placed n) ++ s'.persisted.log.map (LogRec.placed n) := by
      rw [records, hf, List.map_append]
    have hplain := h.plain
    rw [hrec] at hplain
    exact findsFree_suffix happ hplain

theorem liveRun_unbroken {acts : List LogAct} (h : s.Unbroken n) (hn : 0 < n)
    (hr : s.liveRun n acts = some s') : s'.Unbroken n := by
  induction acts generalizing s with
  | nil =>
    cases hr
    exact h
  | cons a acts ih =>
    obtain ⟨t, ht, hr⟩ := Option.bind_eq_some_iff.mp hr
    exact ih ((livesTo ht).unbroken h hn) hr

theorem rids_persisted (log : List Placed) : rids (log.map Placed.persisted) = rids log := by
  rw [rids, rids, List.map_map]
  apply List.map_congr_left
  intro p _
  exact p.jrec.rid_persisted

theorem Unbroken.nodup (h : s.Unbroken n) : (rids (s.records n)).Nodup := by
  have hn := h.inv.nodup
  rwa [records_persisted, rids_persisted] at hn

/-- Replay of the first surviving records, the transient ones skipped. -/
theorem Unbroken.replay_isOk (h : s.Unbroken n) {pre post : List Placed}
    (hs : s.records n = pre ++ post) :
    ∃ m, replay pre (Maps.init n) = .ok () m ∧ m.Shaped n ∧
      Skips (transients pre) (View.empty.applyAll (pre.map Placed.persisted)) m.view := by
  have hn := h.nodup
  rw [hs, rids, List.map_append] at hn
  have hpre : (rids pre).Nodup := hn.of_append_left
  have hlast : ∀ p ∈ lasting pre, p.jrec.isTransient = false := by
    intro p hp
    simpa using (List.mem_filter.mp hp).2
  obtain ⟨m, hm, hv, hsh, -⟩ := Maps.replay_isOk n (nodup_lasting hpre) hlast
  rw [replay_lasting] at hm
  refine ⟨m, hm, hsh, ?_⟩
  rw [hv]
  apply skips_lasting
  intro p hp
  exact mem_transients hpre hp

/-- In a journal that successful operations have made no crash has interrupted, and in the maps that a
recovery of it builds, every record is locked exactly while one transaction dequeues it, and no plain
dequeue removes a locked one. -/
theorem liveRun_lockedExactly {acts : List LogAct} (hn : 0 < n)
    (hr : (init n).liveRun n acts = some s) :
    s.maps.LockedExactly ∧
    (∀ prepared, ∃ m, janalyze n (s.records n) prepared = .ok () m ∧ m.LockedExactly) ∧
    (∀ fid rid drid c m, Maps.perform fid (.deq rid drid [] c) s.maps = .ok () m →
      ∃ d, s.maps.emap.map[drid]? = some d ∧ d.lock = false) ∧
    ∀ pre p post, s.records n = pre ++ p :: post →
      ∀ rid drid c, p.jrec = .deq rid drid [] c →
        ∃ m, replay pre (Maps.init n) = .ok () m ∧
          ∀ d, m.emap.map[drid]? = some d → d.lock = false := by
  have h := liveRun_unbroken (init_unbroken n) hn hr
  have hex : s.maps.view.Exclusive := h.inv.locks.exclusive
  refine ⟨Maps.lockedExactly_of_exclusive hex, ?_, ?_, ?_⟩
  · intro prepared
    obtain ⟨m, hm, hsh, hsk⟩ := h.replay_isOk (List.append_nil _).symm
    obtain ⟨m', hm', hd, -⟩ := Maps.discard_spec prepared m hsh
    refine ⟨m', ok_bind.mpr ⟨(), m, hm, hm'⟩, Maps.lockedExactly_of_exclusive ?_⟩
    have hv : View.empty.applyAll ((s.records n).map Placed.persisted) = s.maps.view := by
      rw [← records_persisted]
      exact (h.inv.view_eq h.none).symm
    rw [hv] at hsk
    exact (hex.skips hsk).discards hd
  · intro fid rid drid c m hp
    exact plain_free hp
  · intro pre p post he rid drid c hj
    obtain ⟨m, hm, -, hsk⟩ := h.replay_isOk he
    refine ⟨m, hm, ?_⟩
    intro d hd
    change m.view.enq drid = some d at hd
    have hnot : drid ∉ transients pre := by
      intro hm
      rw [(hsk.enq drid).1 hm] at hd
      cases hd
    rw [(hsk.enq drid).2 hnot] at hd
    apply h.plain (pre.map Placed.persisted) p.persisted (post.map Placed.persisted) _ rid drid c _ d hd
    · rw [records_persisted, he, List.map_append, List.map_cons]
    · simp only [Placed.persisted, hj]
      rfl

/-- Transaction `[7]` dequeues a transient record, `[8]` one that it has enqueued itself. -/
def twoOpenRun : List LogAct :=
  [.op (.enq 1 [] 10 true false) 0, .op (.deq 2 1 [7] false) 0, .op (.enq 3 [8] 10 false false) 0,
    .advance, .op (.deq 4 3 [8] false) 1]

theorem twoOpenRun_lockedExactly :
    ∃ s, (init 4).liveRun 4 twoOpenRun = some s ∧ s.maps.LockedExactly ∧
      ∀ prepared, ∃ m, janalyze 4 (s.records 4) prepared = .ok () m ∧ m.LockedExactly := by
  obtain ⟨s, hs⟩ : ∃ s, (init 4).liveRun 4 twoOpenRun = some s :=
    Option.isSome_iff_exists.mp (by decide)
  have h := liveRun_lockedExactly (by decide) hs
  exact ⟨s, hs, h.1, h.2.1⟩

theorem liveStep_inv (h : s.Inv n) (hd : s.discarded = []) (hn : 0 < n) {a : LogAct}
    (ht : ∀ r inst, a = .op r inst → r.isTransient = false) (hs : s.liveStep n a = some s') :
    s'.Inv n ∧ s'.discarded = [] := by
  cases a with
  | op r inst =>
    rw [liveStep_eq (ht r inst rfl)] at hs
    refine ⟨inv_op h (clean_of_none hd _) hs, ?_⟩
    obtain ⟨-, -, -, m, -, rfl⟩ := step_op hs
    exact hd
  | advance =>
    refine ⟨inv_advance h hn hs, ?_⟩
    obtain ⟨-, rfl⟩ := step_advance hs
    exact hd
  | recover prepared => cases hs

theorem liveRun_inv {acts : List LogAct} (h : s.Inv n) (hd : s.discarded = []) (hn : 0 < n)
    (ht : ∀ r inst, .op r inst ∈ acts → r.isTransient = false) (hr : s.liveRun n acts = some s') :
    s'.Inv n ∧ s'.discarded = [] := by
  induction acts generalizing s with
  | nil =>
    cases hr
    exact ⟨h, hd⟩
  | cons a acts ih =>
    obtain ⟨t, hs, hr⟩ := Option.bind_eq_some_iff.mp hr
    obtain ⟨hi, hd'⟩ := liveStep_inv h hd hn (fun r inst he => ht r inst (he ▸ List.mem_cons_self)) hs
    exact ih hi hd' (fun r inst hm => ht r inst (List.mem_cons_of_mem _ hm)) hr

/-- Transaction `[7]` enqueues record 2 and dequeues record 1; the ring has turned onto file 0 again,
where both were, when `[8]` enqueues record 6. -/
def droppedRun : List LogAct :=
  [.op (.enq 1 [] 10 false false) 0, .op (.enq 2 [7] 10 false false) 0, .advance, .op (.deq 3 1 [7] false) 1,
    .op (.txc 4 [7]) 1, .op (.deq 5 2 [] false) 1, .advance, .op (.enq 6 [8] 10 false false) 2]

end Journal

end RhmStore
