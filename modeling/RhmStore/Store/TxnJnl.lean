import RhmStore.Store.Txn
import RhmStore.Store.TplOnce

/-! # The journal of a queue under transactions -/

namespace RhmStore

namespace View

/-- The same records are enqueued. -/
def SameEnq (v v' : View) : Prop := ∀ r, (v.enq r).isSome = (v'.enq r).isSome

variable {v v' : View}

theorem SameEnq.insert (h : SameEnq v v') (rid fid : Nat) : SameEnq (v.insert rid fid) (v'.insert rid fid) := by
  intro r
  by_cases hr : r = rid
  · simp [View.insert, hr]
  · simp [View.insert, hr, h r]

theorem SameEnq.remove (h : SameEnq v v') (rid : Nat) : SameEnq (v.remove rid) (v'.remove rid) := by
  intro r
  by_cases hr : r = rid
  · simp [View.remove, hr]
  · simp [View.remove, hr, h r]

theorem SameEnq.commitEntry (h : SameEnq v v') (td : TxnData) :
    SameEnq (v.commitEntry td) (v'.commitEntry td) := by
  unfold View.commitEntry
  split
  · exact h.insert _ _
  · exact h.remove _

theorem SameEnq.foldl_commitEntry (h : SameEnq v v') (tdl : List TxnData) :
    SameEnq (tdl.foldl View.commitEntry v) (tdl.foldl View.commitEntry v') := by
  induction tdl generalizing v v' with
  | nil => exact h
  | cons td tdl ih => exact ih (h.commitEntry td)

/-- A record whose transaction has the same operations on both sides. -/
theorem SameEnq.apply (h : SameEnq v v') (fid : Nat) (j : JRec) (ho : v.opn j.xid = v'.opn j.xid) :
    SameEnq (v.apply fid j) (v'.apply fid j) := by
  cases j with
  | enq rid x d t e =>
    simp only [View.apply]
    split
    · exact h.insert _ _
    · exact h
  | deq rid drid x c =>
    simp only [View.apply]
    split
    · exact h.remove _
    · intro r
      have hr := h r
      rwa [← isSome_setLock v drid true r, ← isSome_setLock v' drid true r] at hr
  | txa rid x =>
    intro r
    simp only [View.apply, isSome_foldl_abortEntry]
    exact h r
  | txc rid x =>
    have hx : v.opn x = v'.opn x := ho
    simp only [View.apply, hx]
    have hclose : SameEnq (v.close x) (v'.close x) := h
    exact hclose.foldl_commitEntry _

end View

namespace Jnl

/-- The maps of a queue's journal enqueue what the records say, and have the operations of the
transactions that `live` holds of. -/
structure Sound (j : Jnl) (live : Xid → Prop) : Prop where
  orderly : Orderly j.recs
  enq : View.SameEnq j.maps.view (View.empty.applyAll j.recs)
  opn : ∀ x, live x → j.maps.view.opn x = openEntries x j.recs

variable {j j' : Jnl} {w : DataRec} {live : Xid → Prop} {x : Xid}

theorem write_ok (h : j.write w = some j') :
    w.placed.jrec.rid ∉ rids j.recs ∧ w.placed.jrec.isTransient = false ∧
      ∃ m, Maps.perform w.placed.fid w.placed.jrec j.maps = .ok () m ∧
        j' = ⟨j.log.append w, m, w.placed.jrec.ended ++ j.txnPending, w.placed.jrec.rid :: j.out⟩ := by
  unfold write at h
  split at h
  · cases h
  · rename_i hc
    rw [not_or, Bool.not_eq_true] at hc
    cases hp : Maps.perform w.placed.fid w.placed.jrec j.maps with
    | ok a m =>
      rw [hp] at h
      refine ⟨?_, hc.2, m, rfl, (Option.some.inj h).symm⟩
      rw [recs, rids_placeds]
      exact hc.1
    | error e m =>
      rw [hp] at h
      cases h

theorem recs_write (h : j.write w = some j') : j'.recs = j.recs ++ [w.placed] := by
  obtain ⟨-, -, m, -, rfl⟩ := write_ok h
  exact placeds_concat _ _

theorem durable_write (h : j.write w = some j') : j'.durable = j.durable := by
  obtain ⟨-, -, m, -, rfl⟩ := write_ok h
  simp [durable]

theorem view_setAioCompl (j : Jnl) (y : Xid) (rid : Nat) : (j.setAioCompl y rid).maps.view = j.maps.view := by
  unfold setAioCompl
  cases h : j.maps.tmap.setAioCompl y rid with
  | error e => rfl
  | ok tmap =>
    have hm : Maps.setAioCompl y rid j.maps = .ok () { j.maps with tmap := tmap } := by
      simp only [Maps.setAioCompl, ok_get_bind, h, ok_set]
    exact Maps.view_setAioCompl y rid hm

inductive Returns (j : Jnl) (rid : Nat) : Jnl → Prop
  | none : Returns j rid j
  | plain : Returns j rid { j with out := j.out.erase rid }
  | marks (y : Xid) : Returns j rid ({ j with out := j.out.erase rid }.setAioCompl y rid)
  | ends (y : Xid) (h : ∃ p ∈ j.recs, p.jrec.rid = rid ∧ p.jrec.closes y = true) :
      Returns j rid { j with out := j.out.erase rid, txnPending := j.txnPending.erase y }

theorem returns_returned (j : Jnl) (rid : Nat) : j.Returns rid (j.returned rid) := by
  unfold returned
  cases hf : j.log.recs.find? fun w => w.placed.jrec.rid = rid with
  | none => exact .none
  | some w =>
    have hm : w.placed ∈ j.recs := List.mem_map_of_mem (List.mem_of_find?_eq_some hf)
    have hr : w.placed.jrec.rid = rid := by simpa using List.find?_some hf
    cases hj : w.placed.jrec with
    | enq rid' y d t e =>
      simp only [hj]
      split
      · exact .marks y
      · exact .plain
    | deq rid' drid y c =>
      simp only [hj]
      split
      · exact .marks y
      · exact .plain
    | txa rid' y =>
      simp only [hj]
      exact .ends y ⟨_, hm, hr, by simp [hj, JRec.closes]⟩
    | txc rid' y =>
      simp only [hj]
      exact .ends y ⟨_, hm, hr, by simp [hj, JRec.closes]⟩

@[simp] theorem log_returned (j : Jnl) (rid : Nat) : (j.returned rid).log = j.log := by
  generalize hj : j.returned rid = j'
  obtain h := hj ▸ j.returns_returned rid
  cases h with
  | none => rfl
  | plain => rfl
  | marks y => rfl
  | ends y _ => rfl

@[simp] theorem recs_returned (j : Jnl) (rid : Nat) : (j.returned rid).recs = j.recs := by
  rw [recs, log_returned, recs]

@[simp] theorem view_returned (j : Jnl) (rid : Nat) : (j.returned rid).maps.view = j.maps.view := by
  generalize hj : j.returned rid = j'
  obtain h := hj ▸ j.returns_returned rid
  cases h with
  | none => rfl
  | plain => rfl
  | marks y => exact view_setAioCompl _ y rid
  | ends y _ => rfl

inductive Live (j : Jnl) : Jnl → Prop
  | sync (k : Nat) : Live j { j with log := j.log.sync k }
  | write (k : Nat) {w : DataRec} {j' : Jnl} :
      ({ j with log := j.log.sync k } : Jnl).write w = some j' → Live j j'
  | returned (rid : Nat) : Live j (j.returned rid)

theorem Live.same (j : Jnl) : Live j j := by
  have h := Live.sync (j := j) 0
  rwa [Wal.sync_zero] at h

theorem Live.step (h : Live j j') : Wal.Step j.log j'.log := by
  cases h with
  | sync k => exact .sync k
  | @write k w _ hw =>
    obtain ⟨-, -, m, -, rfl⟩ := write_ok hw
    exact .append k w
  | returned rid =>
    rw [log_returned]
    have h := Wal.Step.sync (w := j.log) 0
    rwa [Wal.sync_zero] at h

theorem durable_subset (j : Jnl) {p : Placed} (h : p ∈ j.durable) : p ∈ j.recs := by
  obtain ⟨w, hw, rfl⟩ := List.mem_map.mp h
  exact List.mem_map_of_mem (j.log.durable_prefix.subset hw)

theorem durable_sync (j : Jnl) (k : Nat) {p : Placed} (h : p ∈ j.durable) :
    p ∈ ({ j with log := j.log.sync k } : Jnl).durable :=
  ((j.log.durable_sync k).map DataRec.placed).subset h

theorem durable_waitedFor {p : Placed} (hp : p ∈ j.recs) (hx : p.jrec.xid = x) :
    p ∈ (j.waitedFor x).durable := by
  obtain ⟨w, hw, rfl⟩ := List.mem_map.mp hp
  exact List.mem_map_of_mem (Wal.mem_durable_syncFor hw (decide_eq_true hx))

theorem init_sound (files : Nat) : (init files).Sound live := by
  have hv := Maps.view_init files
  refine ⟨Orderly.nil, fun r => ?_, fun x _ => ?_⟩
  · exact congrArg (fun v => (v.enq r).isSome) hv
  · exact congrFun (congrArg View.opn hv) x

/-- A record is written. Those of transactions are of one that is alive here and has no commit or
abort. -/
theorem Sound.write (h : j.Sound live) (hw : j.write w = some j')
    (hx : w.placed.jrec.xid ≠ [] → live w.placed.jrec.xid ∧ Unclosed w.placed.jrec.xid j.recs) :
    j'.Sound live := by
  have hrecs := recs_write hw
  obtain ⟨hn, ht, m, hm, rfl⟩ := write_ok hw
  obtain ⟨hck, hc⟩ := Maps.ok_perform hm
  have hview : m.view = j.maps.view.apply w.placed.fid w.placed.jrec := Maps.view_complete _ _ hc
  have hopn : w.placed.jrec.xid ≠ [] →
      j.maps.view.opn w.placed.jrec.xid = openEntries w.placed.jrec.xid j.recs := fun hne =>
    h.opn _ (hx hne).1
  have hclose : ∀ y, w.placed.jrec.closes y = true → y ≠ [] := by
    intro y hy hnil
    subst hnil
    rcases (closes_iff _ _).mp hy with ⟨rid, hj⟩ | ⟨rid, hj⟩
    · rw [hj] at hck
      simp only [Maps.checkOp, ne_eq, not_true_eq_false, if_false] at hck
      exact (ok_throw.mp hck).elim
    · rw [hj] at hck
      simp only [Maps.checkOp, ne_eq, not_true_eq_false, if_false] at hck
      exact (ok_throw.mp hck).elim
  refine ⟨?_, ?_, ?_⟩
  · rw [hrecs]
    refine h.orderly.concat hn ht (fun hne => (hx hne).2) hclose ?_
    rintro r ⟨rid, y, c, hj⟩
    rw [hj] at hck hopn ⊢
    rcases (Maps.ok_dequeueCheck hck).2 with ⟨d, hd, -⟩ | ⟨-, hy, td, hm, htd⟩
    · left
      rw [← h.enq r, hd]
      rfl
    · right
      have hopn' : j.maps.view.opn y = openEntries y j.recs := hopn hy
      rw [hopn'] at hm
      exact ⟨td, hm, htd⟩
  · rw [hrecs, View.applyAll_concat]
    change View.SameEnq m.view _
    rw [hview]
    by_cases hne : w.placed.jrec.xid = []
    · -- a record of no transaction does not look at the open operations
      cases hj : w.placed.jrec with
      | enq rid y d t e =>
        rw [hj] at hne
        obtain rfl : y = [] := hne
        exact h.enq.insert _ _
      | deq rid drid y c =>
        rw [hj] at hne
        obtain rfl : y = [] := hne
        exact h.enq.remove _
      | txa rid y =>
        rw [hj] at hne
        exact absurd hne (hclose y (by rw [hj]; simp [JRec.closes]))
      | txc rid y =>
        rw [hj] at hne
        exact absurd hne (hclose y (by rw [hj]; simp [JRec.closes]))
    · apply h.enq.apply
      rw [hopn hne, View.opn_applyAll]
  · intro y hy
    rw [hrecs, openEntries_concat]
    change m.view.opn y = _
    rw [hview, View.opn_apply, h.opn y hy]

theorem Sound.of_eq (h : j.Sound live) (hr : j'.recs = j.recs) (hv : j'.maps.view = j.maps.view) :
    j'.Sound live := by
  refine ⟨hr ▸ h.orderly, ?_, fun y hy => ?_⟩
  · rw [hr, hv]
    exact h.enq
  · rw [hr, hv]
    exact h.opn y hy

theorem recover_sound (files : Nat) {log : Wal DataRec} (ho : Orderly (placeds log.recs))
    (prepared : List Xid) : ∃ j, recover files log prepared = some j ∧ j.log = log ∧
      j.Sound (· ∈ prepared) ∧ ∀ x, x ∉ prepared → j.maps.view.opn x = [] := by
  obtain ⟨m, hm, hv, hs, -⟩ := Maps.replay_isOk files ho.nodup ho.persistent
  obtain ⟨m', hm', hd, -⟩ := Maps.discard_spec prepared m hs
  have hok : janalyze files (placeds log.recs) prepared = .ok () m' := ok_bind.mpr ⟨(), m, hm, hm'⟩
  refine ⟨⟨log, m', [], []⟩, ?_, rfl, ⟨ho, fun r => ?_, fun x hx => ?_⟩, fun x hx => hd.gone x hx⟩
  · unfold recover
    rw [hok]
  · have hp := congrArg Option.isSome (hd.pfid r)
    rw [Option.isSome_map, Option.isSome_map, hv] at hp
    exact hp
  · change m'.view.opn x = openEntries x (placeds log.recs)
    rw [hd.kept x (not_not.mpr hx), hv, View.opn_applyAll]

end Jnl

theorem TplMaps.setAioCompl {flags : Bool} {j : Jnl} {log : List DataRec} (h : TplMaps flags j.maps log) (y : Xid)
    (rid : Nat) : TplMaps flags (j.setAioCompl y rid).maps log := by
  refine ⟨fun x => ?_, fun r => ?_⟩
  · unfold Jnl.setAioCompl
    cases hs : j.maps.tmap.setAioCompl y rid with
    | error e => exact h.told x
    | ok tmap =>
      have hm : Maps.setAioCompl y rid j.maps = .ok () { j.maps with tmap := tmap } := by
        simp only [Maps.setAioCompl, ok_get_bind, hs, ok_set]
      have hd := Maps.data_setAioCompl y rid hm x
      change (tplState x log).Told flags (tmap.getTdataList x)
      rw [hd]
      split
      · exact (h.told x).mark rid
      · exact h.told x
  · rw [Jnl.view_setAioCompl]
    exact h.enq r

theorem TplMaps.returned {flags : Bool} {j : Jnl} {log : List DataRec} (h : TplMaps flags j.maps log) (rid : Nat) :
    TplMaps flags (j.returned rid).maps log := by
  generalize hj : j.returned rid = j'
  obtain hr := hj ▸ j.returns_returned rid
  cases hr with
  | none => exact h
  | plain => exact h
  | marks y => exact TplMaps.setAioCompl (j := { j with out := j.out.erase rid }) h y rid
  | ends y _ => exact h

/-- A transaction with open operations has no commit or abort. -/
theorem Orderly.unclosed {log : List Placed} (h : Orderly log) {x : Xid} (hx : x ≠ [])
    (ho : openEntries x log ≠ []) : Unclosed x log := by
  induction h with
  | nil => exact fun _ hq => (List.not_mem_nil hq).elim
  | @concat log p _ _ _ hc _ _ ih =>
    rw [openEntries_concat] at ho
    have hp : p.jrec.closes x = false := by
      by_contra hne
      rw [Bool.not_eq_false] at hne
      rw [if_pos hne] at ho
      exact ho rfl
    rw [hp, if_neg Bool.false_ne_true] at ho
    have hlog : Unclosed x log := by
      by_cases hl : openEntries x log = []
      · rw [hl, List.nil_append] at ho
        obtain ⟨td, ht⟩ := List.exists_mem_of_ne_nil _ ho
        have hxid := (mem_entry ht).2.1
        subst hxid
        exact hc hx
      · exact ih hl
    intro q hq
    rcases List.mem_append.mp hq with hq | hq
    · exact hlog q hq
    · rw [List.mem_singleton.mp hq]
      exact hp

end RhmStore
