import RhmStore.Log.Ordered
import RhmStore.Tools.Janal

/-! # Commit and abort in the two readers -/

namespace RhmStore

def TxnData.op (td : TxnData) : Bool × Nat × Nat := (td.enqFlag, td.rid, td.drid)

def JRec.op : JRec → Option (Bool × Nat × Nat)
  | .enq rid _ _ _ _ => some (true, rid, 0)
  | .deq rid drid _ _ => some (false, rid, drid)
  | _ => none

namespace Janal

def Entry.Names (l : Entry) (td : TxnData) : Prop := l.hdr.op = some td.op

theorem Entry.Names.enq {l : Entry} {td : TxnData} (h : l.Names td) (he : td.enqFlag = true) :
    ∃ xid ds t e, l.hdr = .enq td.rid xid ds t e := by
  unfold Names at h
  cases hh : l.hdr with
  | enq rid xid ds t e =>
    rw [hh] at h
    simp only [JRec.op, TxnData.op, Option.some.injEq, Prod.mk.injEq] at h
    rw [h.2.1]
    exact ⟨xid, ds, t, e, rfl⟩
  | deq rid drid xid c =>
    rw [hh] at h
    simp [JRec.op, TxnData.op, he] at h
  | txa rid xid =>
    rw [hh] at h
    cases h
  | txc rid xid =>
    rw [hh] at h
    cases h

theorem Entry.Names.deq {l : Entry} {td : TxnData} (h : l.Names td) (he : td.enqFlag = false) :
    ∃ xid c, l.hdr = .deq td.rid td.drid xid c := by
  unfold Names at h
  cases hh : l.hdr with
  | enq rid xid ds t e =>
    rw [hh] at h
    simp [JRec.op, TxnData.op, he] at h
  | deq rid drid xid c =>
    rw [hh] at h
    simp only [JRec.op, TxnData.op, Option.some.injEq, Prod.mk.injEq] at h
    rw [h.2.1, h.2.2]
    exact ⟨xid, c, rfl⟩
  | txa rid xid =>
    rw [hh] at h
    cases h
  | txc rid xid =>
    rw [hh] at h
    cases h

theorem Entry.Names.rid {l : Entry} {td : TxnData} (h : l.Names td) : l.hdr.rid = td.rid := by
  cases he : td.enqFlag with
  | true =>
    obtain ⟨xid, ds, t, e, hh⟩ := h.enq he
    rw [hh]
    rfl
  | false =>
    obtain ⟨xid, c, hh⟩ := h.deq he
    rw [hh]
    rfl

theorem names_rids {ls : List Entry} {tdl : List TxnData} (hn : List.Forall₂ Entry.Names ls tdl) :
    ls.map (·.hdr.rid) = tdl.map (·.rid) := by
  induction hn with
  | nil => rfl
  | cons hd _ ih => rw [List.map_cons, List.map_cons, hd.rid, ih]

theorem names_mem {ls : List Entry} {tdl : List TxnData} (hn : List.Forall₂ Entry.Names ls tdl)
    {l : Entry} (hm : l ∈ ls) : ∃ td ∈ tdl, td.rid = l.hdr.rid := by
  have hr : l.hdr.rid ∈ ls.map (·.hdr.rid) := List.mem_map.mpr ⟨l, hm, rfl⟩
  rw [names_rids hn] at hr
  exact List.mem_map.mp hr

theorem names_mem' {ls : List Entry} {tdl : List TxnData} (hn : List.Forall₂ Entry.Names ls tdl)
    {td : TxnData} (hm : td ∈ tdl) : ∃ l ∈ ls, l.hdr.rid = td.rid := by
  have hr : td.rid ∈ tdl.map (·.rid) := List.mem_map.mpr ⟨td, hm, rfl⟩
  rw [← names_rids hn] at hr
  exact List.mem_map.mp hr

namespace EnqMap

def lockOf (m : EnqMap) (rid : Nat) : Option Bool := (m.map[rid]?).map (·.lock)

variable {m : EnqMap}

theorem lockOf_some {rid : Nat} {b : Bool} (h : m.lockOf rid = some b) :
    ∃ e, m.map[rid]? = some e ∧ e.lock = b := Option.map_eq_some_iff.mp h

theorem lockOf_none {rid : Nat} (h : m.lockOf rid = none) : m.map[rid]? = none :=
  Option.map_eq_none_iff.mp h

theorem lockOf_setLock (m : EnqMap) (rid r : Nat) (b : Bool) :
    (m.setLock rid b).lockOf r = if r = rid then (m.lockOf r).map fun _ => b else m.lockOf r := by
  simp only [lockOf, setLock, mapGet_modify]
  split
  · cases m.map[r]? <;> rfl
  · rfl

theorem add_free {hdr : JRec} (h : m.lockOf hdr.rid = none) (fid : Nat) (lock : Bool) :
    ∃ m', m.add fid hdr lock = .ok m' ∧
      ∀ r, m'.lockOf r = if r = hdr.rid then some lock else m.lockOf r := by
  refine ⟨⟨m.map.insert hdr.rid ⟨fid, hdr, lock⟩⟩, ?_, ?_⟩
  · simp only [add, lockOf_none h]
  · intro r
    simp only [lockOf, mapGet_insert]
    split <;> rfl

theorem delete_unlocked {rid : Nat} (h : m.lockOf rid = some false) :
    ∃ m', m.delete rid = .ok m' ∧ ∀ r, m'.lockOf r = if r = rid then none else m.lockOf r := by
  obtain ⟨e, he, hl⟩ := lockOf_some h
  refine ⟨⟨m.map.erase rid⟩, ?_, ?_⟩
  · simp [delete, he, hl]
  · intro r
    simp only [lockOf, mapGet_erase]
    split <;> rfl

theorem delete_locked {rid : Nat} (h : m.lockOf rid = some true) :
    m.delete rid = .error .deleteLockedRecordError := by
  obtain ⟨e, he, hl⟩ := lockOf_some h
  simp [delete, he, hl]

theorem delete_absent {rid : Nat} (h : m.lockOf rid = none) : m.delete rid = .error .jWarning := by
  simp [delete, lockOf_none h]

theorem lock_unlocked {rid : Nat} (h : m.lockOf rid = some false) :
    m.lock rid = .ok (m.setLock rid true) := by
  obtain ⟨e, he, hl⟩ := lockOf_some h
  simp [lock, he, hl]

theorem lock_locked {rid : Nat} (h : m.lockOf rid = some true) :
    m.lock rid = .error .alreadyLockedError := by
  obtain ⟨e, he, hl⟩ := lockOf_some h
  simp [lock, he, hl]

theorem lock_absent {rid : Nat} (h : m.lockOf rid = none) : m.lock rid = .error .jWarning := by
  simp [lock, lockOf_none h]

theorem unlock_locked {rid : Nat} (h : m.lockOf rid = some true) :
    m.unlock rid = .ok (m.setLock rid false) := by
  obtain ⟨e, he, hl⟩ := lockOf_some h
  simp [unlock, he, hl]

theorem unlock_absent {rid : Nat} (h : m.lockOf rid = none) :
    m.unlock rid = .error .nonExistentRecordError := by
  simp [unlock, lockOf_none h]

end EnqMap

open View (Dequeues)

theorem dequeues_cons {td : TxnData} {tdl : List TxnData} {r : Nat} :
    Dequeues (td :: tdl) r ↔ td.enqFlag = false ∧ td.drid = r ∨ Dequeues tdl r := by
  constructor
  · rintro ⟨td', hm, ht⟩
    rcases List.mem_cons.mp hm with rfl | hm
    · exact Or.inl ht
    · exact Or.inr ⟨td', hm, ht⟩
  · rintro (ht | ⟨td', hm, ht⟩)
    · exact ⟨td, List.mem_cons_self, ht⟩
    · exact ⟨td', List.mem_cons_of_mem _ hm, ht⟩

namespace TxnMap

theorem abortEntry_deq {l : Entry} {td : TxnData} (h : l.Names td) (he : td.enqFlag = false)
    (emap : EnqMap) : abortEntry emap l = emap.unlock td.drid := by
  obtain ⟨xid, c, hh⟩ := h.deq he
  simp only [abortEntry, hh]

theorem abortEntry_enq {l : Entry} {td : TxnData} (h : l.Names td) (he : td.enqFlag = true)
    (emap : EnqMap) : abortEntry emap l = .ok emap := by
  obtain ⟨xid, ds, t, e, hh⟩ := h.enq he
  simp only [abortEntry, hh]
  rfl

theorem foldlM_abortEntry {ls : List Entry} {tdl : List TxnData} (hn : List.Forall₂ Entry.Names ls tdl)
    {emap : EnqMap} (hl : ∀ td ∈ tdl, td.enqFlag = false → emap.lockOf td.drid = some true)
    (hp : tdl.Pairwise fun a b => a.enqFlag = false → b.enqFlag = false → a.drid ≠ b.drid) :
    ∃ emap', ls.foldlM abortEntry emap = .ok emap' ∧
      ∀ r, emap'.lockOf r = if Dequeues tdl r then some false else emap.lockOf r := by
  induction hn generalizing emap with
  | nil =>
    refine ⟨emap, rfl, ?_⟩
    intro r
    rw [if_neg]
    rintro ⟨td, hm, -⟩
    cases hm
  | @cons l td ls tdl hd _ ih =>
    rw [List.pairwise_cons] at hp
    cases he : td.enqFlag with
    | true =>
      obtain ⟨emap', hok, hlk⟩ := ih (fun td' hm => hl td' (List.mem_cons_of_mem _ hm)) hp.2
      refine ⟨emap', ?_, ?_⟩
      · rw [List.foldlM_cons, abortEntry_enq hd he]
        exact hok
      · intro r
        rw [hlk]
        simp only [dequeues_cons, he, Bool.true_eq_false, false_and, false_or]
    | false =>
      have htd := hl td List.mem_cons_self he
      obtain ⟨emap', hok, hlk⟩ : ∃ emap', ls.foldlM abortEntry (emap.setLock td.drid false) =
          .ok emap' ∧ ∀ r, emap'.lockOf r =
            if Dequeues tdl r then some false else (emap.setLock td.drid false).lockOf r := by
        apply ih _ hp.2
        intro td' hm he'
        rw [EnqMap.lockOf_setLock, if_neg (hp.1 td' hm he he').symm]
        exact hl td' (List.mem_cons_of_mem _ hm) he'
      refine ⟨emap', ?_, ?_⟩
      · rw [List.foldlM_cons, abortEntry_deq hd he, EnqMap.unlock_locked htd]
        exact hok
      · intro r
        rw [hlk, EnqMap.lockOf_setLock]
        by_cases hr : r = td.drid
        · subst hr
          simp [dequeues_cons, he, htd]
        · simp [dequeues_cons, he, hr, Ne.symm hr]

theorem foldlM_abortEntry_finds {ls : List Entry} {tdl : List TxnData}
    (hn : List.Forall₂ Entry.Names ls tdl) {emap emap' : EnqMap}
    (h : ls.foldlM abortEntry emap = .ok emap') :
    ∀ td ∈ tdl, td.enqFlag = false → emap.lockOf td.drid ≠ none := by
  induction hn generalizing emap with
  | nil =>
    intro td hm
    cases hm
  | @cons l td ls tdl hd _ ih =>
    intro td' hm he'
    rw [List.foldlM_cons] at h
    cases he : td.enqFlag with
    | true =>
      rw [abortEntry_enq hd he] at h
      rcases List.mem_cons.mp hm with rfl | hm
      · rw [he] at he'
        cases he'
      · exact ih h td' hm he'
    | false =>
      rw [abortEntry_deq hd he] at h
      cases hu : emap.unlock td.drid with
      | error e =>
        rw [hu] at h
        cases h
      | ok emap₁ =>
        have hfound : emap.lockOf td.drid ≠ none := by
          intro hno
          rw [EnqMap.unlock_absent hno] at hu
          cases hu
        rcases List.mem_cons.mp hm with rfl | hm
        · exact hfound
        · rw [hu] at h
          have hne := ih h td' hm he'
          cases hlk : emap.lockOf td.drid with
          | none => exact (hfound hlk).elim
          | some b =>
            cases b with
            | true =>
              rw [EnqMap.unlock_locked hlk] at hu
              cases hu
              intro hno
              apply hne
              rw [EnqMap.lockOf_setLock, hno]
              split <;> rfl
            | false =>
              obtain ⟨e, hm', hl'⟩ := EnqMap.lockOf_some hlk
              simp [EnqMap.unlock, hm', hl'] at hu

theorem commitEntry_enq {l : Entry} {td : TxnData} (h : l.Names td) (he : td.enqFlag = true)
    {emap : EnqMap} (hfree : emap.lockOf td.rid = none) (miss : List Nat) :
    ∃ emap', commitEntry (emap, miss) l = .ok (emap', miss) ∧
      ∀ r, emap'.lockOf r = if r = td.rid then some l.lock else emap.lockOf r := by
  obtain ⟨xid, ds, t, e, hh⟩ := h.enq he
  have hno : emap.lockOf l.hdr.rid = none := by rw [h.rid, hfree]
  obtain ⟨emap', hok, hlk⟩ := EnqMap.add_free hno l.fid l.lock
  rw [h.rid] at hlk
  refine ⟨emap', ?_, hlk⟩
  rw [hh] at hok
  simp only [commitEntry, hh, hok]
  rfl

theorem commitEntry_deq {l : Entry} {td : TxnData} (h : l.Names td) (he : td.enqFlag = false)
    {emap : EnqMap} (hl : emap.lockOf td.drid ≠ some false) (miss : List Nat) :
    ∃ emap' miss', commitEntry (emap, miss) l = .ok (emap', miss') ∧
      ∀ r, emap'.lockOf r = if r = td.drid then none else emap.lockOf r := by
  obtain ⟨xid, c, hh⟩ := h.deq he
  cases hlk : emap.lockOf td.drid with
  | none =>
    have hc : emap.contains td.drid = false := by
      simp [EnqMap.contains, EnqMap.lockOf_none hlk]
    refine ⟨emap, miss ++ [td.drid], ?_, ?_⟩
    · simp only [commitEntry, hh, hc, Bool.false_eq_true, if_false]
      rfl
    · intro r
      split
      · rename_i hr
        rw [hr, hlk]
      · rfl
  | some b =>
    cases b with
    | false => exact (hl hlk).elim
    | true =>
      obtain ⟨e, hm, -⟩ := EnqMap.lockOf_some hlk
      have hc : emap.contains td.drid = true := by simp [EnqMap.contains, hm]
      have hun : (emap.setLock td.drid false).lockOf td.drid = some false := by
        rw [EnqMap.lockOf_setLock, if_pos rfl, hlk]
        rfl
      obtain ⟨emap', hok, hlk'⟩ := EnqMap.delete_unlocked hun
      refine ⟨emap', miss, ?_, ?_⟩
      · simp only [commitEntry, hh, hc, if_true, EnqMap.unlock_locked hlk]
        change (do let emap ← (emap.setLock td.drid false).delete td.drid; pure (emap, miss)) = _
        rw [hok]
        rfl
      · intro r
        rw [hlk']
        split
        · rfl
        · rename_i hr
          rw [EnqMap.lockOf_setLock, if_neg hr]

/-- A commit never raises. The lock of an entry is that a later one dequeues it; until then its
record is locked here and not in the other reader. -/
theorem foldlM_commitEntry {ls : List Entry} {tdl : List TxnData}
    (hn : List.Forall₂ Entry.Names ls tdl) {emap : EnqMap} {w : View} (miss : List Nat)
    (hlk : ∀ r, emap.lockOf r = (w.enq r).map fun d => d.lock || decide (Dequeues tdl r))
    (hflag : ∀ l ∈ ls, l.lock = decide (Dequeues tdl l.hdr.rid))
    (hfree : ∀ td ∈ tdl, td.enqFlag = true → w.enq td.rid = none)
    (hnd : (tdl.map (·.rid)).Nodup)
    (ho : tdl.Pairwise fun a b => a.enqFlag = false → b.rid ≠ a.drid) :
    ∃ emap' miss', ls.foldlM commitEntry (emap, miss) = .ok (emap', miss') ∧
      ∀ r, emap'.lockOf r = ((tdl.foldl View.commitEntry w).enq r).map (·.lock) := by
  induction hn generalizing emap w miss with
  | nil =>
    refine ⟨emap, miss, rfl, ?_⟩
    intro r
    have hno : ¬Dequeues [] r := by
      rintro ⟨td, hm, -⟩
      cases hm
    rw [hlk]
    simp only [hno, decide_false, Bool.or_false, List.foldl_nil]
  | @cons l td ls tdl hd hds ih =>
    rw [List.pairwise_cons] at ho
    rw [List.map_cons, List.nodup_cons] at hnd
    have hflag' : ∀ l' ∈ ls, l'.lock = decide (Dequeues tdl l'.hdr.rid) := by
      intro l' hm
      rw [hflag l' (List.mem_cons_of_mem _ hm)]
      obtain ⟨td', hm', hr'⟩ := names_mem hds hm
      have hne : ¬(td.enqFlag = false ∧ td.drid = l'.hdr.rid) := by
        rintro ⟨he, hr⟩
        exact ho.1 td' hm' he (hr'.trans hr.symm)
      simp only [dequeues_cons, hne, false_or]
    rw [List.foldlM_cons]
    cases he : td.enqFlag with
    | true =>
      have hnone := hfree td List.mem_cons_self he
      have hno : emap.lockOf td.rid = none := by rw [hlk, hnone]; rfl
      obtain ⟨emap₁, hok, hlk₁⟩ := commitEntry_enq hd he hno miss
      have hw : w.commitEntry td = w.insert td.rid td.pfid := by simp [View.commitEntry, he]
      have hdq : ∀ r, Dequeues (td :: tdl) r ↔ Dequeues tdl r := by
        intro r
        simp [dequeues_cons, he]
      obtain ⟨emap', miss', hok', hlk'⟩ : ∃ emap' miss',
          ls.foldlM commitEntry (emap₁, miss) = .ok (emap', miss') ∧
            ∀ r, emap'.lockOf r = ((tdl.foldl View.commitEntry (w.commitEntry td)).enq r).map
              (·.lock) := by
        apply ih _ _ hflag' _ hnd.2 ho.2
        · intro r
          rw [hlk₁, hw]
          by_cases hr : r = td.rid
          · subst hr
            rw [if_pos rfl, hflag l List.mem_cons_self, hd.rid]
            simp [View.insert, hdq]
          · rw [if_neg hr, hlk]
            simp [View.insert, hr, hdq]
        · intro td' hm he'
          have hne : td'.rid ≠ td.rid := by
            intro heq
            exact hnd.1 (List.mem_map.mpr ⟨td', hm, heq⟩)
          rw [hw]
          simp only [View.insert, Function.update_of_ne hne]
          exact hfree td' (List.mem_cons_of_mem _ hm) he'
      refine ⟨emap', miss', ?_, hlk'⟩
      rw [hok]
      exact hok'
    | false =>
      have hl : emap.lockOf td.drid ≠ some false := by
        rw [hlk]
        have : Dequeues (td :: tdl) td.drid := ⟨td, List.mem_cons_self, he, rfl⟩
        simp [this]
      obtain ⟨emap₁, miss₁, hok, hlk₁⟩ := commitEntry_deq hd he hl miss
      have hw : w.commitEntry td = w.remove td.drid := by simp [View.commitEntry, he]
      have hdq : ∀ r, r ≠ td.drid → (Dequeues (td :: tdl) r ↔ Dequeues tdl r) := by
        intro r hr
        simp [dequeues_cons, Ne.symm hr]
      obtain ⟨emap', miss', hok', hlk'⟩ : ∃ emap' miss',
          ls.foldlM commitEntry (emap₁, miss₁) = .ok (emap', miss') ∧
            ∀ r, emap'.lockOf r = ((tdl.foldl View.commitEntry (w.commitEntry td)).enq r).map
              (·.lock) := by
        apply ih _ _ hflag' _ hnd.2 ho.2
        · intro r
          rw [hlk₁, hw]
          by_cases hr : r = td.drid
          · subst hr
            simp [View.remove]
          · rw [if_neg hr, hlk]
            simp [View.remove, hr, hdq r hr]
        · intro td' hm he'
          rw [hw]
          by_cases hr : td'.rid = td.drid
          · simp [View.remove, hr]
          · simp only [View.remove, Function.update_of_ne hr]
            exact hfree td' (List.mem_cons_of_mem _ hm) he'
      refine ⟨emap', miss', ?_, hlk'⟩
      rw [hok]
      exact hok'

end TxnMap

end Janal

end RhmStore
