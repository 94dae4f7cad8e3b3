import RhmStore.Tools.Entries

/-! # Where the offline reader agrees with recovery -/

namespace RhmStore

namespace Janal

open View (Dequeues)

/-- The offline reader's maps stand for `v`. -/
structure Reads (m : TxnMap) (v : View) : Prop where
  enq : ∀ r, m.emap.lockOf r = (v.enq r).map (·.lock)
  opn : ∀ x, List.Forall₂ Entry.Names (m.get x) (v.opn x)
  nonempty : ∀ x : Xid, m.map[x]? ≠ some []
  flag : ∀ x, ∀ l ∈ m.get x, l.lock = decide (Dequeues (v.opn x) l.hdr.rid)

variable {m m' : TxnMap} {v : View} {log : List Placed}

namespace TxnMap

theorem get_append (m : TxnMap) (fid : Nat) (hdr : JRec) (x : Xid) :
    (m.append fid hdr).get x =
      if x = hdr.xid then m.get x ++ [⟨fid, hdr, false⟩] else m.get x := by
  simp only [get, append, mapGet_insert]
  split
  · rename_i hx
    rw [hx]
    rfl
  · rfl

theorem append_nonempty (h : ∀ x : Xid, m.map[x]? ≠ some []) (fid : Nat) (hdr : JRec) (x : Xid) :
    (m.append fid hdr).map[x]? ≠ some [] := by
  simp only [append, mapGet_insert]
  split
  · simp
  · exact h x

theorem mem_lockEntry {drid : Nat} {ls : List Entry} (hn : (ls.map (·.hdr.rid)).Nodup) {l : Entry}
    (h : l ∈ lockEntry drid ls) : l.hdr.rid = drid ∧ l.lock = true ∨ l.hdr.rid ≠ drid ∧ l ∈ ls := by
  induction ls with
  | nil => cases h
  | cons a ls ih =>
    rw [List.map_cons, List.nodup_cons] at hn
    unfold lockEntry at h
    split at h
    · rename_i ha
      rcases List.mem_cons.mp h with rfl | h
      · exact Or.inl ⟨ha, rfl⟩
      · right
        refine ⟨?_, List.mem_cons_of_mem _ h⟩
        intro hl
        exact hn.1 (List.mem_map.mpr ⟨l, h, hl.trans ha.symm⟩)
    · rename_i ha
      rcases List.mem_cons.mp h with rfl | h
      · exact Or.inr ⟨ha, List.mem_cons_self⟩
      · rcases ih hn.2 h with h | h
        · exact Or.inl h
        · exact Or.inr ⟨h.1, List.mem_cons_of_mem _ h.2⟩

theorem lockEntry_of_none {drid : Nat} {ls : List Entry} (h : ∀ l ∈ ls, l.hdr.rid ≠ drid) :
    lockEntry drid ls = ls := by
  induction ls with
  | nil => rfl
  | cons a ls ih =>
    unfold lockEntry
    rw [if_neg (h a List.mem_cons_self), ih fun l hl => h l (List.mem_cons_of_mem _ hl)]

theorem names_lockEntry (drid : Nat) {ls : List Entry} {tdl : List TxnData}
    (h : List.Forall₂ Entry.Names ls tdl) : List.Forall₂ Entry.Names (lockEntry drid ls) tdl := by
  induction h with
  | nil => exact List.Forall₂.nil
  | cons hd hds ih =>
    unfold lockEntry
    split
    · exact List.Forall₂.cons hd hds
    · exact List.Forall₂.cons hd ih

theorem findRid_eq {drid : Nat} {xid : Xid}
    (ho : ∀ y, ∀ l ∈ m.get y, l.hdr.rid = drid → y = xid) :
    m.findRid drid xid = ((m.get xid).find? (·.hdr.rid == drid)).map (xid, ·) := by
  unfold findRid
  cases hf : (m.get xid).find? (·.hdr.rid == drid) with
  | some l => rfl
  | none =>
    simp only [Option.map_none]
    rw [List.findSome?_eq_none_iff]
    rintro ⟨y, ls⟩ hm
    split
    · rfl
    · rename_i hy
      rw [Option.map_eq_none_iff, List.find?_eq_none]
      intro l hl hr
      apply hy
      apply ho y l _ (beq_iff_eq.mp hr)
      rw [Std.ExtTreeMap.mem_toList_iff_getElem?_eq_some] at hm
      simp only [get, hm, Option.getD_some]
      exact hl

theorem lockTarget_ne_jWarning (m : TxnMap) {drid : Nat} {xid : Xid} :
    m.lockTarget drid xid ≠ .error .jWarning := by
  unfold lockTarget
  split
  · intro h
    cases h
  · split
    · intro h
      cases h
    · split
      · intro h
        cases h
      · intro h
        cases h
  · rename_i e hne _
    intro h
    cases h
    exact hne rfl

/-- A dequeue whose record is found locked raises. Else the record is locked, in the map or among
the operations of its own transaction. -/
theorem lockTarget_spec {drid : Nat} {xid : Xid} (h : Reads m v) (hf : v.FromLog log)
    (hn : (rids log).Nodup) (ho : ∀ y td, td ∈ v.opn y → td.rid = drid → y = xid) :
    ((∃ m', m.lockTarget drid xid = .ok m') ↔ (∀ d, v.enq drid = some d → d.lock = false) ∧
      (v.enq drid = none → (∃ td ∈ v.opn xid, td.rid = drid) → ¬Dequeues (v.opn xid) drid)) ∧
    ∀ m', m.lockTarget drid xid = .ok m' →
      (∀ r, m'.emap.lockOf r = ((v.setLock drid true).enq r).map (·.lock)) ∧
      (∀ x, m'.get x = if x = xid then lockEntry drid (m.get x) else m.get x) ∧
      ∀ x : Xid, m'.map[x]? ≠ some [] := by
  have ho' : ∀ y, ∀ l ∈ m.get y, l.hdr.rid = drid → y = xid := by
    intro y l hl hr
    obtain ⟨td, hm, htd⟩ := names_mem (h.opn y) hl
    exact ho y td hm (htd.trans hr)
  have hsame : (∀ l ∈ m.get xid, l.hdr.rid ≠ drid) →
      ∀ x, m.get x = if x = xid then lockEntry drid (m.get x) else m.get x := by
    intro hne x
    split
    · rename_i hx
      rw [hx, lockEntry_of_none hne]
    · rfl
  cases hv : v.enq drid with
  | some d =>
    have hlk : m.emap.lockOf drid = some d.lock := by rw [h.enq, hv]; rfl
    -- an enqueued record is no open operation
    have hno : ∀ l ∈ m.get xid, l.hdr.rid ≠ drid := by
      intro l hl hr
      obtain ⟨td, hm, htd⟩ := names_mem (h.opn xid) hl
      exact hf.closed hn (by rw [hv]; rfl) hm (htd.trans hr)
    cases hd : d.lock with
    | true =>
      rw [hd] at hlk
      have herr : m.lockTarget drid xid = .error .alreadyLockedError := by
        simp only [lockTarget, EnqMap.lock_locked hlk]
      rw [herr]
      refine ⟨⟨?_, ?_⟩, ?_⟩
      · rintro ⟨m', hm'⟩
        cases hm'
      · rintro ⟨hfree, -⟩
        rw [hfree d rfl] at hd
        cases hd
      · intro m' hm'
        cases hm'
    | false =>
      rw [hd] at hlk
      have hok : m.lockTarget drid xid = .ok { m with emap := m.emap.setLock drid true } := by
        simp only [lockTarget, EnqMap.lock_unlocked hlk]
      rw [hok]
      refine ⟨⟨?_, ?_⟩, ?_⟩
      · intro _
        refine ⟨?_, ?_⟩
        · intro d' hd'
          cases hd'
          exact hd
        · intro hnone
          cases hnone
      · intro _
        exact ⟨_, rfl⟩
      · intro m' hm'
        cases hm'
        refine ⟨?_, hsame hno, h.nonempty⟩
        intro r
        change (m.emap.setLock drid true).lockOf r = _
        rw [EnqMap.lockOf_setLock, h.enq]
        by_cases hr : r = drid
        · subst hr
          simp [View.setLock, hv]
        · simp [View.setLock, hr]
  | none =>
    have hlk : m.emap.lockOf drid = none := by rw [h.enq, hv]; rfl
    have hset : v.setLock drid true = v := Maps.setLock_of_none _ _ _ hv
    rw [hset]
    cases hfind : (m.get xid).find? (·.hdr.rid == drid) with
    | none =>
      have hno : ∀ l ∈ m.get xid, l.hdr.rid ≠ drid := by
        intro l hl hr
        have := List.find?_eq_none.mp hfind l hl
        simp [hr] at this
      have hok : m.lockTarget drid xid = .ok m := by
        simp only [lockTarget, EnqMap.lock_absent hlk, findRid_eq ho', hfind, Option.map_none]
      rw [hok]
      refine ⟨⟨?_, ?_⟩, ?_⟩
      · intro _
        refine ⟨?_, ?_⟩
        · intro d hd
          cases hd
        · rintro - ⟨td, hm, htd⟩
          obtain ⟨l, hl, hlr⟩ := names_mem' (h.opn xid) hm
          exact (hno l hl (hlr.trans htd)).elim
      · intro _
        exact ⟨_, rfl⟩
      · intro m' hm'
        cases hm'
        exact ⟨h.enq, hsame hno, h.nonempty⟩
    | some l =>
      have hl := List.mem_of_find?_eq_some hfind
      have hr : l.hdr.rid = drid := by simpa using List.find?_some hfind
      have hflag := h.flag xid l hl
      rw [hr] at hflag
      have htarget : ∃ td ∈ v.opn xid, td.rid = drid := by
        obtain ⟨td, hm, htd⟩ := names_mem (h.opn xid) hl
        exact ⟨td, hm, htd.trans hr⟩
      by_cases hq : Dequeues (v.opn xid) drid
      · have hlock : l.lock = true := by rw [hflag]; simp [hq]
        have herr : m.lockTarget drid xid = .error .alreadyLockedError := by
          simp only [lockTarget, EnqMap.lock_absent hlk, findRid_eq ho', hfind, Option.map_some,
            hlock, if_true]
        rw [herr]
        refine ⟨⟨?_, ?_⟩, ?_⟩
        · rintro ⟨m', hm'⟩
          cases hm'
        · rintro ⟨-, hown⟩
          exact (hown rfl htarget hq).elim
        · intro m' hm'
          cases hm'
      · have hlock : l.lock = false := by rw [hflag]; simp [hq]
        have hok : m.lockTarget drid xid =
            .ok { m with map := m.map.modify xid (lockEntry drid) } := by
          simp only [lockTarget, EnqMap.lock_absent hlk, findRid_eq ho', hfind, Option.map_some,
            hlock, Bool.false_eq_true, if_false]
        rw [hok]
        refine ⟨⟨?_, ?_⟩, ?_⟩
        · intro _
          refine ⟨?_, fun _ _ => hq⟩
          intro d hd
          cases hd
        · intro _
          exact ⟨_, rfl⟩
        · intro m' hm'
          cases hm'
          refine ⟨h.enq, ?_, ?_⟩
          · intro x
            simp only [get, mapGet_modify]
            split
            · rename_i hx
              rw [hx]
              cases m.map[xid]? <;> rfl
            · rfl
          · intro x
            simp only [mapGet_modify]
            split
            · intro hx
              obtain ⟨ls, hls, hemp⟩ := Option.map_eq_some_iff.mp hx
              apply h.nonempty x
              rw [hls]
              cases ls with
              | nil => rfl
              | cons a ls =>
                unfold lockEntry at hemp
                split at hemp <;> cases hemp
            · exact h.nonempty x

end TxnMap

theorem dequeues_push {xid x : Xid} {td : TxnData} {r : Nat} :
    Dequeues ((v.push xid td).opn x) r ↔
      Dequeues (v.opn x) r ∨ x = xid ∧ td.enqFlag = false ∧ td.drid = r := by
  constructor
  · rintro ⟨a, hm, ha⟩
    rcases View.mem_push hm with hm | ⟨hx, rfl⟩
    · exact Or.inl ⟨a, hm, ha⟩
    · exact Or.inr ⟨hx, ha⟩
  · rintro (⟨a, hm, ha⟩ | ⟨rfl, ha⟩)
    · exact ⟨a, View.mem_push_of_mem hm, ha⟩
    · exact ⟨td, View.mem_push_self _ _, ha⟩

/-- One more operation of a transaction. -/
theorem Reads.append {xid : Xid} {td : TxnData} {hdr : JRec} (hx : hdr.xid = xid)
    (hop : hdr.op = some td.op) (henq : ∀ r, m.emap.lockOf r = (v.enq r).map (·.lock))
    (hopn : ∀ x, List.Forall₂ Entry.Names (m.get x) (v.opn x))
    (hne : ∀ x : Xid, m.map[x]? ≠ some [])
    (hflag : ∀ x, ∀ l ∈ m.get x, l.lock = decide (Dequeues ((v.push xid td).opn x) l.hdr.rid))
    (hself : ¬Dequeues ((v.push xid td).opn xid) td.rid) (fid : Nat) :
    Reads (m.append fid hdr) (v.push xid td) := by
  subst hx
  have hnames : Entry.Names ⟨fid, hdr, false⟩ td := hop
  refine ⟨henq, ?_, TxnMap.append_nonempty hne fid hdr, ?_⟩
  · intro x
    rw [TxnMap.get_append]
    by_cases hx : x = hdr.xid
    · subst hx
      simp only [if_true, View.push, Function.update_self]
      exact List.rel_append (hopn _) (List.Forall₂.cons hnames List.Forall₂.nil)
    · simp only [hx, if_false, View.push, Function.update_of_ne hx]
      exact hopn x
  · intro x l hl
    rw [TxnMap.get_append] at hl
    split at hl
    · rename_i hx
      rcases List.mem_append.mp hl with hl | hl
      · exact hflag x l hl
      · rw [List.mem_singleton] at hl
        subst hl
        have hr : hdr.rid = td.rid := hnames.rid
        rw [hx, hr]
        simp [hself]
    · exact hflag x l hl

/-- The enqueued records change, no operation does. -/
theorem Reads.emap (h : Reads m v) {emap : EnqMap} {enq : Nat → Option EmapData}
    (he : ∀ r, emap.lockOf r = (enq r).map (·.lock)) :
    Reads { m with emap := emap } { v with enq := enq } :=
  ⟨he, h.opn, h.nonempty, h.flag⟩

/-- A transaction ends. -/
theorem Reads.close (h : Reads m v) {emap : EnqMap} {w : View} {xid : Xid}
    (he : ∀ r, emap.lockOf r = (w.enq r).map (·.lock)) (ho : w.opn = (v.close xid).opn) :
    Reads ⟨emap, m.map.erase xid⟩ w := by
  have hget : ∀ x, TxnMap.get ⟨emap, m.map.erase xid⟩ x = if x = xid then [] else m.get x := by
    intro x
    simp only [TxnMap.get, mapGet_erase]
    split <;> rfl
  refine ⟨he, ?_, ?_, ?_⟩
  · intro x
    rw [hget, ho]
    split
    · rename_i hx
      subst hx
      simp only [View.close, Function.update_self]
      exact List.Forall₂.nil
    · rename_i hx
      simp only [View.close, Function.update_of_ne hx]
      exact h.opn x
  · intro x
    simp only [mapGet_erase]
    split
    · intro hx
      cases hx
    · exact h.nonempty x
  · intro x l hl
    rw [hget] at hl
    split at hl
    · cases hl
    · rename_i hx
      rw [ho]
      simp only [View.close, Function.update_of_ne hx]
      exact h.flag x l hl

/-- A transaction that is not in the map has no operations. -/
theorem Reads.absent (h : Reads m v) {xid : Xid} (hx : m.contains xid = false) :
    v.opn xid = [] ∧ Reads m (v.close xid) := by
  have hno : m.map[xid]? = none := by
    cases hm : m.map[xid]? with
    | none => rfl
    | some ls =>
      rw [TxnMap.contains, hm] at hx
      cases hx
  have hget : m.get xid = [] := by simp [TxnMap.get, hno]
  have hopn : v.opn xid = [] := by
    have := h.opn xid
    rw [hget, List.forall₂_nil_left_iff] at this
    exact this
  refine ⟨hopn, ?_⟩
  have hsame : v.close xid = v := by
    ext1
    · rfl
    · funext x
      by_cases hxx : x = xid
      · subst hxx
        simp [View.close, hopn]
      · simp [View.close, hxx]
  rw [hsame]
  exact h

theorem reads_commit (h : Reads m v) (hv : v.Ordered) (hf : v.FromLog log) (hn : (rids log).Nodup)
    (xid : Xid) : ∃ m' miss, m.commit xid = .ok (m', miss) ∧
      Reads m' ((v.opn xid).foldl View.commitEntry (v.close xid)) := by
  have hlock : ∀ r, m.emap.lockOf r =
      ((v.close xid).enq r).map fun d => d.lock || decide (Dequeues (v.opn xid) r) := by
    intro r
    rw [h.enq]
    change _ = (v.enq r).map _
    cases hr : v.enq r with
    | none => rfl
    | some d =>
      -- what an open dequeue names is locked
      simp only [Option.map_some, Option.some.injEq]
      by_cases hq : Dequeues (v.opn xid) r
      · obtain ⟨td, hm, he, rfl⟩ := hq
        rw [hv.holder xid td d hm he hr]
        rfl
      · simp [hq]
  obtain ⟨emap', miss, hok, hlk⟩ := TxnMap.foldlM_commitEntry (h.opn xid) [] hlock (h.flag xid)
    (fun td hm he => hf.fresh xid td hm he) (hf.nodup_opn hn xid) (hv.order xid)
  refine ⟨⟨emap', m.map.erase xid⟩, miss, ?_, ?_⟩
  · simp only [TxnMap.commit, hok]
    rfl
  · exact h.close hlk (View.opn_foldl View.opn_commitEntry _ _)

theorem reads_abort (h : Reads m v) (hv : v.Ordered) (hf : v.FromLog log) (hn : (rids log).Nodup)
    (xid : Xid) :
    ((∃ m', m.abort xid = .ok m') ↔
      ∀ td ∈ v.opn xid, td.enqFlag = false → (v.enq td.drid).isSome) ∧
    ∀ m', m.abort xid = .ok m' → Reads m' (v.abort xid) := by
  have hfinds : ∀ emap', (m.get xid).foldlM TxnMap.abortEntry m.emap = .ok emap' →
      ∀ td ∈ v.opn xid, td.enqFlag = false → (v.enq td.drid).isSome := by
    intro emap' hok td hm he
    have hne := TxnMap.foldlM_abortEntry_finds (h.opn xid) hok td hm he
    rw [h.enq] at hne
    cases hr : v.enq td.drid with
    | none => exact (hne (by rw [hr]; rfl)).elim
    | some d => rfl
  have hall : (∀ td ∈ v.opn xid, td.enqFlag = false → (v.enq td.drid).isSome) →
      ∃ emap', (m.get xid).foldlM TxnMap.abortEntry m.emap = .ok emap' ∧
        Reads ⟨emap', m.map.erase xid⟩ (v.abort xid) := by
    intro hs
    have hlock : ∀ td ∈ v.opn xid, td.enqFlag = false → m.emap.lockOf td.drid = some true := by
      intro td hm he
      obtain ⟨d, hd⟩ := Option.isSome_iff_exists.mp (hs td hm he)
      rw [h.enq, hd]
      exact congrArg some (hv.holder xid td d hm he hd)
    have honce : (v.opn xid).Pairwise fun a b =>
        a.enqFlag = false → b.enqFlag = false → a.drid ≠ b.drid := by
      have hnd := hf.nodup_opn hn xid
      rw [List.nodup_iff_pairwise_ne, List.pairwise_map] at hnd
      apply hnd.imp_of_mem
      intro a b ha hb hne hea heb heq
      have hab := (hv.unique xid xid a b ha hb hea heb heq (hs a ha hea)).2
      exact hne (congrArg TxnData.rid hab)
    obtain ⟨emap', hok, hlk⟩ := TxnMap.foldlM_abortEntry (h.opn xid) hlock honce
    refine ⟨emap', hok, h.close ?_ (View.opn_foldl View.opn_abortEntry _ _)⟩
    intro r
    rw [hlk]
    have henq := View.enq_foldl_abort (v.opn xid) (v.close xid) r
    change _ = (((v.opn xid).foldl View.abortEntry (v.close xid)).enq r).map _
    split
    · rename_i hq
      rw [henq.1 hq]
      obtain ⟨td, hm, he, rfl⟩ := hq
      obtain ⟨d, hd⟩ := Option.isSome_iff_exists.mp (hs td hm he)
      rw [show (v.close xid).enq td.drid = some d from hd]
      rfl
    · rename_i hq
      rw [henq.2 hq, h.enq]
      rfl
  refine ⟨⟨?_, ?_⟩, ?_⟩
  · rintro ⟨m', hm'⟩
    cases hok : (m.get xid).foldlM TxnMap.abortEntry m.emap with
    | error e =>
      simp only [TxnMap.abort, hok] at hm'
      cases hm'
    | ok emap' => exact hfinds emap' hok
  · intro hs
    obtain ⟨emap', hok, -⟩ := hall hs
    refine ⟨⟨emap', m.map.erase xid⟩, ?_⟩
    simp only [TxnMap.abort, hok]
    rfl
  · intro m' hm'
    cases hok : (m.get xid).foldlM TxnMap.abortEntry m.emap with
    | error e =>
      simp only [TxnMap.abort, hok] at hm'
      cases hm'
    | ok emap' =>
      obtain ⟨emap₁, hok₁, hr⟩ := hall (hfinds emap' hok)
      rw [hok] at hok₁
      cases hok₁
      simp only [TxnMap.abort, hok] at hm'
      cases hm'
      exact hr

end Janal

end RhmStore
