import RhmStore.Lib.MapWeight
import RhmStore.Tools.Analyzed
import RhmStore.Tools.Found

/-! # What `resize` writes, the store reads -/

namespace RhmStore

/-! ## The records -/

theorem uflag_clearOwi (u : UInt16) : (u &&& ~~~1) &&& 0x20 = u &&& 0x20 ∧ (u &&& ~~~1) &&& 1 = 0 := by
  have hmask : (~~~1 : UInt16) &&& 0x20 = 0x20 := by decide
  have hzero : (~~~1 : UInt16) &&& 1 = 0 := by decide
  rw [UInt16.and_assoc, UInt16.and_assoc, hmask, hzero]
  exact ⟨rfl, UInt16.and_zero⟩

namespace StoredRec

theorem isExternal_clearOwi (r : EnqRec) :
    EnqRec.isExternal { r with enqHdr.uflag := r.enqHdr.uflag &&& ~~~1 } = r.isExternal := by
  show decide ((r.enqHdr.uflag &&& ~~~1) &&& 0x20 ≠ 0) = decide (r.enqHdr.uflag &&& 0x20 ≠ 0)
  rw [(uflag_clearOwi _).1]

theorem storedData_clearOwi (r : EnqRec) :
    EnqRec.storedData { r with enqHdr.uflag := r.enqHdr.uflag &&& ~~~1 } = r.storedData := by
  unfold EnqRec.storedData
  rw [isExternal_clearOwi]
  rfl

theorem getOwi_clearOwi (s : StoredRec) : s.clearOwi.hdr.getOwi = false := by
  have hz : ∀ u : UInt16, decide ((u &&& ~~~1) &&& 1 ≠ 0) = false := by
    intro u
    rw [(uflag_clearOwi u).2]
    rfl
  cases s <;> exact hz _

theorem Made.clearOwi {s : StoredRec} (h : s.Made) : s.clearOwi.Made := by
  cases s with
  | enq r =>
    have hm : r.Made := h
    constructor
    · constructor
      · exact hm.stored.xid
      · intro he
        rw [isExternal_clearOwi] at he
        exact hm.stored.data he
      · rw [isExternal_clearOwi]
        exact hm.stored.small
    · exact hm.magic
    · exact hm.version
    · exact hm.eflag
    · exact hm.tail
  | deq r => exact ⟨⟨h.1.xid, h.1.magic, h.1.version, h.1.eflag, h.1.tail⟩, h.2⟩
  | txn r => exact ⟨⟨h.1.xid, h.1.nonempty, h.1.magic, h.1.version, h.1.eflag, h.1.tail⟩, h.2⟩

theorem length_clearOwi {s : StoredRec} (h : s.Made) : s.clearOwi.image.length = s.image.length := by
  cases s with
  | enq r =>
    have hl : (StoredRec.enq r).image.length = _ := h.stored.image_length
    have hl' : (StoredRec.enq r).clearOwi.image.length = _ := h.clearOwi.stored.image_length
    rw [hl, hl', isExternal_clearOwi]
    rfl
  | deq r =>
    have hl : (StoredRec.deq r).image.length = _ := DeqRec.image_length h.1
    exact (DeqRec.image_length h.clearOwi.1).trans hl.symm
  | txn r =>
    have hl : (StoredRec.txn r).image.length = _ := TxnRec.image_length h.1
    exact (TxnRec.image_length h.clearOwi.1).trans hl.symm

end StoredRec

namespace Jrnl

open Body (whole)

def EnqRec.ofStore (r : RhmStore.EnqRec) : EnqRec :=
  ⟨.ofStore r.enqHdr.toRecHdr, r.enqHdr.xidsize, r.enqHdr.dsize,
    whole r.xidBytes r.storedData r.enqTail.bytes true⟩

/-- The entry of a transaction record in `txn_obj_list`. -/
def TxnRec.item (r : RhmStore.TxnRec) : Bytes × TxnRec :=
  (r.xidBytes, ⟨.ofStore r.txnHdr.toRecHdr, r.txnHdr.xidsize, whole r.xidBytes [] r.txnTail.bytes false⟩)

namespace Rec

theorem clearOwi_ofStored (s : StoredRec) : (ofStored s).clearOwi = ofStored s.clearOwi := by
  cases s with
  | enq r =>
    rw [StoredRec.clearOwi, ofStored, ofStored, StoredRec.storedData_clearOwi]
    rfl
  | deq r => rfl
  | txn r => rfl

theorem rid_ofStored (s : StoredRec) : (ofStored s).hdr.rid = s.hdr.rid := by
  cases s <;> rfl

end Rec

/-- The records that are to be transferred: those of `emap` with the commits of their transactions, and
those of `tmap`. -/
def Kept (enqs : List RhmStore.EnqRec) (txns : List RhmStore.TxnRec) (held : List (List StoredRec))
    (s : StoredRec) : Prop :=
  (∃ r ∈ enqs, s = .enq r) ∨
    (∃ t ∈ txns, s = .txn t ∧ ∃ r ∈ enqs, 0 < r.xidsize ∧ t.xidBytes = r.xidBytes) ∨ s ∈ held.flatten

/-- The entry of a record in `master_record_list`. -/
def entry (s : StoredRec) : Nat × Rec := (s.hdr.rid.toNat, .ofStored s.clearOwi)

/-- The entries that the records of `emap` put in. -/
def enqEntries : List RhmStore.EnqRec → List RhmStore.TxnRec → List (Nat × Rec)
  | [], _ => []
  | r :: enqs, txns =>
    entry (.enq r) :: ((txns.filter fun t => 0 < r.xidsize ∧ t.xidBytes = r.xidBytes).map fun t => entry (.txn t)) ++
      enqEntries enqs (txns.filter fun t => ¬(0 < r.xidsize ∧ t.xidBytes = r.xidBytes))

theorem lookup_item {txns : List RhmStore.TxnRec} (hx : (txns.map RhmStore.TxnRec.xidBytes).Nodup) (x : Bytes) :
    (txns.filter (·.xidBytes = x) = [] ∧ (txns.map TxnRec.item).lookup x = none) ∨
      ∃ t, txns.filter (·.xidBytes = x) = [t] ∧ (txns.map TxnRec.item).lookup x = some (TxnRec.item t).2 := by
  induction txns with
  | nil => exact .inl ⟨rfl, rfl⟩
  | cons t txns ih =>
    rw [List.map_cons, List.nodup_cons] at hx
    by_cases h : t.xidBytes = x
    · right
      have hno : txns.filter (·.xidBytes = x) = [] := by
        rw [List.filter_eq_nil_iff]
        intro u hu hux
        have heq : u.xidBytes = t.xidBytes := (of_decide_eq_true hux).trans h.symm
        exact hx.1 (by rw [← heq]; exact List.mem_map_of_mem hu)
      have hkey : (x == (TxnRec.item t).1) = true := beq_iff_eq.mpr h.symm
      refine ⟨t, ?_, ?_⟩
      · rw [List.filter_cons, if_pos (decide_eq_true h), hno]
      · rw [List.map_cons, List.lookup_cons, hkey]
    · have hkey : (x == (TxnRec.item t).1) = false := beq_eq_false_iff_ne.mpr (Ne.symm h)
      have hd : ¬decide (t.xidBytes = x) = true := by rw [decide_eq_true_iff]; exact h
      rw [List.filter_cons, if_neg hd, List.map_cons, List.lookup_cons, hkey]
      exact ih hx.2

theorem addEnq_ofStore {r : RhmStore.EnqRec} (hr : r.Made) {txns : List RhmStore.TxnRec}
    (hx : (txns.map RhmStore.TxnRec.xidBytes).Nodup) (m : MasterRecordList) :
    addEnq (m, txns.map TxnRec.item) (.ofStore r) =
      ((entry (.enq r) :: ((txns.filter fun t => 0 < r.xidsize ∧ t.xidBytes = r.xidBytes).map fun t =>
          entry (.txn t))).foldl (fun m e => m.insert e.1 e.2) m,
        (txns.filter fun t => ¬(0 < r.xidsize ∧ t.xidBytes = r.xidBytes)).map TxnRec.item) := by
  have hm : m.insert (EnqRec.ofStore r).hdr.rid.toNat (Rec.enq (.ofStore r)).clearOwi =
      m.insert (entry (.enq r)).1 (entry (.enq r)).2 :=
    congrArg (m.insert _) (Rec.clearOwi_ofStored (.enq r))
  have hxs : (EnqRec.ofStore r).xidsize > 0 ↔ 0 < r.xidsize := UInt64.lt_iff_toNat_lt
  rw [addEnq, hm]
  by_cases h0 : 0 < r.xidsize
  · have hbx : (EnqRec.ofStore r).body.xid = some r.xidBytes := by
      apply if_neg
      intro hnil
      rw [← hr.stored.xid, hnil] at h0
      exact absurd h0 (Nat.lt_irrefl 0)
    simp only [if_pos (hxs.mpr h0), hbx, Option.bind_some, h0, true_and]
    rcases lookup_item hx r.xidBytes with ⟨hno, hl⟩ | ⟨t, hone, hl⟩
    · have hall : (txns.filter fun t => ¬t.xidBytes = r.xidBytes) = txns := by
        rw [List.filter_eq_self]
        intro t ht
        rw [List.filter_eq_nil_iff] at hno
        exact decide_eq_true fun heq => hno t ht (decide_eq_true heq)
      simp only [hl, hno, hall]
      rfl
    · have hrest : ((txns.map TxnRec.item).filter fun e => some e.1 ≠ some r.xidBytes) =
          (txns.filter fun t => ¬t.xidBytes = r.xidBytes).map TxnRec.item := by
        rw [List.filter_map]
        congr 1
        apply List.filter_congr
        intro t _
        have hiff : some (TxnRec.item t).1 ≠ some r.xidBytes ↔ ¬t.xidBytes = r.xidBytes := by
          rw [ne_eq, Option.some_inj]
          rfl
        exact decide_eq_decide.mpr hiff
      simp only [hl, hone, hrest]
      rw [Prod.mk.injEq]
      refine ⟨?_, rfl⟩
      exact congrArg (fun v => Std.ExtTreeMap.insert _ t.txnHdr.rid.toNat v) (Rec.clearOwi_ofStored (.txn t))
  · simp only [if_neg (fun hf => h0 (hxs.mp hf)), h0, false_and, not_false_eq_true, decide_true, decide_false,
      List.filter_true, List.filter_false]
    rfl

theorem foldl_addEnq {enqs : List RhmStore.EnqRec} (hr : ∀ r ∈ enqs, r.Made) {txns : List RhmStore.TxnRec}
    (hx : (txns.map RhmStore.TxnRec.xidBytes).Nodup) (m : MasterRecordList) :
    ((enqs.map EnqRec.ofStore).foldl addEnq (m, txns.map TxnRec.item)).1 =
      (enqEntries enqs txns).foldl (fun m e => m.insert e.1 e.2) m := by
  induction enqs generalizing txns m with
  | nil => rfl
  | cons r enqs ih =>
    have hx' : ((txns.filter fun t => ¬(0 < r.xidsize ∧ t.xidBytes = r.xidBytes)).map
        RhmStore.TxnRec.xidBytes).Nodup := hx.sublist (List.filter_sublist.map _)
    rw [List.map_cons, List.foldl_cons, addEnq_ofStore (hr r List.mem_cons_self) hx,
      ih (fun q hq => hr q (List.mem_cons_of_mem _ hq)) hx', enqEntries, List.foldl_append]

theorem mem_enqEntries {enqs : List RhmStore.EnqRec} {txns : List RhmStore.TxnRec} {e : Nat × Rec} :
    e ∈ enqEntries enqs txns ↔ ∃ s, e = entry s ∧ Kept enqs txns [] s := by
  induction enqs generalizing txns with
  | nil => simp [enqEntries, Kept]
  | cons r enqs ih =>
    rw [enqEntries, List.cons_append, List.mem_cons, List.mem_append, ih]
    constructor
    · rintro (rfl | hc | ⟨s, rfl, hs⟩)
      · exact ⟨_, rfl, .inl ⟨r, List.mem_cons_self, rfl⟩⟩
      · obtain ⟨t, ht, rfl⟩ := List.mem_map.mp hc
        obtain ⟨ht, hp⟩ := List.mem_filter.mp ht
        exact ⟨_, rfl, .inr (.inl ⟨t, ht, rfl, r, List.mem_cons_self, of_decide_eq_true hp⟩)⟩
      · refine ⟨s, rfl, ?_⟩
        rcases hs with ⟨q, hq, rfl⟩ | ⟨t, ht, rfl, q, hq, hp⟩ | hs
        · exact .inl ⟨q, List.mem_cons_of_mem _ hq, rfl⟩
        · exact .inr (.inl ⟨t, (List.mem_filter.mp ht).1, rfl, q, List.mem_cons_of_mem _ hq, hp⟩)
        · cases hs
    · rintro ⟨s, rfl, hs⟩
      rcases hs with ⟨q, hq, rfl⟩ | ⟨t, ht, rfl, q, hq, hp⟩ | hs
      · rcases List.mem_cons.mp hq with rfl | hq
        · exact .inl rfl
        · exact .inr (.inr ⟨_, rfl, .inl ⟨q, hq, rfl⟩⟩)
      · by_cases hr : 0 < r.xidsize ∧ t.xidBytes = r.xidBytes
        · exact .inr (.inl (List.mem_map.mpr ⟨t, List.mem_filter.mpr ⟨ht, decide_eq_true hr⟩, rfl⟩))
        · rcases List.mem_cons.mp hq with rfl | hq
          · exact absurd hp hr
          · refine .inr (.inr ⟨_, rfl, .inr (.inl ⟨t, ?_, rfl, q, hq, hp⟩)⟩)
            exact List.mem_filter.mpr ⟨ht, decide_eq_true hr⟩
      · cases hs

theorem masterRecordList_get {enqs : List RhmStore.EnqRec} {txns : List RhmStore.TxnRec}
    {held : List (List StoredRec)} (hr : ∀ r ∈ enqs, r.Made)
    (hx : (txns.map RhmStore.TxnRec.xidBytes).Nodup)
    (hrid : ∀ a b, Kept enqs txns held a → Kept enqs txns held b → a.hdr.rid = b.hdr.rid → a = b)
    (k : Nat) (v : Rec) :
    (masterRecordList (enqs.map .ofStore) (txns.map TxnRec.item) (held.map (·.map .ofStored)))[k]? = some v ↔
      ∃ s, (k, v) = entry s ∧ Kept enqs txns held s := by
  have hheld : ∀ m : MasterRecordList, (held.map (·.map Rec.ofStored)).flatten.foldl
      (fun master hdr => master.insert hdr.hdr.rid.toNat hdr.clearOwi) m =
      (held.flatten.map entry).foldl (fun m e => m.insert e.1 e.2) m := by
    intro m
    rw [← List.map_flatten, List.foldl_map, List.foldl_map]
    simp only [Rec.clearOwi_ofStored, Rec.rid_ofStored]
    rfl
  have hmem : ∀ e : Nat × Rec, e ∈ enqEntries enqs txns ++ held.flatten.map entry ↔
      ∃ s, e = entry s ∧ Kept enqs txns held s := by
    intro e
    rw [List.mem_append, mem_enqEntries]
    constructor
    · rintro (⟨s, rfl, hs⟩ | hs)
      · refine ⟨s, rfl, ?_⟩
        rcases hs with hs | hs | hs
        · exact .inl hs
        · exact .inr (.inl hs)
        · cases hs
      · obtain ⟨s, hmem, rfl⟩ := List.mem_map.mp hs
        exact ⟨s, rfl, .inr (.inr hmem)⟩
    · rintro ⟨s, rfl, hs⟩
      rcases hs with hs | hs | hs
      · exact .inl ⟨s, rfl, .inl hs⟩
      · exact .inl ⟨s, rfl, .inr (.inl hs)⟩
      · exact .inr (List.mem_map_of_mem hs)
  have hfun : ∀ a ∈ enqEntries enqs txns ++ held.flatten.map entry,
      ∀ b ∈ enqEntries enqs txns ++ held.flatten.map entry, a.1 = b.1 → a.2 = b.2 := by
    intro a ha b hb hab
    obtain ⟨s, rfl, hs⟩ := (hmem a).mp ha
    obtain ⟨u, rfl, hu⟩ := (hmem b).mp hb
    rw [hrid s u hs hu (UInt64.toNat_inj.mp hab)]
  rw [masterRecordList, foldl_addEnq hr hx, hheld, ← List.foldl_append, mapGet_foldl_insert hfun, hmem]
  simp

theorem exists_map_eq {α β : Type} {f : α → β} {P : α → Prop} {l : List β}
    (h : ∀ b ∈ l, ∃ a, b = f a ∧ P a) : ∃ as : List α, l = as.map f ∧ ∀ a ∈ as, P a := by
  induction l with
  | nil => exact ⟨[], rfl, fun a ha => by cases ha⟩
  | cons b l ih =>
    obtain ⟨a, rfl, ha⟩ := h b List.mem_cons_self
    obtain ⟨as, rfl, has⟩ := ih fun c hc => h c (List.mem_cons_of_mem _ hc)
    refine ⟨a :: as, rfl, fun c hc => ?_⟩
    rcases List.mem_cons.mp hc with rfl | hc
    · exact ha
    · exact has c hc

theorem masterRecordList_toList {enqs : List RhmStore.EnqRec} {txns : List RhmStore.TxnRec}
    {held : List (List StoredRec)} (hr : ∀ r ∈ enqs, r.Made)
    (hx : (txns.map RhmStore.TxnRec.xidBytes).Nodup)
    (hrid : ∀ a b, Kept enqs txns held a → Kept enqs txns held b → a.hdr.rid = b.hdr.rid → a = b) :
    ∃ recs : List StoredRec,
      (masterRecordList (enqs.map .ofStore) (txns.map TxnRec.item) (held.map (·.map .ofStored))).toList =
        recs.map entry ∧ (∀ s, s ∈ recs ↔ Kept enqs txns held s) ∧
      recs.Pairwise (fun a b => a.hdr.rid < b.hdr.rid) := by
  have hget := masterRecordList_get hr hx hrid
  obtain ⟨recs, hlist, hkept⟩ := exists_map_eq (f := entry) (P := Kept enqs txns held)
    (l := (masterRecordList (enqs.map .ofStore) (txns.map TxnRec.item)
      (held.map (·.map .ofStored))).toList) fun e he =>
    (hget e.1 e.2).mp (Std.ExtTreeMap.mem_toList_iff_getElem?_eq_some.mp he)
  refine ⟨recs, hlist, fun s => ⟨hkept s, fun hs => ?_⟩, ?_⟩
  · have hmem : entry s ∈ recs.map entry := by
      rw [← hlist]
      exact Std.ExtTreeMap.mem_toList_iff_getElem?_eq_some.mpr ((hget _ _).mpr ⟨s, rfl, hs⟩)
    obtain ⟨u, hu, heq⟩ := List.mem_map.mp hmem
    have hsame := hrid u s (hkept u hu) hs (UInt64.toNat_inj.mp (congrArg Prod.fst heq))
    rw [← hsame]
    exact hu
  · have hord := Std.ExtTreeMap.ordered_keys_toList (t := masterRecordList (enqs.map .ofStore)
      (txns.map TxnRec.item) (held.map (·.map .ofStored)))
    rw [hlist, List.pairwise_map] at hord
    exact hord.imp fun h => UInt64.lt_iff_toNat_lt.mpr (Nat.compare_eq_lt.mp h)

/-! ## What the tools write -/

/-- The tools have a rule of their own for the tail of a record, and none for external data. -/
def Encodable : StoredRec → Prop
  | .enq r => ¬(r.xidsize = 0 ∧ r.dsize = 0) ∧ ¬(r.isExternal = true ∧ 0 < r.dsize)
  | _ => True

theorem encode_iff {s : StoredRec} (h : s.Made) : (Rec.ofStored s).encode = .ok s.image ↔ Encodable s := by
  cases s with
  | enq r => exact Rec.encode_enq_iff h
  | deq r => exact iff_of_true (Rec.encode_deq h.1) trivial
  | txn r => exact iff_of_true (Rec.encode_txn h.1) trivial

theorem encodable_clearOwi (s : StoredRec) : Encodable s.clearOwi ↔ Encodable s := by
  cases s with
  | enq r =>
    show ¬_ ∧ ¬(_ ∧ _) ↔ ¬_ ∧ ¬(_ ∧ _)
    rw [StoredRec.isExternal_clearOwi]
    rfl
  | deq r => exact Iff.rfl
  | txn r => exact Iff.rfl

/-- The tools load the record, wherever the store has written it, and write it as the store encodes it. -/
def Rewritten (s : StoredRec) : Prop :=
  ∀ (jrnlFileSize : Nat) (f : File) (files : List Bytes), Placed jrnlFileSize s.image f files →
    ∃ p, Rec.next jrnlFileSize f files = .ok (some p) ∧
      ∀ m, 0 < m → s.recSizeDblks ≤ m → ∃ b n, s.encode 0 m = .ok (b, n) ∧ p.encode = .ok b

theorem exists_placed (b : Bytes) : ∃ jrnlFileSize f, Placed jrnlFileSize b f [] := by
  refine ⟨128 * (sizeDblks b.length + 5),
    ⟨List.replicate 512 0 ++ (padded b ++ List.replicate 128 0), 512⟩, ?_⟩
  have hrest : File.rest ⟨List.replicate 512 0 ++ (padded b ++ List.replicate 128 0), 512⟩ =
      padded b ++ List.replicate 128 0 := List.drop_left' List.length_replicate
  constructor
  · show 512 ≤ _
    omega
  · exact Nat.dvd_mul_right _ _
  · constructor
    · simp only [List.length_append, List.length_replicate, length_padded]
      omega
    · show 512 ≤ _
      omega
  · exact (by decide : 128 ∣ 512)
  · show 512 < _
    omega
  · intro g hg
    cases hg
  · rw [hrest, padded, List.append_assoc, List.append_assoc]
    exact List.prefix_append _ _

theorem rewritten_iff {s : StoredRec} (h : s.Made) : Rewritten s ↔ Encodable s := by
  rw [← encode_iff h]
  constructor
  · intro hall
    obtain ⟨size, f, hp⟩ := exists_placed s.image
    obtain ⟨p, hnext, henc⟩ := hall size f [] hp
    rw [Rec.next_ofStored h hp] at hnext
    cases hnext
    obtain ⟨b, n, hb, hp⟩ := henc (s.recSizeDblks + 1) (Nat.succ_pos _) (Nat.le_succ _)
    rw [StoredRec.encode_image h (Nat.succ_pos _) (Nat.le_succ _)] at hb
    cases hb
    exact hp
  · intro henc size f files hp
    refine ⟨_, Rec.next_ofStored h hp, fun m hm hle => ?_⟩
    exact ⟨s.image, _, StoredRec.encode_image h hm hle, henc⟩

/-- `jinf::analyze` finds no header in the new files, and there are no records, or it starts the recovery
with file 0. -/
def Analyzable (i : JrnlInfo) (files : List Bytes) (recs : List StoredRec) : Prop :=
  ∀ ji : Jinf, ji.validate = .ok () → ji.numJfiles = files.length → ji.jfsizeSblks = i.jrnlDataSizeSblks →
    recs = [] ∧ ji.analyze (fun k => files[k]?.map .ofBytes) = .error .jdatEmpty ∨
      ∃ a, ji.analyze (fun k => files[k]?.map .ofBytes) = .ok a ∧ a.firstPfid = some 0 ∧ a.initialOwi = false

/-- What `resize` puts into new files recovery finds: the same rids and headers, without the overwrite
indicator, the same xids, and the bytes of the records with their data. -/
def Transferred (enqs : List RhmStore.EnqRec) (txns : List RhmStore.TxnRec) (held : List (List StoredRec)) :
    Prop :=
  ∀ (i : JrnlInfo) (time : Nat → Nat × Nat) (files : List Bytes), 0 < i.jrnlDataSizeSblks →
    Resize.createNewFiles i time (enqs.map .ofStore) (txns.map TxnRec.item) (held.map (·.map .ofStored)) =
      .ok files →
    ∃ recs : List StoredRec, (∀ s, s ∈ recs ↔ Kept enqs txns held s) ∧
      recs.Pairwise (fun a b => a.hdr.rid < b.hdr.rid) ∧
      (recs.map fun s => padded s.clearOwi.image).flatten <+: Rec.following files ∧
      Analyzable i files recs ∧
      ∀ fuel, recs.length + 3 < fuel → ∃ found, rcvrJanalyze fuel files = .ok found ∧
        List.Forall₂ StoredRec.FoundAs found (recs.map StoredRec.clearOwi)

theorem transferred {enqs : List RhmStore.EnqRec} {txns : List RhmStore.TxnRec} {held : List (List StoredRec)}
    (hmade : ∀ s, Kept enqs txns held s → s.Made) (hx : (txns.map RhmStore.TxnRec.xidBytes).Nodup)
    (hrid : ∀ a b, Kept enqs txns held a → Kept enqs txns held b → a.hdr.rid = b.hdr.rid → a = b)
    (henc : ∀ s, Kept enqs txns held s → Encodable s)
    (hfit : ∀ s, Kept enqs txns held s → BoundaryFits s.image.length) : Transferred enqs txns held := by
  intro i time files hi hok
  have hr : ∀ r ∈ enqs, r.Made := fun r hr => hmade (.enq r) (.inl ⟨r, hr, rfl⟩)
  obtain ⟨recs, hlist, hkept, hord⟩ := masterRecordList_toList hr hx hrid
  refine ⟨recs, hkept, hord, ?_⟩
  have hd : 0 < i.jrnlDataSizeBytes := Nat.mul_pos hi (by decide)
  have hcleared : ∀ s ∈ recs, s.clearOwi.Made ∧ s.clearOwi.hdr.getOwi = false ∧
      BoundaryFits s.clearOwi.image.length := by
    intro s hs
    have hm := hmade s ((hkept s).mp hs)
    refine ⟨hm.clearOwi, StoredRec.getOwi_clearOwi s, ?_⟩
    rw [StoredRec.length_clearOwi hm]
    exact hfit s ((hkept s).mp hs)
  have hencs : (masterRecordList (enqs.map .ofStore) (txns.map TxnRec.item)
      (held.map (·.map .ofStored))).toList.map (·.2.encode) =
        (recs.map fun s => s.clearOwi.image).map .ok := by
    rw [hlist, List.map_map, List.map_map]
    apply List.map_congr_left
    intro s hs
    exact (encode_iff (hcleared s hs).1).mpr ((encodable_clearOwi s).mpr (henc s ((hkept s).mp hs)))
  have hne : ∀ b ∈ recs.map fun s => s.clearOwi.image, b ≠ [] := by
    intro b hb hnil
    obtain ⟨s, hs, rfl⟩ := List.mem_map.mp hb
    have hpos := (hcleared s hs).1.image_pos
    rw [hnil] at hpos
    exact absurd hpos (Nat.lt_irrefl 0)
  obtain ⟨s, n, m, hlay⟩ := Resize.createNewFiles_layout hd hencs hne hok
  have hmap : (recs.map fun s => s.clearOwi.image).map padded = recs.map fun s => padded s.clearOwi.image :=
    List.map_map
  obtain ⟨blanks, hfiles, hblank⟩ := hlay.blanks
  refine ⟨?_, ?_, ?_⟩
  · rw [hfiles, Resize.following_append, hlay.holds.data, hmap, List.append_assoc]
    exact List.prefix_append _ _
  · intro ji hv hnum hsize
    have hana := hlay.analyze hv hnum hsize
    by_cases hnil : s.files = []
    · rw [if_pos hnil] at hana
      refine .inl ⟨?_, hana⟩
      -- an image is not empty
      have hflat := hlay.files_eq_nil_iff.mp hnil
      by_contra hrecs
      obtain ⟨r, rs, hr'⟩ := List.exists_cons_of_ne_nil hrecs
      have hpos := (hcleared r (by rw [hr']; exact List.mem_cons_self)).1.image_pos
      rw [hr', List.map_cons, List.map_cons, List.flatten_cons] at hflat
      have hpad := (List.append_eq_nil_iff.mp hflat).1
      rw [padded, List.append_eq_nil_iff] at hpad
      rw [hpad.1] at hpos
      exact Nat.lt_irrefl 0 hpos
    · rw [if_neg hnil] at hana
      refine .inr ⟨_, hana, ?_, rfl⟩
      obtain ⟨c, hc⟩ := Nat.exists_eq_add_of_lt (List.length_pos_of_ne_nil hnil)
      rw [Analyzed.firstPfid, hc, Nat.zero_add, List.range_succ_eq_map]
      rfl
  · intro fuel hfuel
    have hat : At i s blanks _ 0 0 [] files := {
      rest := hfiles
      le := Nat.zero_le _
      data := hlay.holds.data
      offs := (Nat.zero_mul _).symm }
    have hbs : (recs.map fun s => s.clearOwi.image).map padded =
        [] ++ (recs.map StoredRec.clearOwi).map (padded ·.image) := by
      rw [List.nil_append, hmap, List.map_map]
      rfl
    have hrecs : ∀ r ∈ recs.map StoredRec.clearOwi,
        r.Made ∧ r.hdr.getOwi = false ∧ BoundaryFits r.image.length := by
      intro r hr
      obtain ⟨u, hu, rfl⟩ := List.mem_map.mp hr
      exact hcleared u hu
    have hn := hlay.fillers
    have hlen : (recs.map StoredRec.clearOwi).length + n < fuel := by
      rw [List.length_map]
      omega
    exact hat.rcvrRecords_found hlay.holds hlay.full
      (fun f hf => hblank f hf ▸ Resize.fileHeaded_blank i) hd hbs rfl (Nat.dvd_zero _) rfl hlay.records hrecs
      (fun hf => absurd rfl hf) hlen

/-- The commit of the xid of `twoFileRec`. -/
def shortTxnRec : RhmStore.TxnRec := .resetWrite .init rhmJdatTxcMagic 79 (some (List.replicate 10 1)) 10 false

theorem shortRecs_kept {s : StoredRec} (h : Kept [twoFileRec] [shortTxnRec] [[.deq shortDeqRec]] s) :
    s = .enq twoFileRec ∨ s = .txn shortTxnRec ∨ s = .deq shortDeqRec := by
  rcases h with ⟨r, hr, rfl⟩ | ⟨t, ht, rfl, -⟩ | hs
  · rw [List.mem_singleton.mp hr]
    exact .inl rfl
  · rw [List.mem_singleton.mp ht]
    exact .inr (.inl rfl)
  · rw [List.flatten_cons, List.flatten_nil, List.append_nil, List.mem_singleton] at hs
    exact .inr (.inr hs)

/-- An enqueue of nothing. -/
def emptyEnqRec : RhmStore.EnqRec := .resetWrite .init 77 none 0 none 0 false false false

/-- An enqueue of 100 bytes that are kept elsewhere. -/
def externEnqRec : RhmStore.EnqRec := .resetWrite .init 77 none 100 none 0 false false true

end Jrnl

end RhmStore
