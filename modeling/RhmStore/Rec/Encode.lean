import RhmStore.Jrnl.EnqRec

/-! # Writing an enqueue record in pieces -/

namespace RhmStore

@[simp] theorem length_recHdr_bytes (h : RecHdr) : h.bytes.length = 16 := by
  simp only [RecHdr.bytes, List.length_append, length_leBytes]

@[simp] theorem length_enqHdr_bytes (h : EnqHdr) : h.bytes.length = EnqHdr.size := by
  simp only [EnqHdr.bytes, List.length_append, length_recHdr_bytes, length_leBytes]
  rfl

@[simp] theorem length_recTail_bytes (t : RecTail) : t.bytes.length = recTailSize := by
  simp only [RecTail.bytes, List.length_append, length_leBytes]
  rfl

theorem sizeDblks32_of_lt {n : Nat} (h : n < 2 ^ 32) : sizeDblks32 n = (n + 127) / 128 := by
  have hw : wrap 64 (n + (jrnlDblkSize - 1)) = n + 127 :=
    wrap_of_lt (by rw [jrnlDblkSize]; omega)
  rw [sizeDblks32, hw, jrnlDblkSize, wrap_of_lt (by omega)]

theorem require_true {c : Prop} [Decidable c] (h : c) (e : RecErr) : require c e = .ok () :=
  if_pos h

theorem require_false {c : Prop} [Decidable c] (h : ¬c) (e : RecErr) : require c e = .error e :=
  if_neg h

theorem onlyIf_true {α : Type} {c : Prop} [Decidable c] (h : c) (x : Except RecErr α) (a : α) :
    onlyIf c x a = x := if_pos h

theorem onlyIf_false {α : Type} {c : Prop} [Decidable c] (h : ¬c) (x : Except RecErr α) (a : α) :
    onlyIf c x a = .ok a := if_neg h

@[simp] theorem except_ok_bind {ε α β : Type} (a : α) (f : α → Except ε β) :
    (Except.ok a >>= f) = f a := rfl

@[simp] theorem except_error_bind {ε α β : Type} (e : ε) (f : α → Except ε β) :
    ((Except.error e : Except ε α) >>= f) = .error e := rfl

theorem memcpy_eq {src : Bytes} {offs n : Nat} (h : offs + n ≤ src.length) :
    memcpy src offs n = .ok ((src.drop offs).take n) := by
  rw [memcpy, readAt_of_le h]
  rfl

theorem setFlag_and (u m : UInt16) (on : Bool) : setFlag u m on &&& m = if on then m else 0 := by
  apply UInt16.eq_of_toBitVec_eq
  cases on with
  | true =>
    simp only [setFlag, if_true, UInt16.toBitVec_and, UInt16.toBitVec_or]
    ext i
    simp only [BitVec.getElem_and, BitVec.getElem_or]
    cases m.toBitVec[i] <;> simp
  | false =>
    simp only [setFlag, Bool.false_eq_true, if_false, UInt16.toBitVec_and, UInt16.toBitVec_not]
    ext i
    simp

namespace EnqRec

/-- The sizes in the header are those of the xid and of the stored data, and the record is smaller
than 4 GiB. -/
structure Sound (r : EnqRec) : Prop where
  xid : r.xidBytes.length = r.xidsize
  data : r.isExternal = false → r.dataBytes.length = r.dsize
  small : enqRecSize r.xidsize r.dsize r.isExternal < 2 ^ 32

@[simp] theorem isExternal_resetWrite (r : EnqRec) (rid : UInt64) (dbuf : Option Bytes)
    (dlen : UInt64) (xidp : Option Bytes) (xidlen : UInt64) (owi transient external : Bool) :
    (r.resetWrite rid dbuf dlen xidp xidlen owi transient external).isExternal = external := by
  have hf : setFlag (setFlag (setFlag r.enqHdr.uflag 1 owi) 0x10 transient) 0x20 external &&& 0x20 =
      if external then 0x20 else 0 := setFlag_and _ _ _
  show decide (setFlag (setFlag (setFlag r.enqHdr.uflag 1 owi) 0x10 transient) 0x20 external &&&
    0x20 ≠ 0) = external
  rw [hf]
  cases external <;> decide

/-- `wmgr::enqueue` passes the sizes of what its pointers point to. -/
theorem resetWrite_sound (r : EnqRec) (rid : UInt64) {dbuf xidp : Option Bytes}
    {dlen xidlen : UInt64} (owi transient : Bool) {external : Bool}
    (hx : (xidp.getD []).length = xidlen.toNat)
    (hd : external = false → (dbuf.getD []).length = dlen.toNat)
    (hs : enqRecSize xidlen.toNat dlen.toNat external < 2 ^ 32) :
    (r.resetWrite rid dbuf dlen xidp xidlen owi transient external).Sound where
  xid := hx
  data := by
    rw [isExternal_resetWrite]
    exact hd
  small := by
    rw [isExternal_resetWrite]
    exact hs

def storedData (r : EnqRec) : Bytes := if r.isExternal then [] else r.dataBytes

def image (r : EnqRec) : Bytes := r.enqHdr.bytes ++ (r.xidBytes ++ (r.storedData ++ r.enqTail.bytes))

variable {r : EnqRec}

theorem dsize_lt (r : EnqRec) : r.dsize < 2 ^ 64 := r.enqHdr.dsize.toNat_lt

theorem storedData_length (h : r.Sound) : r.storedData.length = r.storedDsize := by
  unfold storedData storedDsize
  cases he : r.isExternal with
  | true => rfl
  | false => exact h.data he

theorem storedDsize_le (r : EnqRec) : r.storedDsize ≤ r.dsize := by
  unfold storedDsize
  split
  · exact Nat.zero_le _
  · exact Nat.le_refl _

theorem enqRecSize_eq (r : EnqRec) : enqRecSize r.xidsize r.dsize r.isExternal =
    32 + r.xidsize + r.storedDsize + 12 := by
  unfold enqRecSize storedDsize
  split <;> rfl

theorem image_length (h : r.Sound) : r.image.length = 32 + r.xidsize + r.storedDsize + 12 := by
  simp only [image, List.length_append, length_enqHdr_bytes, length_recTail_bytes, h.xid,
    storedData_length h, EnqHdr.size, recTailSize]
  omega

theorem image_lt (h : r.Sound) : r.image.length < 2 ^ 32 := by
  rw [image_length h, ← enqRecSize_eq]
  exact h.small

theorem recSizeDblks_eq (h : r.Sound) : r.recSizeDblks = (r.image.length + 127) / 128 := by
  have hs : r.recSize = r.image.length := by
    rw [recSize, wrap_of_lt (Nat.lt_trans h.small (by decide)), image_length h, enqRecSize_eq]
  rw [recSizeDblks, hs, sizeDblks32_of_lt (image_lt h)]

/-! ## The blocks -/

theorem copyMiddle_eq {src : Bytes} {size : Nat} (hs : src.length = size) (hn : size < 2 ^ 64)
    (out : Bytes) {o m : Nat} (ho : o < 2 ^ 64) (hm : m < 2 ^ 64) :
    copyMiddle src size ⟨out, o, m⟩ =
      .ok ⟨out ++ (src.drop o).take m, o - size, m - (size - o)⟩ := by
  unfold copyMiddle
  by_cases hlt : size > o
  · simp only [if_pos hlt, wsub_of_le (Nat.le_of_lt hlt) hn]
    have hoff : wsub 64 o (wsub 64 size (size - o)) = o - size := by
      rw [wsub_of_le (Nat.sub_le _ _) hn, wsub_of_le (by omega) ho]
      omega
    have hne : size - o ≠ 0 := by omega
    rw [onlyIf_true hne, hoff]
    by_cases hm' : size - o > m
    · rw [if_pos hm', memcpy_eq (by omega), wsub_of_le (Nat.le_refl _) hm]
      have h0 : m - m = m - (size - o) := by omega
      rw [h0]
      rfl
    · have htake : (src.drop o).take m = (src.drop o).take (size - o) := by
        rw [List.take_of_length_le (by rw [List.length_drop]; omega),
          List.take_of_length_le (by rw [List.length_drop]; omega)]
      rw [if_neg hm', memcpy_eq (by omega), wsub_of_le (by omega) hm, htake]
      rfl
  · have hnil : (src.drop o).take m = [] := by
      rw [List.drop_eq_nil_of_le (by omega), List.take_nil]
    have h0 : size - o = 0 := by omega
    have hle : ¬(0 > m) := Nat.not_lt_zero m
    simp only [if_neg hlt, if_neg hle, hnil, List.append_nil, h0]
    rw [onlyIf_false (fun hf => hf rfl), wsub_of_le (Nat.zero_le _) hn,
      wsub_of_le (Nat.zero_le _) hm, Nat.sub_zero, wsub_of_le (by omega) ho, except_ok_bind,
      List.append_nil]
    rfl

theorem copyLast_eq {src : Bytes} {size : Nat} (copy : Bool) (hs : copy = true → src.length = size)
    (hn : size < 2 ^ 64) (out : Bytes) {o : Nat} (m : Nat) (ho : o < 2 ^ 64) :
    copyLast src size copy ⟨out, o, m⟩ =
      .ok ⟨out ++ (if copy then src.drop o else []), o - size, m⟩ := by
  unfold copyLast
  by_cases hlt : size > o
  · simp only [if_pos hlt, wsub_of_le (Nat.le_of_lt hlt) hn]
    have hoff : wsub 64 o (wsub 64 size (size - o)) = o - size := by
      rw [wsub_of_le (Nat.sub_le _ _) hn, wsub_of_le (by omega) ho]
      omega
    rw [hoff]
    cases hc : copy with
    | true =>
      have hl := hs hc
      have hne : size - o ≠ 0 := by omega
      rw [onlyIf_true ⟨hne, rfl⟩, memcpy_eq (by omega),
        List.take_of_length_le (by rw [List.length_drop]; omega)]
      rfl
    | false =>
      rw [onlyIf_false (fun hf => Bool.false_ne_true hf.2)]
      rfl
  · have hnil : (if copy then src.drop o else []) = [] := by
      cases hc : copy with
      | true => exact List.drop_eq_nil_of_le (by have := hs hc; omega)
      | false => rfl
    simp only [if_neg hlt, hnil, List.append_nil]
    rw [onlyIf_false (fun hf => hf.1 rfl), wsub_of_le (Nat.zero_le _) hn, Nat.sub_zero,
      wsub_of_le (by omega) ho, except_ok_bind, List.append_nil]
    rfl

theorem copyFirst_eq {src : Bytes} {size : Nat} (hs : src.length = size) (out : Bytes) (o : Nat)
    {m : Nat} (hm : m < 2 ^ 64) :
    copyFirst src size ⟨out, o, m⟩ = .ok ⟨out ++ src.take m, o, m - size⟩ := by
  unfold copyFirst
  by_cases hge : m ≥ size
  · simp only [if_pos hge]
    rw [memcpy_eq (by omega), wsub_of_le hge hm, List.drop_zero,
      List.take_of_length_le (Nat.le_of_eq hs), List.take_of_length_le (by omega)]
    rfl
  · simp only [if_neg hge]
    rw [memcpy_eq (by omega), wsub_of_le (Nat.le_refl _) hm, List.drop_zero]
    have h0 : m - m = m - size := by omega
    rw [h0]
    rfl

/-! ## The branches -/

def afterHdr (r : EnqRec) : Bytes := r.xidBytes ++ (r.storedData ++ r.enqTail.bytes)

theorem image_drop (r : EnqRec) {o : Nat} (ho : 32 ≤ o) :
    r.image.drop o = r.afterHdr.drop (o - 32) := by
  rw [image, List.drop_append, List.drop_eq_nil_of_le (by rw [length_enqHdr_bytes]; exact ho),
    length_enqHdr_bytes, List.nil_append]
  rfl

theorem afterHdr_drop (h : r.Sound) (o : Nat) : r.afterHdr.drop o = r.xidBytes.drop o ++
    (r.storedData.drop (o - r.xidsize) ++ r.enqTail.bytes.drop (o - r.xidsize - r.storedDsize)) := by
  rw [afterHdr, List.drop_append, List.drop_append, h.xid, storedData_length h]

theorem onlyIf_copyMiddle {src : Bytes} {size : Nat} (hs : src.length = size) (hn : size < 2 ^ 64)
    (out : Bytes) {o m : Nat} (ho : o < 2 ^ 64) (hm : m < 2 ^ 64) (hz : m = 0 → o = 0) :
    onlyIf (m ≠ 0) (copyMiddle src size ⟨out, o, m⟩) ⟨out, o, m⟩ =
      .ok ⟨out ++ (src.drop o).take m, o - size, m - (size - o)⟩ := by
  by_cases h0 : m = 0
  · rw [onlyIf_false (fun hf => hf h0), hz h0, h0, List.take_zero, List.append_nil, Nat.zero_sub,
      Nat.zero_sub]
  · rw [onlyIf_true h0]
    exact copyMiddle_eq hs hn out ho hm

theorem onlyIf_copyMiddle_data (h : r.Sound) (out : Bytes) {o m : Nat} (ho : o < 2 ^ 64)
    (hm : m < 2 ^ 64) (hz : m = 0 → o = 0) :
    onlyIf (m ≠ 0 ∧ ¬r.isExternal) (copyMiddle r.dataBytes r.dsize ⟨out, o, m⟩) ⟨out, o, m⟩ =
      .ok ⟨out ++ (r.storedData.drop o).take m, o - r.storedDsize, m - (r.storedDsize - o)⟩ := by
  by_cases he : r.isExternal = true
  · rw [onlyIf_false (fun hf => hf.2 he), storedData, storedDsize, if_pos he, if_pos he,
      List.drop_nil, List.take_nil, List.append_nil, Nat.zero_sub]
    rfl
  · have hs : r.dataBytes.length = r.dsize := h.data (Bool.eq_false_iff.mpr he)
    rw [storedData, storedDsize, if_neg he, if_neg he]
    by_cases h0 : m = 0
    · rw [onlyIf_false (fun hf => hf.1 h0), hz h0, h0, List.take_zero, List.append_nil,
        Nat.zero_sub, Nat.zero_sub]
    · rw [onlyIf_true ⟨h0, he⟩]
      exact copyMiddle_eq hs r.dsize_lt out ho hm

theorem encodeMiddle_eq (h : r.Sound) {o rem : Nat} (ho : 32 ≤ o) (hpos : 0 < rem)
    (hrem : o + rem ≤ r.image.length) :
    r.encodeMiddle o rem = .ok ((r.image.drop o).take rem) := by
  have hlt := image_lt h
  have hlen := image_length h
  have hxs : r.xidsize < 2 ^ 64 := r.enqHdr.xidsize.toNat_lt
  have htl : r.enqTail.bytes.length = recTailSize := length_recTail_bytes _
  have ht : recTailSize = 12 := rfl
  rw [encodeMiddle, EnqHdr.size, wsub_of_le ho (by omega),
    copyMiddle_eq h.xid hxs [] (by omega) (by omega), except_ok_bind,
    onlyIf_copyMiddle_data h (m := rem - (r.xidsize - (o - 32))) _ (by omega) (by omega) (by omega),
    except_ok_bind, onlyIf_copyMiddle htl (by omega) (o := o - 32 - r.xidsize - r.storedDsize)
      (m := rem - (r.xidsize - (o - 32)) - (r.storedDsize - (o - 32 - r.xidsize))) _ (by omega)
      (by omega) (by omega),
    except_ok_bind, require_true (show _ - _ = 0 by omega), except_ok_bind,
    require_true (show _ - _ = 0 by omega), except_ok_bind,
    image_drop r ho, afterHdr_drop h, List.take_append, List.take_append, List.length_drop,
    List.length_drop, h.xid, storedData_length h, List.nil_append, List.append_assoc]
  rfl

theorem encodeLast_eq (h : r.Sound) {o rem : Nat} (ho : 32 ≤ o) (hlt : o < r.image.length) :
    r.encodeLast o rem = .ok (r.xidBytes.drop (o - 32) ++
      (r.storedData.drop (o - 32 - r.xidsize) ++
        r.enqTail.bytes.drop (o - 32 - r.xidsize - r.dsize))) := by
  have hl := image_lt h
  have hlen := image_length h
  have hle := r.storedDsize_le
  have hxs : r.xidsize < 2 ^ 64 := r.enqHdr.xidsize.toNat_lt
  have ht : recTailSize = 12 := rfl
  have hd : (!r.isExternal) = true → r.dataBytes.length = r.dsize := by
    intro he
    apply h.data
    simpa using he
  rw [encodeLast, EnqHdr.size, wsub_of_le ho (by omega),
    copyLast_eq true (fun _ => h.xid) hxs [] rem (by omega), except_ok_bind,
    copyLast_eq _ hd r.dsize_lt _ rem (by omega), except_ok_bind,
    copyLast_eq true (fun _ => length_recTail_bytes _) (by omega) _ rem (by omega), except_ok_bind,
    require_true (show _ - _ = 0 by omega), except_ok_bind, List.nil_append, List.append_assoc]
  cases he : r.isExternal with
  | true =>
    simp only [storedData, he, if_true, Bool.not_true, Bool.false_eq_true, if_false, List.drop_nil]
    rfl
  | false =>
    simp only [storedData, he, if_true, Bool.not_false, Bool.false_eq_true, if_false]
    rfl

theorem onlyIf_copyFirst {src : Bytes} {size : Nat} (hs : src.length = size) (out : Bytes) (o : Nat)
    {m : Nat} (hm : m < 2 ^ 64) :
    onlyIf (m ≠ 0) (copyFirst src size ⟨out, o, m⟩) ⟨out, o, m⟩ =
      .ok ⟨out ++ src.take m, o, m - size⟩ := by
  by_cases h0 : m = 0
  · rw [onlyIf_false (fun hf => hf h0), h0, List.take_zero, List.append_nil, Nat.zero_sub]
  · rw [onlyIf_true h0]
    exact copyFirst_eq hs out o hm

theorem onlyIf_copyFirst_data (h : r.Sound) (out : Bytes) (o : Nat) {m : Nat} (hm : m < 2 ^ 64) :
    onlyIf (m ≠ 0 ∧ ¬r.isExternal) (copyFirst r.dataBytes r.dsize ⟨out, o, m⟩) ⟨out, o, m⟩ =
      .ok ⟨out ++ r.storedData.take m, o, m - r.storedDsize⟩ := by
  by_cases he : r.isExternal = true
  · rw [onlyIf_false (fun hf => hf.2 he), storedData, storedDsize, if_pos he, if_pos he,
      List.take_nil, List.append_nil]
    rfl
  · have hs : r.dataBytes.length = r.dsize := h.data (Bool.eq_false_iff.mpr he)
    rw [storedData, storedDsize, if_neg he, if_neg he]
    by_cases h0 : m = 0
    · rw [onlyIf_false (fun hf => hf.1 h0), h0, List.take_zero, List.append_nil, Nat.zero_sub]
    · rw [onlyIf_true ⟨h0, he⟩]
      exact copyFirst_eq hs out o hm

theorem encodeFirst_eq (h : r.Sound) {rem : Nat} (hge : 32 ≤ rem) (hle : rem ≤ r.image.length) :
    r.encodeFirst rem = .ok (r.image.take rem) := by
  have hl := image_lt h
  have hlen := image_length h
  have ht : recTailSize = 12 := rfl
  rw [encodeFirst, EnqHdr.size, wsub_of_le hge (by omega),
    onlyIf_copyFirst h.xid (m := rem - 32) _ _ (by omega), except_ok_bind,
    onlyIf_copyFirst_data h (m := rem - 32 - r.xidsize) _ _ (by omega), except_ok_bind,
    onlyIf_copyFirst (length_recTail_bytes _) (m := rem - 32 - r.xidsize - r.storedDsize) _ _
      (by omega), except_ok_bind, require_true (show _ - _ = 0 by omega), except_ok_bind, image,
    List.take_append, List.take_append, List.take_append, length_enqHdr_bytes,
    h.xid, storedData_length h, EnqHdr.size, List.append_assoc, List.append_assoc,
    List.take_of_length_le (l := r.enqHdr.bytes)
      (by rw [length_enqHdr_bytes, EnqHdr.size]; exact hge)]
  rfl

theorem encodeWhole_eq (hxid : r.xidBytes.length = r.xidsize)
    (hdata : r.isExternal = false → r.dataBytes.length = r.dsize) : r.encodeWhole = .ok r.image := by
  have hx : onlyIf (r.xidsize ≠ 0) (memcpy r.xidBytes 0 r.xidsize) [] = .ok r.xidBytes := by
    by_cases h0 : r.xidsize = 0
    · rw [onlyIf_false (fun hf => hf h0), List.eq_nil_of_length_eq_zero (hxid.trans h0)]
    · rw [onlyIf_true h0, memcpy_eq (Nat.le_of_eq (by rw [hxid, Nat.zero_add])), List.drop_zero, ← hxid,
        List.take_length]
  have hd : onlyIf (¬r.isExternal) (memcpy r.dataBytes 0 r.dsize) [] = .ok r.storedData := by
    by_cases he : r.isExternal = true
    · rw [onlyIf_false (fun hf => hf he), storedData, if_pos he]
    · have hs : r.dataBytes.length = r.dsize := hdata (Bool.eq_false_iff.mpr he)
      rw [onlyIf_true he, memcpy_eq (Nat.le_of_eq (by rw [hs, Nat.zero_add])), List.drop_zero, ← hs,
        List.take_length, storedData, if_neg he]
  rw [encodeWhole, hx, except_ok_bind, hd, except_ok_bind, image, List.append_assoc, List.append_assoc]
  rfl

/-! ## The calls -/

/-- What the last call of `encode` writes, where it starts at dblk `k`. Where `k` falls into the
tail of an external record, `rec_offs` has lost the size of the data, which is not there. -/
def lastPiece (r : EnqRec) (k : Nat) : Bytes :=
  if k = 0 then r.image
  else r.xidBytes.drop (128 * k - 32) ++
    (r.storedData.drop (128 * k - 32 - r.xidsize) ++
      r.enqTail.bytes.drop (128 * k - 32 - r.xidsize - r.dsize))

theorem xidp_of_length (hxid : r.xidBytes.length = r.xidsize) : r.xidp.isSome ∨ r.xidsize = 0 := by
  cases hx : r.xidp with
  | some b => exact .inl rfl
  | none =>
    right
    rw [← hxid, xidBytes, hx]
    rfl

theorem encode_split (h : r.Sound) {k m : Nat} (hm : 0 < m) (hk : k + m < r.recSizeDblks) :
    r.encode k m = .ok ((r.image.drop (128 * k)).take (128 * m), m) := by
  have hn := recSizeDblks_eq h
  have hl := image_lt h
  have hsize : sizeDblks32 ((r.image.drop (128 * k)).take (128 * m)).length = m := by
    rw [List.length_take, List.length_drop, sizeDblks32_of_lt (by omega)]
    omega
  have hb : r.encodeBytes k m = .ok ((r.image.drop (128 * k)).take (128 * m)) := by
    unfold encodeBytes
    have hk' : wrap 32 (k * jrnlDblkSize) = 128 * k := by
      rw [jrnlDblkSize, wrap_of_lt (by omega), Nat.mul_comm]
    have hm' : wrap 32 (m * jrnlDblkSize) = 128 * m := by
      rw [jrnlDblkSize, wrap_of_lt (by omega), Nat.mul_comm]
    simp only [hk', hm']
    by_cases h0 : k = 0
    · rw [if_neg (fun hf => hf h0), if_pos (by omega), encodeFirst_eq h (by omega) (by omega), h0]
      rfl
    · rw [if_pos h0, if_pos (by rw [wsub_of_le (by omega) (by omega)]; omega),
        encodeMiddle_eq h (by omega) (by omega) (by omega)]
  rw [encode, require_true hm, except_ok_bind, require_true (xidp_of_length h.xid), except_ok_bind, hb,
    except_ok_bind, hsize]
  rfl

theorem lastPiece_size (h : r.Sound) {k : Nat} (hk : k < r.recSizeDblks) :
    sizeDblks32 (r.lastPiece k).length = r.recSizeDblks - k := by
  have hn := recSizeDblks_eq h
  have hl := image_lt h
  have hlen := image_length h
  have hle := r.storedDsize_le
  have hext : r.storedDsize = 0 ∨ r.storedDsize = r.dsize := by
    unfold storedDsize
    cases r.isExternal
    · exact .inr rfl
    · exact .inl rfl
  unfold lastPiece
  by_cases h0 : k = 0
  · rw [if_pos h0, h0, sizeDblks32_of_lt hl, hn]
    rfl
  · rw [if_neg h0]
    simp only [List.length_append, List.length_drop, h.xid, storedData_length h,
      length_recTail_bytes, recTailSize]
    rw [sizeDblks32_of_lt (by omega)]
    omega

theorem encode_rest (h : r.Sound) {k m : Nat} (hk : k < r.recSizeDblks)
    (hm : r.recSizeDblks ≤ k + m) :
    r.encode k m = .ok (r.lastPiece k, r.recSizeDblks - k) := by
  have hn := recSizeDblks_eq h
  have hl := image_lt h
  have hb : r.encodeBytes k m = .ok (r.lastPiece k) := by
    unfold encodeBytes lastPiece
    have hk' : wrap 32 (k * jrnlDblkSize) = 128 * k := by
      rw [jrnlDblkSize, wrap_of_lt (by omega), Nat.mul_comm]
    simp only [hk']
    by_cases h0 : k = 0
    · rw [if_neg (fun hf => hf h0), if_neg (by omega), encodeWhole_eq h.xid h.data, if_pos h0]
    · rw [if_pos h0, if_neg (by rw [wsub_of_le (by omega) (by omega)]; omega),
        encodeLast_eq h (by omega) (by omega), if_neg h0]
  rw [encode, require_true (by omega), except_ok_bind, require_true (xidp_of_length h.xid), except_ok_bind, hb,
    except_ok_bind, lastPiece_size h hk]
  rfl

/-! ## The loop -/

def total : List Nat → Nat
  | [] => 0
  | m :: ms => m + total ms

def starts : Nat → List Nat → List Nat
  | _, [] => []
  | k, m :: ms => k :: starts (k + m) ms

def lastStart (n : Nat) : Nat → List Nat → Nat
  | k, [] => k
  | k, m :: ms => if n ≤ k + m then k else lastStart n (k + m) ms

def stored (fill : UInt8) : List (Bytes × Nat) → Bytes
  | [] => []
  | p :: ps => p.1 ++ List.replicate (128 * p.2 - p.1.length) fill ++ stored fill ps

theorem lastStart_mem {n k : Nat} {ms : List Nat} (hn : n ≤ k + total ms) (hk : k < n) :
    lastStart n k ms ∈ starts k ms := by
  induction ms generalizing k with
  | nil => exact absurd hn (by rw [total]; omega)
  | cons m ms ih =>
    rw [lastStart, starts]
    by_cases hm : n ≤ k + m
    · rw [if_pos hm]
      exact List.mem_cons_self
    · rw [if_neg hm]
      rw [total] at hn
      exact List.mem_cons_of_mem _ (ih (by omega) (by omega))

theorem starts_le {k j : Nat} {ms : List Nat} (hj : j ∈ starts k ms) : k ≤ j := by
  induction ms generalizing k with
  | nil => exact (List.not_mem_nil hj).elim
  | cons m ms ih =>
    rw [starts, List.mem_cons] at hj
    rcases hj with rfl | hj
    · exact Nat.le_refl _
    · exact Nat.le_trans (Nat.le_add_right _ _) (ih hj)

theorem lastStart_eq {n k j : Nat} {ms : List Nat} (hpos : ∀ m ∈ ms, 0 < m) (hj : j ∈ starts k ms)
    (hn : n = j + 1) : lastStart n k ms = j := by
  induction ms generalizing k with
  | nil => exact (List.not_mem_nil hj).elim
  | cons m ms ih =>
    have hm := hpos m List.mem_cons_self
    rw [starts, List.mem_cons] at hj
    rw [lastStart]
    rcases hj with rfl | hj
    · exact if_pos (by omega)
    · have hle := starts_le hj
      rw [if_neg (by omega)]
      exact ih (fun m hm => hpos m (List.mem_cons_of_mem _ hm)) hj

theorem encodeAll_eq (h : r.Sound) (fill : UInt8) {spaces : List Nat} (hpos : ∀ m ∈ spaces, 0 < m)
    {k : Nat} (hk : k < r.recSizeDblks) (hsum : r.recSizeDblks ≤ k + total spaces) :
    let c := lastStart r.recSizeDblks k spaces
    ∃ ps, r.encodeAll k spaces = .ok ps ∧ total (ps.map Prod.snd) = r.recSizeDblks - k ∧
      k ≤ c ∧ c < r.recSizeDblks ∧
      stored fill ps = (r.image.drop (128 * k)).take (128 * (c - k)) ++ (r.lastPiece c ++
        List.replicate (128 * (r.recSizeDblks - c) - (r.lastPiece c).length) fill) := by
  induction spaces generalizing k with
  | nil => exact absurd hsum (by rw [total]; omega)
  | cons m ms ih =>
    have hm := hpos m List.mem_cons_self
    rw [total] at hsum
    rw [lastStart, encodeAll, if_pos hk]
    by_cases hlast : r.recSizeDblks ≤ k + m
    · have hnil : r.encodeAll (k + (r.recSizeDblks - k)) ms = .ok [] := by
        cases ms with
        | nil => rfl
        | cons => exact if_neg (by omega)
      simp only [if_pos hlast]
      refine ⟨[(r.lastPiece k, r.recSizeDblks - k)], ?_, ?_, Nat.le_refl k, hk, ?_⟩
      · rw [encode_rest h hk hlast, except_ok_bind, hnil]
        rfl
      · rfl
      · rw [stored, stored, Nat.sub_self, Nat.mul_zero, List.take_zero, List.append_nil,
          List.nil_append]
    · have hk' : k + m < r.recSizeDblks := by omega
      obtain ⟨ps, hps, htot, hle, hlt, hst⟩ := ih
        (fun m hm => hpos m (List.mem_cons_of_mem _ hm)) hk' (by omega)
      simp only [if_neg hlast]
      generalize lastStart r.recSizeDblks (k + m) ms = c at *
      have hn := recSizeDblks_eq h
      have hlen : ((r.image.drop (128 * k)).take (128 * m)).length = 128 * m := by
        rw [List.length_take, List.length_drop]
        omega
      have hsplit : (r.image.drop (128 * k)).take (128 * m) ++
          (r.image.drop (128 * (k + m))).take (128 * (c - (k + m))) =
          (r.image.drop (128 * k)).take (128 * (c - k)) := by
        have hc : 128 * (c - k) = 128 * m + 128 * (c - (k + m)) := by omega
        rw [hc, List.take_add, List.drop_drop, Nat.mul_add]
      refine ⟨((r.image.drop (128 * k)).take (128 * m), m) :: ps, ?_, ?_, by omega, hlt, ?_⟩
      · rw [encode_split h hm hk', except_ok_bind, hps]
        rfl
      · rw [List.map_cons, total, htot]
        omega
      · rw [stored, hst, hlen, Nat.sub_self, List.replicate_zero, List.append_nil,
          ← List.append_assoc, hsplit]

/-! ## Written whole -/

/-- The calls of `encode` over the page spaces go through, return the size of the record, and leave
the record in the pages, up to the filler behind it. -/
def WrittenWhole (r : EnqRec) (spaces : List Nat) (fill : UInt8) : Prop :=
  ∃ ps, r.encodeAll 0 spaces = .ok ps ∧ total (ps.map Prod.snd) = r.recSizeDblks ∧
    (stored fill ps).take r.image.length = r.image

/-- The last piece, where it starts at dblk `k`, is what the record has there. A start inside of the
tail of an external record is right only if the bytes of the tail from `dsize` before it on are
those from it on. -/
def TailFits (r : EnqRec) (k : Nat) : Prop :=
  r.isExternal → 32 + r.xidsize < 128 * k → 128 * k < 32 + r.xidsize + 12 →
    (r.enqTail.bytes.drop (128 * k - 32 - r.xidsize - r.dsize)).take (32 + r.xidsize + 12 - 128 * k) =
      r.enqTail.bytes.drop (128 * k - 32 - r.xidsize)

/-- Where `dsize` is that of stored data, or the last piece starts before the tail, it is the rest of
the record. -/
theorem lastPiece_eq (h : r.Sound) {k : Nat} (hs : r.isExternal = true → 128 * k ≤ 32 + r.xidsize) :
    r.lastPiece k = r.image.drop (128 * k) := by
  unfold lastPiece
  by_cases h0 : k = 0
  · rw [if_pos h0, h0]
    rfl
  · have htail : 128 * k - 32 - r.xidsize - r.dsize = 128 * k - 32 - r.xidsize - r.storedDsize := by
      by_cases he : r.isExternal = true
      · have := hs he
        omega
      · rw [storedDsize, if_neg he]
    rw [if_neg h0, htail, image_drop r (by omega), afterHdr_drop h]

theorem lastPiece_fits_iff (h : r.Sound) {k : Nat} (hk : k < r.recSizeDblks) (fill : List UInt8) :
    (r.lastPiece k ++ fill).take (r.image.length - 128 * k) = r.image.drop (128 * k) ↔
      r.TailFits k := by
  have hn := recSizeDblks_eq h
  have hlen := image_length h
  by_cases hs : r.isExternal = true → 128 * k ≤ 32 + r.xidsize
  · have hfit : r.TailFits k := by
      intro he hlo
      exact absurd (hs he) (by omega)
    have hl : r.image.length - 128 * k = (r.image.drop (128 * k)).length := by
      rw [List.length_drop]
    rw [lastPiece_eq h hs, hl, List.take_left]
    exact iff_of_true rfl hfit
  · have he : r.isExternal = true := by
      by_contra hf
      exact hs (fun he => absurd he hf)
    have hlo : 32 + r.xidsize < 128 * k := by
      by_contra hf
      exact hs (fun _ => by omega)
    have hsd : r.storedDsize = 0 := if_pos he
    have hst : r.storedData = [] := if_pos he
    have hx : r.xidBytes.drop (128 * k - 32) = [] :=
      List.drop_eq_nil_of_le (by rw [h.xid]; omega)
    have hlast : r.lastPiece k =
        r.enqTail.bytes.drop (128 * k - 32 - r.xidsize - r.dsize) := by
      rw [lastPiece, if_neg (by omega), hx, hst, List.drop_nil, List.nil_append, List.nil_append]
    have himg : r.image.drop (128 * k) = r.enqTail.bytes.drop (128 * k - 32 - r.xidsize) := by
      rw [image_drop r (by omega), afterHdr_drop h, hx, hst, hsd, List.drop_nil, List.nil_append,
        List.nil_append, Nat.sub_zero]
    have hl : r.image.length - 128 * k = 32 + r.xidsize + 12 - 128 * k := by omega
    have htl : r.enqTail.bytes.length = 12 := length_recTail_bytes _
    rw [hlast, himg, hl, List.take_append_of_le_length (by rw [List.length_drop]; omega)]
    constructor
    · intro heq _ _ _
      exact heq
    · intro hfit
      exact hfit he hlo (by omega)

theorem writtenWhole_iff_last (h : r.Sound) {spaces : List Nat} (hpos : ∀ m ∈ spaces, 0 < m)
    (hsum : r.recSizeDblks ≤ total spaces) (fill : UInt8) :
    r.WrittenWhole spaces fill ↔ r.TailFits (lastStart r.recSizeDblks 0 spaces) := by
  have hn := recSizeDblks_eq h
  have hlen := image_length h
  obtain ⟨ps, hps, htot, hle, hlt, hst⟩ :=
    encodeAll_eq h fill hpos (k := 0) (by omega) (by rwa [Nat.zero_add])
  generalize lastStart r.recSizeDblks 0 spaces = c at *
  rw [Nat.mul_zero, List.drop_zero, Nat.sub_zero] at hst
  have hpre : (r.image.take (128 * c)).length = 128 * c := by
    rw [List.length_take]
    omega
  rw [← lastPiece_fits_iff h hlt
    (List.replicate (128 * (r.recSizeDblks - c) - (r.lastPiece c).length) fill)]
  have hiff : (stored fill ps).take r.image.length = r.image ↔
      (r.lastPiece c ++ List.replicate (128 * (r.recSizeDblks - c) - (r.lastPiece c).length)
        fill).take (r.image.length - 128 * c) = r.image.drop (128 * c) := by
    rw [hst, List.take_append, hpre, List.take_of_length_le (by omega)]
    constructor
    · intro he
      have ht : r.image.take (128 * c) ++ (r.lastPiece c ++
          List.replicate (128 * (r.recSizeDblks - c) - (r.lastPiece c).length) fill).take
            (r.image.length - 128 * c) =
          r.image.take (128 * c) ++ r.image.drop (128 * c) := by
        rw [he, List.take_append_drop]
      exact List.append_cancel_left ht
    · intro he
      rw [he, List.take_append_drop]
  rw [← hiff]
  constructor
  · rintro ⟨qs, hqs, -, hw⟩
    rw [hps] at hqs
    cases hqs
    exact hw
  · intro hw
    exact ⟨ps, hps, htot, hw⟩

/-- A record written in pieces is the record written whole, exactly if no page ends inside of the
tail of an external record, unless the tail repeats itself there. -/
theorem writtenWhole_iff (h : r.Sound) {spaces : List Nat} (hpos : ∀ m ∈ spaces, 0 < m)
    (hsum : r.recSizeDblks ≤ total spaces) (fill : UInt8) :
    r.WrittenWhole spaces fill ↔ ∀ k ∈ starts 0 spaces, r.TailFits k := by
  have hn := recSizeDblks_eq h
  have hlen := image_length h
  rw [writtenWhole_iff_last h hpos hsum fill]
  constructor
  · intro hf k hk he hlo hhi
    have hs : r.storedDsize = 0 := if_pos he
    rw [lastStart_eq hpos hk (by omega)] at hf
    exact hf he hlo hhi
  · intro hall
    exact hall _ (lastStart_mem (by rwa [Nat.zero_add]) (by omega))

/-- An external record with an xid of 90 bytes, for 50 bytes of data. -/
def externalRec : EnqRec :=
  init.resetWrite 77 none 50 (some (List.replicate 90 1)) 90 false false true

theorem externalRec_sound : externalRec.Sound :=
  resetWrite_sound init 77 false false rfl (fun h => absurd h (by decide)) (by decide)

/-- Its tail lies over two dblks. Where they are in different pages, the tail is written again from
its start. -/
theorem externalRec_tail_twice : ¬ ∀ (r : EnqRec) (_ : r.Sound) (spaces : List Nat)
    (_ : ∀ m ∈ spaces, 0 < m) (_ : r.recSizeDblks ≤ total spaces), r.WrittenWhole spaces 255 := by
  intro hall
  have hw := hall externalRec externalRec_sound [1, 1] (by decide) (by decide)
  rw [writtenWhole_iff_last externalRec_sound (by decide) (by decide)] at hw
  exact absurd (hw (by decide) (by decide) (by decide)) (by decide)

/-- Its pages hold it where they end before the tail. -/
theorem externalRec_writtenWhole : externalRec.WrittenWhole [2] 255 :=
  (writtenWhole_iff externalRec_sound (by decide) (by decide) 255).mpr (by
    intro k hk he hlo
    rw [starts, starts, List.mem_singleton] at hk
    rw [hk] at hlo
    exact absurd hlo (Nat.not_lt_zero _))

end EnqRec

end RhmStore
