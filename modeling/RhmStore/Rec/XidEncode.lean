import RhmStore.Rec.Pieces

/-! # Writing a dequeue or transaction record in pieces -/

namespace RhmStore

open EnqRec (copyMiddle_eq copyLast_eq copyFirst_eq onlyIf_copyMiddle onlyIf_copyFirst total stored)

theorem sizeDblks32_eq {n : Nat} (h : n < 2 ^ 63) : sizeDblks32 n = wrap 32 ((n + 127) / 128) := by
  rw [sizeDblks32, jrnlDblkSize, wrap_of_lt (w := 64) (by omega)]

theorem sizeDblks32_wrap (n : Nat) : sizeDblks32 (wrap 64 n) = sizeDblks32 n := by
  unfold sizeDblks32 wrap
  rw [Nat.mod_add_mod]

namespace XidParts

def image (p : XidParts) : Bytes := p.hdr ++ (p.xid ++ p.tail.bytes)

variable {p : XidParts}

theorem image_length (hx : p.xid.length = p.xidsize) :
    p.image.length = p.hdr.length + p.xidsize + 12 := by
  simp only [image, List.length_append, length_recTail_bytes, recTailSize, hx]
  omega

theorem image_drop (hx : p.xid.length = p.xidsize) {o : Nat} (ho : p.hdr.length ≤ o) :
    p.image.drop o = p.xid.drop (o - p.hdr.length) ++
      p.tail.bytes.drop (o - p.hdr.length - p.xidsize) := by
  rw [image, List.drop_append, List.drop_eq_nil_of_le ho, List.nil_append, List.drop_append, hx]

theorem encodeMiddle_eq (hx : p.xid.length = p.xidsize) {o rem : Nat} (ho : p.hdr.length ≤ o)
    (hpos : 0 < rem) (hrem : o + rem ≤ p.image.length) (hl : p.image.length < 2 ^ 64) :
    p.encodeMiddle o rem = .ok ((p.image.drop o).take rem) := by
  have hlen := image_length hx
  have ht : recTailSize = 12 := rfl
  rw [encodeMiddle, wsub_of_le ho (by omega),
    copyMiddle_eq hx (by omega) [] (by omega) (by omega), except_ok_bind,
    onlyIf_copyMiddle (length_recTail_bytes _) (by omega) (o := o - p.hdr.length - p.xidsize)
      (m := rem - (p.xidsize - (o - p.hdr.length))) _ (by omega) (by omega) (by omega),
    except_ok_bind, require_true (show _ - _ = 0 by omega), except_ok_bind,
    require_true (show _ - _ = 0 by omega), except_ok_bind, image_drop hx ho, List.take_append,
    List.length_drop, hx, List.nil_append]
  rfl

theorem encodeLast_eq (hx : p.xid.length = p.xidsize) {o rem : Nat} (ho : p.hdr.length ≤ o)
    (hlt : o < p.image.length) (hl : p.image.length < 2 ^ 64) :
    p.encodeLast o rem = .ok (p.image.drop o) := by
  have hlen := image_length hx
  have ht : recTailSize = 12 := rfl
  rw [encodeLast, wsub_of_le ho (by omega),
    copyLast_eq true (fun _ => hx) (by omega) [] rem (by omega), except_ok_bind,
    copyLast_eq true (fun _ => length_recTail_bytes _) (by omega) _ rem (by omega), except_ok_bind,
    require_true (show _ - _ = 0 by omega), except_ok_bind, image_drop hx ho, List.nil_append]
  rfl

theorem encodeFirst_eq (hx : p.xid.length = p.xidsize) {rem : Nat} (hge : p.hdr.length ≤ rem)
    (hle : rem ≤ p.image.length) (hl : p.image.length < 2 ^ 64) :
    p.encodeFirst rem = .ok (p.image.take rem) := by
  have hlen := image_length hx
  have ht : recTailSize = 12 := rfl
  rw [encodeFirst, wsub_of_le hge (by omega),
    onlyIf_copyFirst hx (m := rem - p.hdr.length) _ _ (by omega), except_ok_bind,
    onlyIf_copyFirst (length_recTail_bytes _) (m := rem - p.hdr.length - p.xidsize) _ _ (by omega),
    except_ok_bind, require_true (show _ - _ = 0 by omega), except_ok_bind, image,
    List.take_append, List.take_of_length_le hge, List.take_append, hx, List.append_assoc]
  rfl

theorem encodeWhole_eq (hx : p.xid.length = p.xidsize) : p.encodeWhole = .ok p.image := by
  have ht : (p.xid.drop 0).take p.xidsize = p.xid := by
    rw [List.drop_zero, ← hx, List.take_length]
  rw [encodeWhole, memcpy_eq (by omega), except_ok_bind, ht, List.append_assoc]
  rfl

/-! ## From 4 GiB on

The offset is computed in 32 bits. At 4 GiB it is zero, and no part of the record is found there. -/

theorem wsub_zero {n : Nat} (h0 : 0 < n) (h : n < 2 ^ 64) : wsub 64 0 n = 2 ^ 64 - n := by
  rw [wsub, wrap_of_lt h, wrap_of_lt (by omega)]
  omega

theorem copyMiddle_behind {src : Bytes} {size o m : Nat} (hs : src.length = size) (hso : size ≤ o)
    (ho : o < 2 ^ 64) (hm : m < 2 ^ 64) :
    EnqRec.copyMiddle src size ⟨[], o, m⟩ = .ok ⟨[], o - size, m⟩ := by
  rw [copyMiddle_eq hs (by omega) [] ho hm, List.drop_eq_nil_of_le (by omega), List.take_nil,
    show size - o = 0 by omega]
  rfl

theorem encodeMiddle_wrapped (hx : p.xid.length = p.xidsize) (hh : 0 < p.hdr.length) {rem : Nat}
    (hpos : 0 < rem) (hrem : rem < 2 ^ 64) (hl : p.image.length < 2 ^ 39 - 127) :
    p.encodeMiddle 0 rem = .error .assertion := by
  have hlen := image_length hx
  have ht : recTailSize = 12 := rfl
  rw [encodeMiddle, wsub_zero hh (by omega), copyMiddle_behind hx (by omega) (by omega) hrem,
    except_ok_bind, onlyIf_true (show rem ≠ 0 by omega),
    copyMiddle_behind (length_recTail_bytes _) (by omega) (by omega) hrem, except_ok_bind,
    require_false (show rem ≠ 0 by omega), except_error_bind]

theorem encodeLast_wrapped (hx : p.xid.length = p.xidsize) (hh : 0 < p.hdr.length) (rem : Nat)
    (hl : p.image.length < 2 ^ 39 - 127) : p.encodeLast 0 rem = .error .assertion := by
  have hlen := image_length hx
  have ht : recTailSize = 12 := rfl
  rw [encodeLast, wsub_zero hh (by omega), copyLast_eq true (fun _ => hx) (by omega) [] rem (by omega),
    except_ok_bind, copyLast_eq true (fun _ => length_recTail_bytes _) (by omega) _ rem (by omega),
    except_ok_bind, require_false (show 2 ^ 64 - p.hdr.length - p.xidsize - recTailSize ≠ 0 by omega),
    except_error_bind]

/-! ## The branches -/

theorem encodeBytes_wrapped (hx : p.xid.length = p.xidsize) (hl : p.image.length < 2 ^ 39 - 127)
    (hh : 0 < p.hdr.length) (n : Nat) (whole : Except RecErr Bytes) {m : Nat} (hm : 0 < m)
    (hm' : m < 2 ^ 25) : p.encodeBytes n whole (2 ^ 25) m = .error .assertion := by
  have hko : wrap 32 (2 ^ 25 * jrnlDblkSize) = 0 := by decide
  have hmo : wrap 32 (m * jrnlDblkSize) = 128 * m := by
    rw [jrnlDblkSize, wrap_of_lt (by omega), Nat.mul_comm]
  unfold encodeBytes
  simp only [hko, hmo]
  rw [if_pos (by decide)]
  split
  · exact encodeMiddle_wrapped hx hh (by omega) (by omega) hl
  · exact encodeLast_wrapped hx hh _ hl

/-- A record that fits is written whole. -/
theorem encodeBytes_whole {n m : Nat} (h : n ≤ m) (whole : Except RecErr Bytes) :
    p.encodeBytes n whole 0 m = whole := by
  unfold encodeBytes
  rw [if_neg (fun hf => hf rfl), if_neg (by omega)]

section Branches

variable (hx : p.xid.length = p.xidsize) (hl : p.image.length < 2 ^ 39 - 127) {n : Nat}
  (hn : n = (p.image.length + 127) / 128) (whole : Except RecErr Bytes)

include hx hl hn

theorem encodeBytes_split (hh : p.hdr.length ≤ 128) {k m : Nat} (hm : 0 < m) (hlt : k + m < n)
    (hk : k < 2 ^ 25) (hm' : m < 2 ^ 25) :
    p.encodeBytes n whole k m = .ok ((p.image.drop (128 * k)).take (128 * m)) := by
  have hko : wrap 32 (k * jrnlDblkSize) = 128 * k := by
    rw [jrnlDblkSize, wrap_of_lt (by omega), Nat.mul_comm]
  have hmo : wrap 32 (m * jrnlDblkSize) = 128 * m := by
    rw [jrnlDblkSize, wrap_of_lt (by omega), Nat.mul_comm]
  unfold encodeBytes
  simp only [hko, hmo]
  by_cases h0 : k = 0
  · rw [if_neg (fun hf => hf h0), if_pos (by omega), encodeFirst_eq hx (by omega) (by omega) (by omega),
      h0]
    rfl
  · rw [if_pos h0, if_pos (by rw [wsub_of_le (by omega) (by omega)]; omega),
      encodeMiddle_eq hx (by omega) (by omega) (by omega) (by omega)]

theorem encodeBytes_rest (hh : p.hdr.length ≤ 128) {k m : Nat} (hk0 : k = 0 ∨ k < n)
    (hge : n ≤ k + m) (hk : k < 2 ^ 25) :
    p.encodeBytes n (.ok p.image) k m = .ok (p.image.drop (128 * k)) := by
  have hko : wrap 32 (k * jrnlDblkSize) = 128 * k := by
    rw [jrnlDblkSize, wrap_of_lt (by omega), Nat.mul_comm]
  unfold encodeBytes
  simp only [hko]
  by_cases h0 : k = 0
  · rw [if_neg (fun hf => hf h0), if_neg (by omega), h0]
    rfl
  · rw [if_pos h0, if_neg (by rw [wsub_of_le (by omega) (by omega)]; omega),
      encodeLast_eq hx (by omega) (by omega) (by omega)]

/-- The blocks, with the number of dblks that `encode` returns. -/
theorem encodes (hh : 0 < p.hdr.length) (hh' : p.hdr.length ≤ 128)
    {encode : Nat → Nat → Except RecErr (Bytes × Nat)}
    (he : ∀ {k m : Nat}, 0 < m → encode k m =
      (p.encodeBytes n (.ok p.image) k m >>= fun out => pure (out, sizeDblks32 out.length))) :
    Encodes p.image n encode where
  size := hn
  split := by
    intro k m hm hlt hk hm'
    have hs : sizeDblks32 ((p.image.drop (128 * k)).take (128 * m)).length = m := by
      rw [List.length_take, List.length_drop, sizeDblks32_eq (by omega), wrap_of_lt (by omega)]
      omega
    rw [he hm, encodeBytes_split hx hl hn _ hh' hm hlt hk hm', except_ok_bind, hs]
    rfl
  rest := by
    intro k m hm hk0 hge hk
    have hs : sizeDblks32 (p.image.drop (128 * k)).length = n - k := by
      rw [List.length_drop, sizeDblks32_eq (by omega), wrap_of_lt (by omega)]
      omega
    rw [he hm, encodeBytes_rest hx hl hn hh' hk0 hge hk, except_ok_bind, hs]
    rfl
  wrapped := by
    intro m hm hm' _
    rw [he hm, encodeBytes_wrapped hx hl hh n _ hm hm', except_error_bind]

end Branches

end XidParts

/-! ## The records -/

@[simp] theorem length_deqHdr_bytes (h : DeqHdr) : h.bytes.length = DeqHdr.size := by
  simp only [DeqHdr.bytes, List.length_append, length_recHdr_bytes, length_leBytes]
  rfl

@[simp] theorem length_txnHdr_bytes (h : TxnHdr) : h.bytes.length = TxnHdr.size := by
  simp only [TxnHdr.bytes, List.length_append, length_recHdr_bytes, length_leBytes]
  rfl

namespace DeqRec

/-- A dequeue record as `reset` leaves it: of the constructor's magic, version and byte order, with the
tail of its header. -/
structure Sound (r : DeqRec) : Prop where
  xid : r.xidBytes.length = r.xidsize
  magic : r.deqHdr.magic = rhmJdatDeqMagic
  version : r.deqHdr.version = rhmJdatVersion
  eflag : r.deqHdr.eflag = rhmLendianFlag
  tail : r.deqTail = .ofHdr r.deqHdr.toRecHdr

/-- `wmgr::dequeue` resets the record that the constructor has made. -/
theorem resetWrite_sound (rid drid : UInt64) {xidp : Option Bytes} {xidlen : UInt64}
    (owi txnComlCommit : Bool) (hx : (xidp.getD []).length = xidlen.toNat) :
    (init.resetWrite rid drid xidp xidlen owi txnComlCommit).Sound where
  xid := hx
  magic := rfl
  version := rfl
  eflag := rfl
  tail := rfl

def image (r : DeqRec) : Bytes := if r.xidsize = 0 then r.deqHdr.bytes else r.parts.image

variable {r : DeqRec}

theorem image_length (h : r.Sound) : r.image.length = deqRecSize r.xidsize := by
  unfold image deqRecSize
  by_cases h0 : r.xidsize = 0
  · rw [if_pos h0, if_pos h0, length_deqHdr_bytes]
    rfl
  · have hi : r.parts.image.length = r.deqHdr.bytes.length + r.xidsize + 12 :=
      XidParts.image_length h.xid
    rw [if_neg h0, if_neg h0, hi, length_deqHdr_bytes]
    exact Nat.add_assoc _ _ _

theorem recSizeDblks_eq (h : r.Sound) : r.recSizeDblks = sizeDblks32 r.image.length := by
  rw [recSizeDblks, recSize, image_length h, sizeDblks32_wrap]

theorem xidp_of_sound (h : r.Sound) : r.xidp.isSome ∨ r.xidsize = 0 := by
  cases hx : r.xidp with
  | some b => exact .inl rfl
  | none =>
    right
    rw [← h.xid, xidBytes, hx]
    rfl

theorem recSizeDblks_lt (r : DeqRec) : r.recSizeDblks < 2 ^ 32 := Nat.mod_lt _ (by decide)

theorem encode_eq (h : r.Sound) {k m : Nat} (hm : 0 < m) : r.encode k m =
    (r.parts.encodeBytes r.recSizeDblks (.ok r.image) k m >>=
      fun out => pure (out, sizeDblks32 out.length)) := by
  have hw : r.encodeWhole = .ok r.image := by
    unfold encodeWhole image
    by_cases h0 : r.xidsize = 0
    · rw [if_neg (fun hf => hf h0), if_pos h0]
      rfl
    · rw [if_pos h0, if_neg h0]
      exact XidParts.encodeWhole_eq h.xid
  rw [encode, require_true hm, except_ok_bind, require_true (xidp_of_sound h), except_ok_bind, hw]

theorem encodes (h : r.Sound) (hl : r.image.length < 2 ^ 39 - 127) :
    Encodes r.image r.recSizeDblks r.encode := by
  have hlen := image_length h
  have hn : r.recSizeDblks = (r.image.length + 127) / 128 := by
    rw [recSizeDblks_eq h, sizeDblks32_eq (by omega), wrap_of_lt (by omega)]
  by_cases h0 : r.xidsize = 0
  · -- the header alone: there is one call
    have hone : r.recSizeDblks = 1 := by
      rw [hn, hlen, h0]
      decide
    constructor
    · exact hn
    · intro k m hm hlt
      omega
    · intro k m hm hk hge _
      have hk0 : k = 0 := by omega
      rw [hk0, encode_eq h hm, XidParts.encodeBytes_whole (by omega), except_ok_bind,
        ← recSizeDblks_eq h]
      rfl
    · intro m _ _ hgt
      omega
  · have himg : r.image = r.parts.image := if_neg h0
    have hh : r.parts.hdr.length = 32 := length_deqHdr_bytes _
    have he := fun {k m : Nat} => encode_eq h (k := k) (m := m)
    rw [himg] at hl hn he ⊢
    exact XidParts.encodes h.xid hl hn (by omega) (by omega) he

end DeqRec

namespace TxnRec

/-- A transaction record as `reset` leaves it. -/
structure Sound (r : TxnRec) : Prop where
  xid : r.xidBytes.length = r.xidsize
  nonempty : 0 < r.xidsize
  magic : r.txnHdr.magic = rhmJdatTxaMagic ∨ r.txnHdr.magic = rhmJdatTxcMagic
  version : r.txnHdr.version = rhmJdatVersion
  eflag : r.txnHdr.eflag = rhmLendianFlag
  tail : r.txnTail = .ofHdr r.txnHdr.toRecHdr

/-- `wmgr::abort` and `wmgr::commit` reset the record that the constructor has made. -/
theorem resetWrite_sound (rid : UInt64) {magic : UInt32} {xidp : Option Bytes} {xidlen : UInt64}
    (owi : Bool) (hm : magic = rhmJdatTxaMagic ∨ magic = rhmJdatTxcMagic)
    (hx : (xidp.getD []).length = xidlen.toNat) (h0 : 0 < xidlen.toNat) :
    (init.resetWrite magic rid xidp xidlen owi).Sound where
  xid := hx
  nonempty := h0
  magic := hm
  version := rfl
  eflag := rfl
  tail := rfl

def image (r : TxnRec) : Bytes := r.parts.image

variable {r : TxnRec}

theorem image_length (h : r.Sound) : r.image.length = txnRecSize r.xidsize := by
  have hi : r.parts.image.length = r.txnHdr.bytes.length + r.xidsize + 12 :=
    XidParts.image_length h.xid
  rw [image, hi, length_txnHdr_bytes]
  rfl

theorem recSizeDblks_eq (h : r.Sound) : r.recSizeDblks = sizeDblks32 r.image.length := by
  rw [recSizeDblks, recSize, image_length h, sizeDblks32_wrap]

theorem recSizeDblks_lt (r : TxnRec) : r.recSizeDblks < 2 ^ 32 := Nat.mod_lt _ (by decide)

theorem encode_eq (h : r.Sound) {k m : Nat} (hm : 0 < m) : r.encode k m =
    (r.parts.encodeBytes r.recSizeDblks (.ok r.image) k m >>=
      fun out => pure (out, sizeDblks32 out.length)) := by
  have hx : r.parts.xid.length = r.parts.xidsize := h.xid
  have hsome : r.xidp.isSome := by
    cases hp : r.xidp with
    | some b => rfl
    | none =>
      have hn := h.nonempty
      rw [← h.xid, xidBytes, hp] at hn
      exact absurd hn (Nat.lt_irrefl 0)
  rw [encode, require_true hm, except_ok_bind, require_true ⟨hsome, h.nonempty⟩, except_ok_bind,
    XidParts.encodeWhole_eq hx]
  rfl

theorem encodes (h : r.Sound) (hl : r.image.length < 2 ^ 39 - 127) :
    Encodes r.image r.recSizeDblks r.encode := by
  have hh : r.parts.hdr.length = 24 := length_txnHdr_bytes _
  have hn : r.recSizeDblks = (r.image.length + 127) / 128 := by
    rw [recSizeDblks_eq h, sizeDblks32_eq (by omega), wrap_of_lt (by omega)]
  exact XidParts.encodes h.xid hl hn (by omega) (by omega) (encode_eq h)

end TxnRec

end RhmStore
