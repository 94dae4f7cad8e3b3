import RhmStore.Rec.XidDecode

/-! # Reading an external enqueue record page by page

With no data in the journal, an enqueue record is a header, an xid and a tail, as a dequeue record is.
`enq_rec::decode` reads it as such where `dsize`, the size of the data that is elsewhere, is zero, or
where it does not ask for it. -/

namespace RhmStore.EnqRec

structure External (r : EnqRec) : Prop where
  xid : r.xidBytes.length = r.xidsize
  external : r.isExternal = true
  magic : r.enqHdr.magic = rhmJdatEnqMagic
  version : r.enqHdr.version = rhmJdatVersion
  eflag : r.enqHdr.eflag = rhmLendianFlag

def extParts (r : EnqRec) : XidParts :=
  ⟨r.enqHdr.bytes, r.xidBytes, r.xidsize, .ofHdr r.enqHdr.toRecHdr⟩

def xidBuf (r : EnqRec) : XidBuf := ⟨r.enqHdr.toRecHdr, EnqHdr.size, r.xidsize, r.buff, r.enqTail⟩

def setXidBuf (r : EnqRec) (b : XidBuf) : EnqRec := { r with buff := b.buff, enqTail := b.tail }

variable {r e : EnqRec} {page q rest : Bytes}

theorem extParts_length (h : r.External) : r.extParts.image.length = 44 + r.xidsize := by
  have hl : r.extParts.image.length = r.extParts.hdr.length + r.extParts.xidsize + 12 :=
    XidParts.image_length h.xid
  have hh : r.extParts.hdr.length = 32 := length_enqHdr_bytes _
  rw [hl, hh]
  show 32 + r.xidsize + 12 = _
  omega

theorem storable (h : r.External) (hl : 44 + r.xidsize < 2 ^ 32) :
    r.extParts.Storable r.enqHdr.toRecHdr where
  xid := h.xid
  hdr_le := by
    have hh : r.extParts.hdr.length = 32 := length_enqHdr_bytes _
    omega
  small := by
    rw [extParts_length h]
    omega
  tail := rfl

theorem External.recSizeDblks_eq (h : r.External) :
    r.recSizeDblks = sizeDblks32 (44 + r.xidsize) := by
  rw [EnqRec.recSizeDblks, recSize, enqRecSize, if_pos h.external, sizeDblks32_wrap, recTailSize]
  congr 1
  omega

/-! ## The blocks -/

/-- What a block does to the `XidBuf` of a record, done to the record. -/
def onBuf (e : EnqRec) (x : Except RecErr (XidBuf × Nat)) : Except RecErr (EnqRec × Nat) :=
  x >>= fun p => pure (e.setXidBuf p.1, p.2)

theorem readBuff_onBuf (e : EnqRec) (offs : Nat) (page : Bytes) (c n : Nat) :
    e.readBuff offs page c n = e.onBuf (e.xidBuf.readBuff offs page c n) := by
  unfold readBuff XidBuf.readBuff onBuf
  show _ = ((memcpy page c n >>= fun b => e.buff.elim _ _ >>= fun buff => _) >>= _)
  cases memcpy page c n with
  | error => rfl
  | ok b =>
    rw [except_ok_bind, except_ok_bind]
    cases (e.buff.elim (.error .outside) (memcpyTo · offs b) : Except RecErr Bytes) with
    | error => rfl
    | ok buff => rfl

theorem readTail_onBuf (e : EnqRec) (offs : Nat) (page : Bytes) (c n : Nat) :
    e.readTail offs page c n = e.onBuf (e.xidBuf.readTail offs page c n) := by
  unfold readTail XidBuf.readTail onBuf
  show _ = ((memcpy page c n >>= fun b => memcpyTo e.enqTail.bytes offs b >>= fun t => _) >>= _)
  cases memcpy page c n with
  | error => rfl
  | ok b =>
    rw [except_ok_bind, except_ok_bind]
    cases memcpyTo e.enqTail.bytes offs b with
    | error => rfl
    | ok t => rfl

theorem finishTail_onBuf (e : EnqRec) (offs : Nat) (page : Bytes) (c n : Nat) :
    e.finishTail offs page c n = e.onBuf (e.xidBuf.finishTail offs page c n) := by
  rw [finishTail, readTail_onBuf, XidBuf.finishTail]
  unfold onBuf XidBuf.readTail
  cases memcpy page c n with
  | error => rfl
  | ok b =>
    rw [except_ok_bind]
    cases memcpyTo e.xidBuf.tail.bytes offs b with
    | error => rfl
    | ok t =>
      rw [except_ok_bind]
      show ((RecTail.ofBytes t).chkTail e.enqHdr.toRecHdr >>= _) =
        (((RecTail.ofBytes t).chkTail e.enqHdr.toRecHdr >>= fun _ =>
          pure ({ e.xidBuf with tail := .ofBytes t }, c + n)) >>= _)
      cases (RecTail.ofBytes t).chkTail e.enqHdr.toRecHdr <;> rfl

theorem onBuf_readBuff_bind {offs c n : Nat} {f : EnqRec × Nat → Except RecErr (EnqRec × Nat)}
    {g : XidBuf × Nat → Except RecErr (XidBuf × Nat)}
    (hf : ∀ (b : Bytes) (c : Nat), f ({ e with buff := some b }, c) =
      { e with buff := some b }.onBuf (g ({ e with buff := some b }.xidBuf, c))) :
    (e.onBuf (e.xidBuf.readBuff offs page c n) >>= f) =
      e.onBuf (e.xidBuf.readBuff offs page c n >>= g) := by
  unfold onBuf XidBuf.readBuff at *
  cases memcpy page c n with
  | error => rfl
  | ok b =>
    rw [except_ok_bind]
    cases (e.xidBuf.buff.elim (.error .outside) (memcpyTo · offs b) : Except RecErr Bytes) with
    | error => rfl
    | ok buff =>
      show f ({ e with buff := some buff }, c + n) = _
      rw [hf]
      rfl

theorem onlyIf_readTail_onBuf (e : EnqRec) (page : Bytes) (c n : Nat) :
    onlyIf (n ≠ 0) (e.readTail 0 page c n) (e, c) =
      e.onBuf (onlyIf (n ≠ 0) (e.xidBuf.readTail 0 page c n) (e.xidBuf, c)) := by
  by_cases h0 : n = 0
  · rw [onlyIf_false (fun hf => hf h0), onlyIf_false (fun hf => hf h0)]
    rfl
  · rw [onlyIf_true h0, onlyIf_true h0]
    exact readTail_onBuf e 0 page c n

/-! ## The branches -/

/-- The object has the header of the record, with which it fits in all of `decode`'s types. -/
structure HasHdr (r e : EnqRec) : Prop where
  hdr : e.enqHdr = r.enqHdr
  external : e.isExternal = true
  small : 44 + e.xidsize < 2 ^ 32

theorem hasHdr (h : r.External) (hl : 44 + r.xidsize < 2 ^ 32) (he : e.enqHdr = r.enqHdr) :
    HasHdr r e where
  hdr := he
  external := by
    rw [isExternal, he]
    exact h.external
  small := by
    rw [xidsize, he]
    exact hl

theorem HasHdr.setBuff (h : HasHdr r e) (b : Bytes) : HasHdr r { e with buff := some b } :=
  ⟨h.hdr, h.external, h.small⟩

section Branches

variable (h : HasHdr r e)

include h

theorem HasHdr.tailDblks : sizeDblks32 e.hdrXidDataTailSize = e.xidBuf.hdrXidTailDblks := by
  have hl := h.small
  have hd : e.hdrXidDataSize = 32 + e.xidsize := by
    rw [hdrXidDataSize, storedDsize, if_pos h.external, EnqHdr.size, wrap_of_lt (w := 64) (by omega),
      wrap_of_lt (by omega), Nat.add_zero]
  have hs : wrap 64 (32 + e.xidsize + recTailSize) = 44 + e.xidsize := by
    rw [recTailSize, wrap_of_lt (by omega)]
    omega
  rw [hdrXidDataTailSize, hd, hs, wrap_of_lt (by omega)]
  exact congrArg sizeDblks32 hs.symm

theorem HasHdr.dataDblks : sizeDblks32 e.hdrXidDataSize = e.xidBuf.hdrXidDblks := by
  have hl := h.small
  have hs : wrap 64 (EnqHdr.size + e.xidsize) = 32 + e.xidsize := wrap_of_lt (by rw [EnqHdr.size]; omega)
  rw [hdrXidDataSize, storedDsize, if_pos h.external, Nat.add_zero, hs, wrap_of_lt (by omega)]
  exact congrArg sizeDblks32 hs.symm

theorem HasHdr.xidDblks : e.hdrXidSize = e.hdrXidDataSize := by
  rw [hdrXidDataSize, storedDsize, if_pos h.external]
  rfl

theorem HasHdr.decodeBody_eq (h0 : e.xidsize ≠ 0) (page : Bytes) (m : Nat) :
    e.decodeBody page m = e.onBuf (e.xidBuf.decodeBody page m) := by
  have hw : e.readWholeXidData page = e.onBuf (e.xidBuf.readBuff 0 page EnqHdr.size e.xidsize) := by
    rw [readWholeXidData, onlyIf_true h0, readBuff_onBuf]
    have hskip : ∀ x : Except RecErr (EnqRec × Nat), (x >>= fun p =>
        onlyIf (e.dsize ≠ 0 ∧ ¬e.isExternal) (p.1.readBuff e.xidsize page p.2 e.dsize) p) = x := by
      intro x
      cases x with
      | error => rfl
      | ok p => exact onlyIf_false (fun hf => hf.2 h.external) _ _
    exact hskip _
  unfold decodeBody XidBuf.decodeBody
  simp only [h.tailDblks, h.dataDblks, h.xidDblks, hw]
  show _ = e.onBuf (if _ then e.xidBuf.readBuff 0 page EnqHdr.size e.xidsize >>= _
    else if _ then e.xidBuf.readBuff 0 page EnqHdr.size e.xidsize >>= _ else _)
  split
  · exact onBuf_readBuff_bind (fun b c => finishTail_onBuf _ 0 page c recTailSize)
  · split
    · exact onBuf_readBuff_bind (fun b c => onlyIf_readTail_onBuf _ page c _)
    · exact readBuff_onBuf _ _ _ _ _

theorem HasHdr.tailDblks_eq : e.xidBuf.hdrXidTailDblks = (44 + e.xidsize + 127) / 128 := by
  have hl := h.small
  have hs : EnqHdr.size + e.xidsize + recTailSize = 44 + e.xidsize := by
    rw [EnqHdr.size, recTailSize]
    omega
  show sizeDblks32 (wrap 64 (EnqHdr.size + e.xidsize + recTailSize)) = _
  rw [hs, wrap_of_lt (w := 64) (by omega), sizeDblks32_of_lt hl]

theorem HasHdr.dataDblks_eq : e.xidBuf.hdrXidDblks = (32 + e.xidsize + 127) / 128 := by
  have hl := h.small
  show sizeDblks32 (wrap 64 (32 + e.xidsize)) = _
  rw [wrap_of_lt (w := 64) (by omega), sizeDblks32_of_lt (by omega)]

theorem HasHdr.decodeNext_xid {k m : Nat} (hx : 128 * (k + m) < 32 + e.xidsize) (page : Bytes) :
    e.decodeNext page k m = e.onBuf (e.xidBuf.decodeNext page k m) := by
  have hl := h.small
  unfold decodeNext XidBuf.decodeNext
  simp only [h.tailDblks, h.dataDblks, h.tailDblks_eq, h.dataDblks_eq]
  rw [wsub_of_le (show k ≤ (44 + e.xidsize + 127) / 128 by omega) (by omega),
    wsub_of_le (show k ≤ (32 + e.xidsize + 127) / 128 by omega) (by omega), if_neg (by omega),
    if_neg (by omega), if_neg (by omega), if_neg (by omega)]
  exact readBuff_onBuf _ _ _ _ _

theorem HasHdr.decodeNext_eq (hz : e.dsize = 0) {k m : Nat} (hk : 0 < k) (hm : 0 < m)
    (hlt : k < (44 + e.xidsize + 127) / 128) (page : Bytes) :
    e.decodeNext page k m = e.onBuf (e.xidBuf.decodeNext page k m) := by
  have hl := h.small
  have hko : wrap 32 (k * jrnlDblkSize) = 128 * k := by
    rw [jrnlDblkSize, wrap_of_lt (by omega), Nat.mul_comm]
  have hoffs : wsub 64 (128 * k) EnqHdr.size = 128 * k - 32 :=
    wsub_of_le (show 32 ≤ 128 * k by omega) (by omega)
  have hout : e.outstanding (128 * k - 32) ↔ 128 * k - 32 < e.xidsize := by
    rw [outstanding, h.external]
    simp only [not_true_eq_false, and_false, or_false]
  have hread : 128 * k - 32 < e.xidsize → e.readXidData (128 * k - 32) page =
      e.onBuf (e.xidBuf.readBuff (128 * k - 32) page 0 (wsub 64 e.xidsize (128 * k - 32))) := by
    intro hlt
    have hx : wrap 64 (e.xidsize + e.dsize) = e.xidsize := by rw [hz, wrap_of_lt (by omega), Nat.add_zero]
    unfold readXidData
    simp only [hx]
    rw [if_pos hlt]
    exact readBuff_onBuf _ _ _ _ _
  have htail : ∀ o, o < 2 ^ 64 → wsub 64 o e.dsize = o := by
    intro o ho
    rw [hz, wsub_of_le (Nat.zero_le o) ho, Nat.sub_zero]
  have hhs : e.xidBuf.hdrSize = EnqHdr.size := rfl
  have hxs : e.xidBuf.xidsize = e.xidsize := rfl
  unfold decodeNext XidBuf.decodeNext
  simp only [h.tailDblks, h.dataDblks, h.tailDblks_eq, h.dataDblks_eq, hhs, hxs, hko, hoffs]
  rw [wsub_of_le (Nat.le_of_lt hlt) (by omega)]
  split
  · by_cases hx : 128 * k - 32 < e.xidsize
    · rw [if_pos (hout.mpr hx), if_pos hx, hread hx]
      exact onBuf_readBuff_bind (fun b c => finishTail_onBuf _ 0 page c recTailSize)
    · rw [if_neg (fun hf => hx (hout.mp hf)), if_neg hx, htail _ (wsub_lt 64 _ _)]
      exact finishTail_onBuf _ _ _ _ _
  · rename_i hmore
    have hx : 128 * k - 32 < e.xidsize := by omega
    split
    · rw [onlyIf_true (hout.mpr hx), hread hx]
      exact onBuf_readBuff_bind (fun b c => onlyIf_readTail_onBuf _ page c _)
    · exact readBuff_onBuf _ _ _ _ _

end Branches

/-! ## Reading -/

theorem readNext_eq_readAll (hd : RecHdr) (e : EnqRec) (k : Nat) (pages : List Bytes) :
    readNext hd e k pages = readAll recSizeDblks (fun e => e.decode hd) e k pages := by
  induction pages generalizing e k with
  | nil => rfl
  | cons p pages ih =>
    rw [readNext, readAll]
    simp only [ih]

/-- The header is read, and found right. The data is not asked for, so without an xid there is nothing
left to read. -/
theorem decodeStart_ext (h : r.External) {c : Bytes} (hw : page ++ q = r.enqHdr.bytes ++ c)
    (hp : 32 ≤ page.length) (e : EnqRec) (m : Nat) : ∃ e' : EnqRec, e'.enqHdr = r.enqHdr ∧
      e'.enqTail = e.enqTail ∧ e'.buff = e.buff ∧ e.decodeStart r.enqHdr.toRecHdr page m =
        onlyIf (r.xidsize ≠ 0)
          (decodeBody { e' with buff := some (List.replicate r.xidsize 0) } page m) (e', 32) := by
  have hx : memcpy page 16 8 = .ok (leBytes 8 r.enqHdr.xidsize.toNat) := by
    rw [EnqHdr.bytes, List.append_assoc, List.append_assoc] at hw
    exact memcpy_part hw (length_recHdr_bytes _) (length_leBytes 8 _) (by omega)
  have hd : memcpy page 24 8 = .ok (leBytes 8 r.enqHdr.dsize.toNat) := by
    rw [EnqHdr.bytes, List.append_assoc] at hw
    exact memcpy_part hw (by rw [List.length_append, length_recHdr_bytes, length_leBytes])
      (length_leBytes 8 _) (by omega)
  have hchk : ({ e with enqHdr := r.enqHdr } : EnqRec).chkHdr = .ok () := by
    have hm : r.enqHdr.magic ≠ 0 := by
      rw [h.magic]
      decide
    rw [chkHdr, RecHdr.chkHdr, require_true ⟨hm, h.version, h.eflag⟩, except_ok_bind,
      require_true h.magic]
  have hlen : wrap 64 (r.xidsize + r.storedDsize) = r.xidsize := by
    rw [storedDsize, if_pos h.external, Nat.add_zero]
    exact wrap_of_lt r.enqHdr.xidsize.toNat_lt
  have hhdr : (⟨r.enqHdr.toRecHdr, r.enqHdr.xidsize, r.enqHdr.dsize⟩ : EnqHdr) = r.enqHdr := rfl
  have hxs : ({ e with enqHdr := r.enqHdr } : EnqRec).xidsize = r.xidsize := rfl
  have hsd : ({ e with enqHdr := r.enqHdr } : EnqRec).storedDsize = r.storedDsize := rfl
  refine ⟨{ e with enqHdr := r.enqHdr }, rfl, rfl, rfl, ?_⟩
  rw [decodeStart, hx, except_ok_bind, hd, except_ok_bind]
  simp only [ofNat_leNat, hhdr, hchk, except_ok_bind, hxs, hsd, hlen]
  rfl

theorem readEnq_ext {c : Bytes} (hw : page ++ q = r.enqHdr.bytes ++ c) (hp : WholeDblks page)
    (e : EnqRec) (pages : List Bytes) : e.readEnq page pages =
      ((e.resetRead.decodeStart r.enqHdr.toRecHdr page (dblksRem page) >>=
        fun x => pure (x.1, sizeDblks32 x.2)) >>=
        fun x => readNext r.enqHdr.toRecHdr x.1 x.2 pages) := by
  have hpos := hp.dblksRem_pos
  have hlen := hp.length_eq
  have hh : memcpy page 0 RecHdr.size = .ok r.enqHdr.toRecHdr.bytes := by
    rw [EnqHdr.bytes, List.append_assoc, List.append_assoc] at hw
    exact memcpy_part (a := []) hw rfl (length_recHdr_bytes _) (show 0 + 16 ≤ _ by omega)
  rw [readEnq, hh, except_ok_bind, RecHdr.ofBytes_bytes, decode, require_true hpos, except_ok_bind,
    decodeBytes, if_neg (fun hf => hf rfl)]

theorem decodeStart_xid (h : r.External) (hl : 44 + r.xidsize < 2 ^ 32) (h0 : r.xidsize ≠ 0) {c : Bytes}
    (hw : page ++ q = r.enqHdr.bytes ++ c) (hp : 32 ≤ page.length) (e : EnqRec) (m : Nat) :
    ∃ e' : EnqRec, e'.enqHdr = r.enqHdr ∧ e.decodeStart r.enqHdr.toRecHdr page m =
      e'.onBuf (e'.xidBuf.alloc.decodeBody page m) := by
  obtain ⟨e', he, -, -, hstart⟩ := decodeStart_ext h hw hp e m
  have hx : e'.xidsize = r.xidsize := by rw [xidsize, he, xidsize]
  have hh := (hasHdr h hl he).setBuff (List.replicate e'.xidsize 0)
  refine ⟨e', he, ?_⟩
  rw [hstart, onlyIf_true h0, ← hx]
  exact hh.decodeBody_eq (by rw [← hx] at h0; exact h0) page m

theorem xidBuf_setXidBuf (he : e.enqHdr = r.enqHdr) {b : XidBuf}
    (hb : XidBuf.Of r.extParts r.enqHdr.toRecHdr b) : (e.setXidBuf b).xidBuf = b := by
  have hh : r.extParts.hdr.length = EnqHdr.size := length_enqHdr_bytes _
  obtain ⟨hdr, hdrSize, xidsize, buff, tail⟩ := b
  obtain ⟨rfl, rfl, rfl⟩ := hb
  show XidBuf.mk e.enqHdr.toRecHdr EnqHdr.size e.xidsize buff tail = _
  rw [EnqRec.xidsize, he, hh]
  rfl

theorem reader (h : r.External) (hl : 44 + r.xidsize < 2 ^ 32) (hz : r.dsize = 0) :
    XidBuf.Reader r.extParts r.enqHdr.toRecHdr r.recSizeDblks (fun e => e.enqHdr = r.enqHdr) xidBuf
      setXidBuf recSizeDblks (fun e => e.decode r.enqHdr.toRecHdr) := by
  have hh : r.extParts.hdr.length = EnqHdr.size := length_enqHdr_bytes _
  have hn : r.recSizeDblks = (44 + r.xidsize + 127) / 128 := by
    rw [h.recSizeDblks_eq, sizeDblks32_of_lt hl]
  constructor
  · exact storable h hl
  · rw [hn, extParts_length h]
  · intro e he
    exact recSizeDblks_congr he
  · intro e b he
    exact he
  · intro e b he hb
    exact xidBuf_setXidBuf he hb
  · intro e he
    have hx : e.xidsize = r.xidsize := by rw [xidsize, he, xidsize]
    exact ⟨congrArg EnqHdr.toRecHdr he, hh.symm, hx⟩
  · intro e page k m he hk hlt hm
    have hx : e.xidsize = r.xidsize := by rw [xidsize, he, xidsize]
    have hd : e.dsize = 0 := by rw [← hz, dsize, he, dsize]
    rw [decode, require_true hm, except_ok_bind, decodeBytes, if_pos (Nat.ne_of_gt hk),
      (hasHdr h hl he).decodeNext_eq hd hk hm (by rw [hx, ← hn]; exact hlt)]
    unfold onBuf
    cases e.xidBuf.decodeNext page k m <;> rfl

/-! ## Sizes and cuts -/

/-- The calls of `decode` after the first: dblks read before, and dblks of the page. -/
def calls (n : Nat) : Nat → List Nat → List (Nat × Nat)
  | _, [] => []
  | k, m :: ms => if k < n then (k, m) :: calls n (k + m) ms else []

/-- What the call at dblk `k` of an external record computes from its sizes is right: the sum of all
sizes, held in 32 bits; what is left of the xid, on the page on which it ends; what has been read of the
tail, on a page that starts behind the xid. -/
structure SizesExact (r : EnqRec) (k m : Nat) : Prop where
  sum : 32 + r.xidsize + r.storedDsize + recTailSize < 2 ^ 32
  rem : 0 < k → 128 * k < 32 + r.xidsize → 32 + r.xidsize ≤ 128 * (k + m) →
    r.xidsize + r.dsize < 2 ^ 64
  tailOffs : 0 < k → 32 + r.xidsize ≤ 128 * k → 32 + r.xidsize + r.dsize ≤ 128 * k

/-- Over pages of these dblks, whatever is behind the record, the calls compute no wrong size, copy within
`_buff`, tail and page, and end with the xid and a tail that passes. -/
def ReadsBack (r : EnqRec) (first : Nat) (sizes : List Nat) : Prop :=
  r.SizesExact 0 first ∧ (∀ c ∈ calls r.recSizeDblks first sizes, r.SizesExact c.1 c.2) ∧
  ∀ (e : EnqRec) (page : Bytes) (pages : List Bytes) (rest : Bytes),
    e.enqTail.xmagic = ~~~rhmJdatEnqMagic → page.length = 128 * first →
    pages.map List.length = sizes.map (128 * ·) →
    (page :: pages).flatten = r.extParts.image ++ rest →
    ∃ e', e.readEnq page pages = .ok (e', r.recSizeDblks) ∧ Gives e'.getXid r.xidBytes ∧
      e'.chkTail = .ok ()

theorem wholeDblks_of_sizes {pages : List Bytes} {ms : List Nat} (hpos : ∀ m ∈ ms, 0 < m)
    (h : pages.map List.length = ms.map (128 * ·)) : ∀ p ∈ pages, WholeDblks p := by
  intro p hp
  have hl : p.length ∈ ms.map (128 * ·) := by
    rw [← h]
    exact List.mem_map_of_mem hp
  obtain ⟨m, hm, he⟩ := List.mem_map.mp hl
  have hm0 := hpos m hm
  exact ⟨by omega, m, he.symm⟩

theorem map_dblksRem {pages : List Bytes} {ms : List Nat}
    (h : pages.map List.length = ms.map (128 * ·)) : pages.map dblksRem = ms := by
  have hd : pages.map dblksRem = (pages.map List.length).map (· / 128) := by
    rw [List.map_map]
    rfl
  rw [hd, h, List.map_map]
  conv_rhs => rw [← List.map_id ms]
  apply List.map_congr_left
  intro m _
  exact Nat.mul_div_cancel_left m (by decide)

theorem length_flatten {pages : List Bytes} {ms : List Nat}
    (h : pages.map List.length = ms.map (128 * ·)) : pages.flatten.length = 128 * total ms := by
  induction pages generalizing ms with
  | nil =>
    rw [List.map_eq_nil_iff.mp h.symm]
    rfl
  | cons p pages ih =>
    cases ms with
    | nil => cases h
    | cons m ms =>
      obtain ⟨hp, hps⟩ := List.cons.inj h
      rw [List.flatten_cons, List.length_append, ih hps, total, hp, Nat.mul_add]

theorem exists_pages (ms : List Nat) {b : Bytes} (hb : b.length = 128 * total ms) :
    ∃ pages : List Bytes, pages.map List.length = ms.map (128 * ·) ∧ pages.flatten = b := by
  induction ms generalizing b with
  | nil => exact ⟨[], rfl, (List.eq_nil_of_length_eq_zero hb).symm⟩
  | cons m ms ih =>
    rw [total] at hb
    obtain ⟨pages, hl, hf⟩ := ih (b := b.drop (128 * m)) (by rw [List.length_drop]; omega)
    refine ⟨b.take (128 * m) :: pages, ?_, ?_⟩
    · rw [List.map_cons, List.map_cons, hl, List.length_take_of_le (by omega)]
    · rw [List.flatten_cons, hf, List.take_append_drop]

/-! ## What is read back -/

theorem readEnq_bare (h : r.External) {pages : List Bytes}
    (hpages : ∀ p ∈ page :: pages, WholeDblks p)
    (hw : (page :: pages).flatten = r.extParts.image ++ rest) (h0 : r.xidsize = 0) (e : EnqRec) :
    ∃ e', e.readEnq page pages = .ok (e', r.recSizeDblks) ∧ e'.enqHdr = r.enqHdr ∧
      e'.enqTail = ⟨e.enqTail.xmagic, 0⟩ ∧ e'.buff = none := by
  have hp := hpages page List.mem_cons_self
  have hpos := hp.dblksRem_pos
  have hlen := hp.length_eq
  have hone : r.recSizeDblks = 1 := by
    rw [h.recSizeDblks_eq, h0]
    decide
  have hc : sizeDblks32 32 = 1 := by decide
  rw [List.flatten_cons, XidParts.image, List.append_assoc] at hw
  obtain ⟨e', he, ht, hb, hstart⟩ := decodeStart_ext h hw (by omega) e.resetRead (dblksRem page)
  rw [readEnq_ext hw hp, hstart, onlyIf_false (fun hf => hf h0), except_ok_bind]
  show ∃ e'', readNext _ e' (sizeDblks32 32) pages = _ ∧ _
  rw [hc, hone, readNext_done _ (Nat.le_of_eq ((recSizeDblks_congr he).trans hone))]
  exact ⟨e', rfl, he, ht, hb⟩

section Reads

variable (h : r.External) (hl : 44 + r.xidsize < 2 ^ 32) {pages : List Bytes}
  (hpages : ∀ p ∈ page :: pages, WholeDblks p)
  (hw : (page :: pages).flatten = r.extParts.image ++ rest)

include h hl hpages hw

theorem readEnq_xid (h0 : r.xidsize ≠ 0) (hlong : 128 * r.recSizeDblks ≤ (r.extParts.image ++ rest).length)
    (hd : r.dsize = 0 ∨ r.recSizeDblks ≤ dblksRem page) (e : EnqRec) :
    ∃ e', e.readEnq page pages = .ok (e', r.recSizeDblks) ∧ e'.enqHdr = r.enqHdr ∧
      XidBuf.Done r.extParts r.enqHdr.toRecHdr e'.xidBuf := by
  have hp := hpages page List.mem_cons_self
  have hpos := hp.dblksRem_pos
  have hlen := hp.length_eq
  have hf := hw
  rw [List.flatten_cons, XidParts.image, List.append_assoc] at hf
  obtain ⟨e1, he1, hstart⟩ := decodeStart_xid h hl h0 hf (by omega) e.resetRead (dblksRem page)
  rw [readEnq_ext hf hp, hstart]
  rcases hd with hz | hfirst
  · simp only [readNext_eq_readAll]
    exact (reader h hl hz).readAll_eq hpages hw hlong he1
  · have hx : e1.xidsize = r.xidsize := by rw [xidsize, he1, xidsize]
    have hn : r.recSizeDblks = (r.extParts.image.length + 127) / 128 := by
      rw [h.recSizeDblks_eq, sizeDblks32_of_lt hl, extParts_length h]
    have hsize : sizeDblks32 r.extParts.image.length = r.recSizeDblks := by
      rw [extParts_length h, h.recSizeDblks_eq]
    have ho : XidBuf.Of r.extParts r.enqHdr.toRecHdr e1.xidBuf.alloc :=
      ⟨congrArg EnqHdr.toRecHdr he1, (length_enqHdr_bytes _).symm, hx⟩
    have hb : XidBuf.BuffUpto r.extParts e1.xidBuf.alloc 0 :=
      ⟨_, rfl, List.length_replicate.trans hx, rfl⟩
    have hw' := hw
    rw [List.flatten_cons] at hw'
    obtain ⟨b, hb', hdone⟩ := XidBuf.decodeBody_last (storable h hl) hn ho hb hw' hfirst hlen
    rw [hb']
    show ∃ e'', readNext _ (e1.setXidBuf b) (sizeDblks32 r.extParts.image.length) pages = _ ∧ _
    rw [hsize, readNext_done _ (Nat.le_of_eq (recSizeDblks_congr (e := e1.setXidBuf b) he1))]
    refine ⟨e1.setXidBuf b, rfl, he1, ?_⟩
    rw [xidBuf_setXidBuf he1 hdone.toOf]
    exact hdone

end Reads

/-! ## What is not read back -/

/-- The page on which the xid ends, with more data than none: as much as if the data were there is copied
behind the xid. -/
theorem decodeNext_outside (h : HasHdr r e) (hx : e.xidsize = r.xidsize) (hd : 0 < e.dsize)
    (hsum : e.xidsize + e.dsize < 2 ^ 64) {k m : Nat} (hk : 0 < k) (hm : 0 < m)
    (hlt : 128 * k < 32 + e.xidsize) (hge : 32 + e.xidsize ≤ 128 * (k + m))
    (hb : XidBuf.BuffUpto r.extParts e.xidBuf (128 * k - 32)) (page : Bytes) :
    e.decodeNext page k m = .error .outside := by
  have hl := h.small
  obtain ⟨b, hbuf, hbl, -⟩ := hb
  have hbl' : b.length = e.xidsize := by
    rw [hbl, hx]
    rfl
  have hbuf' : e.buff = some b := hbuf
  have hko : wrap 32 (k * jrnlDblkSize) = 128 * k := by
    rw [jrnlDblkSize, wrap_of_lt (by omega), Nat.mul_comm]
  have hoffs : wsub 64 (128 * k) EnqHdr.size = 128 * k - 32 :=
    wsub_of_le (show 32 ≤ 128 * k by omega) (by omega)
  have hxo : 128 * k - 32 < e.xidsize := by omega
  have hread : e.readXidData (128 * k - 32) page = .error .outside := by
    unfold readXidData
    simp only [wrap_of_lt hsum]
    rw [if_pos hxo, wsub_of_le (by omega) hsum, readBuff, memcpy, readAt]
    by_cases hp : 0 + (e.xidsize + e.dsize - (128 * k - 32)) ≤ page.length
    · have hlen : ((page.drop 0).take (e.xidsize + e.dsize - (128 * k - 32))).length =
          e.xidsize + e.dsize - (128 * k - 32) := by
        rw [List.length_take, List.length_drop]
        omega
      have hto : memcpyTo b (128 * k - 32) ((page.drop 0).take
          (e.xidsize + e.dsize - (128 * k - 32))) = .error .outside := by
        rw [memcpyTo, writeAt, hlen, if_neg (by omega)]
        rfl
      rw [if_pos hp, hbuf']
      show (memcpyTo b _ _ >>= _) = _
      rw [hto]
      rfl
    · rw [if_neg hp]
      rfl
  have hout : e.outstanding (128 * k - 32) := .inl hxo
  unfold decodeNext
  simp only [h.tailDblks, h.dataDblks, h.tailDblks_eq, h.dataDblks_eq, hko, hoffs]
  rw [if_pos hout, onlyIf_true hout, hread, except_error_bind, except_error_bind,
    wsub_of_le (show k ≤ (32 + e.xidsize + 127) / 128 by omega) (by omega),
    if_pos (show (32 + e.xidsize + 127) / 128 - k ≤ m by omega)]
  split <;> rfl

theorem readNext_outside (h : r.External) (hl : 44 + r.xidsize < 2 ^ 32) (hd : 0 < r.dsize)
    {pages : List Bytes} (hpages : ∀ p ∈ pages, WholeDblks p) {k : Nat} (hk : 0 < k)
    (hlt : 128 * k < 32 + r.xidsize) (he : e.enqHdr = r.enqHdr)
    (hg : XidBuf.Got r.extParts r.enqHdr.toRecHdr e.xidBuf k)
    (hw : pages.flatten = (r.extParts.image ++ rest).drop (128 * k))
    (hlong : 44 + r.xidsize ≤ 128 * k + pages.flatten.length)
    (hs : ∀ c ∈ calls r.recSizeDblks k (pages.map dblksRem), r.SizesExact c.1 c.2) :
    readNext r.enqHdr.toRecHdr e k pages = .error .outside := by
  have hn : r.recSizeDblks = (44 + r.xidsize + 127) / 128 := by
    rw [h.recSizeDblks_eq, sizeDblks32_of_lt hl]
  induction pages generalizing e k with
  | nil =>
    rw [List.flatten_nil, List.length_nil] at hlong
    omega
  | cons p pages ih =>
    have hp := hpages p List.mem_cons_self
    have hlen := hp.length_eq
    have hpos := hp.dblksRem_pos
    have hh := hasHdr h hl he
    have hx : e.xidsize = r.xidsize := by rw [xidsize, he, xidsize]
    have hds : e.dsize = r.dsize := by rw [dsize, he, dsize]
    have hk0 : k ≠ 0 := by omega
    rw [List.flatten_cons] at hw hlong
    rw [List.length_append] at hlong
    rw [List.map_cons, calls, if_pos (by omega)] at hs
    rw [readNext, recSizeDblks_congr he, if_pos (by omega), decode, require_true hpos, except_ok_bind,
      decodeBytes, if_pos hk0]
    by_cases hend : 32 + r.xidsize ≤ 128 * (k + dblksRem p)
    · have hsum := (hs _ List.mem_cons_self).rem hk hlt hend
      rw [decodeNext_outside hh hx (by omega) (by omega) hk hpos (by omega) (by omega) hg.buff]
      rfl
    · obtain ⟨b, hb, hg'⟩ := XidBuf.decodeNext_more (storable h hl) (by rw [extParts_length h]) hk hpos
        (show k + dblksRem p < (44 + r.xidsize + 127) / 128 by omega) hg hw hlen
      have hc : sizeDblks32 (128 * dblksRem p) = dblksRem p := by
        rw [sizeDblks32_of_lt (by omega)]
        omega
      have hw' : pages.flatten = (r.extParts.image ++ rest).drop (128 * (k + dblksRem p)) := by
        rw [Nat.mul_add, ← List.drop_drop, ← hw, ← hlen, List.drop_left]
      have hbuf := xidBuf_setXidBuf he hg'.toOf
      rw [hh.decodeNext_xid (by omega), hb]
      show readNext _ (e.setXidBuf b) (k + sizeDblks32 (128 * dblksRem p)) pages = _
      rw [hc]
      rw [← hbuf] at hg'
      exact ih (e := e.setXidBuf b) (fun q hq => hpages q (List.mem_cons_of_mem _ hq)) (by omega)
        (by omega) he hg' hw' (by omega) (fun c hc => hs c (List.mem_cons_of_mem _ hc))

/-- A page that starts inside of the tail, `j` bytes behind its start: it is taken for one that starts
`dsize` bytes before. -/
theorem decodeNext_tail (h : HasHdr r e) (hd : e.dsize ≤ 12) {k m j : Nat} (hm : 0 < m)
    (hj : 128 * k = 32 + e.xidsize + j) (hj12 : j < 12) (hle : e.dsize ≤ j) (page : Bytes) :
    e.decodeNext page k m = e.finishTail (j - e.dsize) page 0 (12 - j + e.dsize) := by
  have hl := h.small
  have hko : wrap 32 (k * jrnlDblkSize) = 128 * k := by
    rw [jrnlDblkSize, wrap_of_lt (by omega), Nat.mul_comm]
  have hoffs : wsub 64 (128 * k) EnqHdr.size = 128 * k - 32 :=
    wsub_of_le (show 32 ≤ 128 * k by omega) (by omega)
  have hout : ¬e.outstanding (128 * k - 32) := by
    rw [outstanding, h.external]
    simp only [not_true_eq_false, and_false, or_false]
    omega
  unfold decodeNext
  simp only [h.tailDblks, h.tailDblks_eq, hko, hoffs]
  rw [wsub_of_le (show k ≤ (44 + e.xidsize + 127) / 128 by omega) (by omega), if_pos (by omega),
    if_neg hout, wsub_of_le (a := 128 * k - 32) (by omega) (by omega), wsub_of_le (by omega) (by omega),
    wsub_of_le (show 128 * k - 32 - e.xidsize - e.dsize ≤ recTailSize by rw [recTailSize]; omega)
      (by decide), recTailSize,
    show 128 * k - 32 - e.xidsize - e.dsize = j - e.dsize by omega,
    show 12 - (j - e.dsize) = 12 - j + e.dsize by omega]

theorem finishTail_ok {o n : Nat} (hn : o + n = 12) {p : Bytes} {x : EnqRec × Nat}
    (hf : e.finishTail o p 0 n = .ok x) :
    (RecTail.ofHdr e.enqHdr.toRecHdr).bytes.drop o = p.take n := by
  have htl : e.enqTail.bytes.length = 12 := length_recTail_bytes _
  rw [finishTail, readTail, memcpy, readAt] at hf
  by_cases hp : 0 + n ≤ p.length
  · have hlen : ((p.drop 0).take n).length = n := by
      rw [List.length_take, List.length_drop]
      omega
    have hto : memcpyTo e.enqTail.bytes o ((p.drop 0).take n) =
        .ok (e.enqTail.bytes.take o ++ p.take n) := by
      rw [memcpyTo, writeAt, hlen, if_pos (by omega), hn,
        List.drop_eq_nil_of_le (show e.enqTail.bytes.length ≤ 12 by omega), List.append_nil]
      rfl
    have hl : (e.enqTail.bytes.take o ++ p.take n).length = recTailSize := by
      rw [List.length_append, List.length_take, List.length_take, recTailSize]
      omega
    rw [if_pos hp] at hf
    replace hf : ((memcpyTo e.enqTail.bytes o ((p.drop 0).take n) >>= fun t =>
      pure ({ e with enqTail := .ofBytes t }, 0 + n)) >>= _) = _ := hf
    rw [hto] at hf
    replace hf : ((RecTail.ofBytes (e.enqTail.bytes.take o ++ p.take n)).chkTail e.enqHdr.toRecHdr >>= _) =
      _ := hf
    rw [RecTail.chkTail_ofBytes hl] at hf
    by_cases heq : e.enqTail.bytes.take o ++ p.take n = (RecTail.ofHdr e.enqHdr.toRecHdr).bytes
    · rw [← heq, List.drop_left' (by rw [List.length_take]; omega)]
    · rw [if_neg heq] at hf
      cases hf
  · rw [if_neg hp] at hf
    cases hf

theorem decodeStart_more (h : r.External) (hl : 44 + r.xidsize < 2 ^ 32) (h0 : r.xidsize ≠ 0)
    (hp : WholeDblks page) (hlt : dblksRem page < r.recSizeDblks)
    (hw : page ++ q = r.extParts.image ++ rest) (e : EnqRec) :
    ∃ e' : EnqRec, e'.enqHdr = r.enqHdr ∧
      XidBuf.Got r.extParts r.enqHdr.toRecHdr e'.xidBuf (dblksRem page) ∧ ∀ pages,
      e.readEnq page pages = readNext r.enqHdr.toRecHdr e' (dblksRem page) pages := by
  have hpos := hp.dblksRem_pos
  have hlen := hp.length_eq
  have hn : r.recSizeDblks = (r.extParts.image.length + 127) / 128 := by
    rw [h.recSizeDblks_eq, sizeDblks32_of_lt hl, extParts_length h]
  have hil := extParts_length h
  have hf := hw
  rw [XidParts.image, List.append_assoc] at hf
  obtain ⟨e1, he1, hstart⟩ := decodeStart_xid h hl h0 hf (by omega) e.resetRead (dblksRem page)
  have hx : e1.xidsize = r.xidsize := by rw [xidsize, he1, xidsize]
  have ho : XidBuf.Of r.extParts r.enqHdr.toRecHdr e1.xidBuf.alloc :=
    ⟨congrArg EnqHdr.toRecHdr he1, (length_enqHdr_bytes _).symm, hx⟩
  have hb : XidBuf.BuffUpto r.extParts e1.xidBuf.alloc 0 :=
    ⟨_, rfl, List.length_replicate.trans hx, rfl⟩
  obtain ⟨b, hb', hg⟩ := XidBuf.decodeBody_more (storable h hl) hn ho hb hw hpos hlt hlen
  have hc : sizeDblks32 (128 * dblksRem page) = dblksRem page := by
    rw [sizeDblks32_of_lt (by omega)]
    omega
  have hbuf := xidBuf_setXidBuf he1 hg.toOf
  refine ⟨e1.setXidBuf b, he1, by rwa [hbuf], ?_⟩
  intro pages
  rw [readEnq_ext hf hp, hstart, hb']
  show readNext _ (e1.setXidBuf b) (sizeDblks32 (128 * dblksRem page)) pages = _
  rw [hc]

theorem last_of_shifted {t p q : Bytes} {j d c : Nat} {x : UInt8} (ht : t.length = 12) (hj : j < 12)
    (hd : 0 < d) (hdj : d ≤ j) (hc : 12 ≤ c) (hp : 12 - j + d ≤ p.length)
    (hw : p ++ q = t.drop j ++ List.replicate c x) (he : t.drop (j - d) = p.take (12 - j + d)) :
    t[11]? = some x := by
  have h1 : t[11]? = (t.drop (j - d))[11 - (j - d)]? := by
    rw [List.getElem?_drop]
    congr 1
    omega
  have h2 : (p.take (12 - j + d))[11 - (j - d)]? = (p ++ q)[11 - (j - d)]? := by
    rw [List.getElem?_take_of_lt (by omega), List.getElem?_append_left (by omega)]
  rw [h1, he, h2, hw, List.getElem?_append_right (by rw [List.length_drop]; omega),
    List.getElem?_replicate, if_pos (by rw [List.length_drop]; omega)]

theorem readNext_tail (h : r.External) (hl : 44 + r.xidsize < 2 ^ 32) (hd : 0 < r.dsize)
    {pages : List Bytes} (hpages : ∀ p ∈ pages, WholeDblks p) {k : Nat} (hge : 32 + r.xidsize ≤ 128 * k)
    (hlt : k < r.recSizeDblks) (he : e.enqHdr = r.enqHdr) {c : Nat} {x : UInt8} (hc : 12 ≤ c)
    (hw : pages.flatten = (r.extParts.image ++ List.replicate c x).drop (128 * k))
    (hs : ∀ y ∈ calls r.recSizeDblks k (pages.map dblksRem), r.SizesExact y.1 y.2)
    {res : EnqRec × Nat} (hr : readNext r.enqHdr.toRecHdr e k pages = .ok res) :
    (RecTail.ofHdr r.enqHdr.toRecHdr).bytes[11]? = some x := by
  have hn : r.recSizeDblks = (44 + r.xidsize + 127) / 128 := by
    rw [h.recSizeDblks_eq, sizeDblks32_of_lt hl]
  have hil := extParts_length h
  have hhl : r.extParts.hdr.length = 32 := length_enqHdr_bytes _
  have htl : (RecTail.ofHdr r.enqHdr.toRecHdr).bytes.length = 12 := length_recTail_bytes _
  cases pages with
  | nil =>
    have hlen := congrArg List.length hw
    rw [List.flatten_nil, List.length_nil, List.length_drop, List.length_append,
      List.length_replicate] at hlen
    omega
  | cons p pages =>
    have hp := hpages p List.mem_cons_self
    have hlen := hp.length_eq
    have hpos := hp.dblksRem_pos
    have hh := hasHdr h hl he
    have hx : e.xidsize = r.xidsize := by rw [xidsize, he, xidsize]
    have hds : e.dsize = r.dsize := by rw [dsize, he, dsize]
    have hk0 : k ≠ 0 := by omega
    rw [List.map_cons, calls, if_pos hlt] at hs
    have hoffs := (hs _ List.mem_cons_self).tailOffs (by omega) hge
    obtain ⟨j, hj⟩ : ∃ j, 128 * k = 32 + r.xidsize + j := ⟨128 * k - 32 - r.xidsize, by omega⟩
    rw [readNext, recSizeDblks_congr he, if_pos hlt, decode, require_true hpos, except_ok_bind,
      decodeBytes, if_pos hk0, decodeNext_tail hh (j := j) (by omega) hpos (by omega)
        (by omega) (by omega), hds] at hr
    have hrest : (r.extParts.image ++ List.replicate c x).drop (128 * k) =
        (RecTail.ofHdr r.enqHdr.toRecHdr).bytes.drop j ++ List.replicate c x := by
      have hxid : r.extParts.xid.drop (128 * k - 32) = [] :=
        List.drop_eq_nil_of_le (show r.xidBytes.length ≤ _ by rw [h.xid]; omega)
      have hdrop := XidParts.image_drop (p := r.extParts) h.xid (o := 128 * k) (by omega)
      rw [hhl, hxid, List.nil_append] at hdrop
      rw [List.drop_append_of_le_length (by omega), hdrop]
      show (RecTail.ofHdr r.enqHdr.toRecHdr).bytes.drop (128 * k - 32 - r.xidsize) ++ _ = _
      rw [show 128 * k - 32 - r.xidsize = j by omega]
    cases hfin : e.finishTail (j - r.dsize) p 0 (12 - j + r.dsize) with
    | error =>
      rw [hfin] at hr
      cases hr
    | ok y =>
      have htail := finishTail_ok (by omega) hfin
      rw [he] at htail
      rw [List.flatten_cons, hrest] at hw
      exact last_of_shifted htl (by omega) hd (by omega) hc (by omega) hw htail

theorem not_readsBack (h : r.External) (hl : 44 + r.xidsize < 2 ^ 32) (hd : 0 < r.dsize) {first : Nat}
    {sizes : List Nat} (hpos : ∀ m ∈ first :: sizes, 0 < m)
    (hsum : r.extParts.image.length ≤ 128 * total (first :: sizes)) (hlt : first < r.recSizeDblks) :
    ¬r.ReadsBack first sizes := by
  intro hback
  obtain ⟨-, hs, hr⟩ := hback
  have hn : r.recSizeDblks = (44 + r.xidsize + 127) / 128 := by
    rw [h.recSizeDblks_eq, sizeDblks32_of_lt hl]
  have hil := extParts_length h
  have h0 : r.xidsize ≠ 0 := by
    have := hpos first List.mem_cons_self
    omega
  -- behind the record there are bytes that its tail does not end with
  obtain ⟨x, hx⟩ : ∃ x : UInt8, (RecTail.ofHdr r.enqHdr.toRecHdr).bytes[11]? ≠ some x := by
    by_cases hz : (RecTail.ofHdr r.enqHdr.toRecHdr).bytes[11]? = some 0
    · exact ⟨1, by rw [hz]; decide⟩
    · exact ⟨0, hz⟩
  obtain ⟨pages, hpl, hpf⟩ := exists_pages (first :: sizes) (b := r.extParts.image ++
    List.replicate (128 * total (first :: sizes) - r.extParts.image.length) x)
    (by rw [List.length_append, List.length_replicate]; omega)
  obtain ⟨page, pages, rfl⟩ := List.exists_cons_of_ne_nil
    (show pages ≠ [] by intro hnil; rw [hnil] at hpl; cases hpl)
  have hwhole := wholeDblks_of_sizes hpos hpl
  rw [List.map_cons, List.map_cons] at hpl
  obtain ⟨hlen, hlens⟩ := List.cons.inj hpl
  obtain ⟨e', he', -, -⟩ := hr init page pages _ rfl hlen hlens hpf
  have hfirst : dblksRem page = first := by
    rw [dblksRem, hlen]
    exact Nat.mul_div_cancel_left first (by decide)
  have hw := hpf
  rw [List.flatten_cons] at hw
  obtain ⟨e1, he1, hg1, hread⟩ := decodeStart_more h hl h0 (hwhole page List.mem_cons_self)
    (by omega) hw init
  have hpages : ∀ p ∈ pages, WholeDblks p := fun p hp => hwhole p (List.mem_cons_of_mem _ hp)
  have hw' : pages.flatten = (r.extParts.image ++ List.replicate
      (128 * total (first :: sizes) - r.extParts.image.length) x).drop (128 * first) := by
    rw [← hw, ← hlen, List.drop_left]
  have hlong : pages.flatten.length = 128 * total sizes := by
    rw [hw', List.length_drop, List.length_append, List.length_replicate, total]
    rw [total] at hsum
    omega
  rw [total] at hsum
  rw [← map_dblksRem hlens] at hs
  rw [hread, hfirst] at he'
  rw [hfirst] at hg1
  have hpos1 := hpos first List.mem_cons_self
  by_cases hxe : 128 * first < 32 + r.xidsize
  · rw [readNext_outside h hl hd hpages hpos1 hxe he1 hg1 hw' (by omega) hs] at he'
    cases he'
  · apply hx
    refine readNext_tail h hl hd hpages (by omega) hlt he1 ?_ hw' hs he'
    rw [total]
    omega

theorem rid_of_readsBack (h : r.External) {first : Nat} {sizes : List Nat}
    (hpos : ∀ m ∈ first :: sizes, 0 < m)
    (hsum : r.extParts.image.length ≤ 128 * total (first :: sizes)) (hback : r.ReadsBack first sizes)
    (h0 : r.xidsize = 0) : r.enqHdr.rid = 0 := by
  obtain ⟨pages, hpl, hpf⟩ := exists_pages (first :: sizes) (b := r.extParts.image ++
    List.replicate (128 * total (first :: sizes) - r.extParts.image.length) 0)
    (by rw [List.length_append, List.length_replicate]; omega)
  obtain ⟨page, pages, rfl⟩ := List.exists_cons_of_ne_nil
    (show pages ≠ [] by intro hnil; rw [hnil] at hpl; cases hpl)
  have hwhole := wholeDblks_of_sizes hpos hpl
  rw [List.map_cons, List.map_cons] at hpl
  obtain ⟨hlen, hlens⟩ := List.cons.inj hpl
  obtain ⟨e1, he1, -, hchk⟩ := hback.2.2 init page pages _ rfl hlen hlens hpf
  obtain ⟨e2, he2, hhdr, htail, -⟩ := readEnq_bare h hwhole hpf h0 init
  rw [he1] at he2
  cases he2
  rw [chkTail, RecTail.chkTail, htail, hhdr, require] at hchk
  by_cases hc : init.enqTail.xmagic = ~~~r.enqHdr.magic ∧ 0 = r.enqHdr.rid
  · exact hc.2.symm
  · rw [if_neg hc] at hchk
    cases hchk

theorem readEnq_gives (h : r.External) (hl : 44 + r.xidsize < 2 ^ 32)
    (hrid : r.xidsize = 0 → r.enqHdr.rid = 0) {pages : List Bytes}
    (hpages : ∀ p ∈ page :: pages, WholeDblks p)
    (hw : (page :: pages).flatten = r.extParts.image ++ rest)
    (hlong : 128 * r.recSizeDblks ≤ (r.extParts.image ++ rest).length)
    (hd : r.dsize = 0 ∨ r.recSizeDblks ≤ dblksRem page) (hx : e.enqTail.xmagic = ~~~rhmJdatEnqMagic) :
    ∃ e', e.readEnq page pages = .ok (e', r.recSizeDblks) ∧ Gives e'.getXid r.xidBytes ∧
      e'.chkTail = .ok () := by
  by_cases h0 : r.xidsize = 0
  · obtain ⟨e', he', hhdr, htail, hbuf⟩ := readEnq_bare h hpages hw h0 e
    have hg : e'.getXid = (none, 0) := if_pos (.inl (by rw [hbuf]; rfl))
    refine ⟨e', he', ?_, ?_⟩
    · rw [hg, List.eq_nil_of_length_eq_zero (h.xid.trans h0)]
      exact ⟨rfl, rfl⟩
    · rw [chkTail, htail, hhdr, hx]
      exact require_true ⟨by rw [h.magic], (hrid h0).symm⟩ _
  · obtain ⟨e', he', hhdr, hdone⟩ := readEnq_xid h hl hpages hw h0 hlong hd e
    have hbuf : e'.buff = some r.xidBytes := hdone.buff
    have htail : e'.enqTail = .ofHdr r.enqHdr.toRecHdr := hdone.tail
    have hxs : e'.xidsize = r.xidsize := by rw [xidsize, hhdr, xidsize]
    have hg : e'.getXid = (some (r.xidBytes.take r.xidsize), r.xidsize) := by
      unfold getXid
      rw [hbuf, hxs]
      exact if_neg (fun hf => hf.elim Bool.false_ne_true h0)
    refine ⟨e', he', ?_, ?_⟩
    · rw [hg, ← h.xid, List.take_length]
      exact ⟨rfl, rfl⟩
    · rw [chkTail, htail, hhdr]
      exact require_true ⟨rfl, rfl⟩ _

/-- An external record is read back from pages exactly if it is smaller than 4 GiB, has rid 0 if it has no
xid, and has no data elsewhere or ends in the first page. -/
theorem readsBack_iff (h : r.External) {first : Nat} {sizes : List Nat} (hpos : ∀ m ∈ first :: sizes, 0 < m)
    (hsum : r.extParts.image.length ≤ 128 * total (first :: sizes)) :
    r.ReadsBack first sizes ↔ 44 + r.xidsize < 2 ^ 32 ∧ (r.xidsize = 0 → r.enqHdr.rid = 0) ∧
      (r.dsize = 0 ∨ r.recSizeDblks ≤ first) := by
  have hil := extParts_length h
  have hsmall : 32 + r.xidsize + r.storedDsize + recTailSize < 2 ^ 32 ↔ 44 + r.xidsize < 2 ^ 32 := by
    rw [storedDsize, if_pos h.external, recTailSize]
    omega
  constructor
  · intro hback
    have hl := hsmall.mp hback.1.sum
    refine ⟨hl, rid_of_readsBack h hpos hsum hback, ?_⟩
    by_contra hno
    exact not_readsBack h hl (by omega) hpos hsum (by omega) hback
  · intro hcond
    obtain ⟨hl, hrid, hd⟩ := hcond
    have hn : r.recSizeDblks = (44 + r.xidsize + 127) / 128 := by
      rw [h.recSizeDblks_eq, sizeDblks32_of_lt hl]
    refine ⟨⟨hsmall.mpr hl, fun hf => absurd hf (by omega), fun hf => absurd hf (by omega)⟩, ?_, ?_⟩
    · intro c hc
      rcases hd with hz | hfirst
      · exact ⟨hsmall.mpr hl, fun _ _ _ => by omega, fun _ hge => by omega⟩
      · -- there is no second call
        cases sizes with
        | nil => exact absurd hc List.not_mem_nil
        | cons m ms =>
          rw [calls, if_neg (by omega)] at hc
          exact absurd hc List.not_mem_nil
    · intro e page pages rest hx hlen hlens hw
      have hsizes : (page :: pages).map List.length = (first :: sizes).map (128 * ·) := by
        rw [List.map_cons, List.map_cons, hlen, hlens]
      have hfirst : dblksRem page = first := by
        rw [dblksRem, hlen]
        exact Nat.mul_div_cancel_left first (by decide)
      have htot := length_flatten hsizes
      apply readEnq_gives h hl hrid (wholeDblks_of_sizes hpos hsizes) hw _ (by rwa [hfirst]) hx
      rw [← hw, htot]
      omega

/-- An external record with an xid of 100 bytes and data of 50 bytes: it takes two dblks. -/
def splitExtRec : EnqRec :=
  init.resetWrite 77 none 50 (some (List.replicate 100 1)) 100 false false true

theorem splitExtRec_external : splitExtRec.External where
  xid := rfl
  external := isExternal_resetWrite init _ _ _ _ _ _ _ _
  magic := rfl
  version := rfl
  eflag := rfl

/-- It is read from one page of two dblks. -/
theorem splitExtRec_readsBack : splitExtRec.ReadsBack 2 [] :=
  (readsBack_iff splitExtRec_external (by decide)
    (by rw [extParts_length splitExtRec_external]; decide)).mpr (by decide)

/-- From two pages of one dblk, the data that is not there is copied behind the xid. -/
theorem splitExtRec_not_readsBack : ¬ ∀ (r : EnqRec) (_ : r.External) (first : Nat) (sizes : List Nat)
    (_ : ∀ m ∈ first :: sizes, 0 < m) (_ : r.extParts.image.length ≤ 128 * total (first :: sizes)),
    r.ReadsBack first sizes := by
  intro hall
  have hsum : splitExtRec.extParts.image.length ≤ 128 * total [1, 1] := by
    rw [extParts_length splitExtRec_external]
    decide
  exact not_readsBack splitExtRec_external (by decide) (by decide) (by decide) hsum (by decide)
    (hall splitExtRec splitExtRec_external 1 [1] (by decide) hsum)

end RhmStore.EnqRec
