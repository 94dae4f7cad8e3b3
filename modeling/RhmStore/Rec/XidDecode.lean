import RhmStore.Rec.XidEncode

/-! # Reading a dequeue or transaction record page by page -/

namespace RhmStore

open EnqRec (WholeDblks dblksRem Gives)

/-- A record as it is stored: with the tail of its header `hd`, and no larger than 4 GiB. -/
structure XidParts.Storable (p : XidParts) (hd : RecHdr) : Prop where
  xid : p.xid.length = p.xidsize
  hdr_le : p.hdr.length ≤ 128
  small : p.image.length ≤ 2 ^ 32
  tail : p.tail = .ofHdr hd

namespace XidBuf

variable {p : XidParts} {hd : RecHdr} {r : XidBuf} {rest q page : Bytes}

theorem layout_xid (hx : p.xid.length = p.xidsize) (rest : Bytes) {i n : Nat} (h : i + n ≤ p.xidsize) :
    ((p.image ++ rest).drop (p.hdr.length + i)).take n = (p.xid.drop i).take n := by
  rw [XidParts.image, List.append_assoc, List.append_assoc, ← List.drop_drop, List.drop_left,
    List.drop_append_of_le_length (by omega),
    List.take_append_of_le_length (by rw [List.length_drop]; omega)]

theorem layout_tail (hx : p.xid.length = p.xidsize) (rest : Bytes) {j n : Nat}
    (h : j + n ≤ recTailSize) :
    ((p.image ++ rest).drop (p.hdr.length + p.xidsize + j)).take n = (p.tail.bytes.drop j).take n := by
  have ht : p.tail.bytes.length = recTailSize := length_recTail_bytes _
  rw [XidParts.image, List.append_assoc, List.append_assoc, Nat.add_assoc, ← List.drop_drop,
    List.drop_left, ← List.drop_drop, ← hx, List.drop_left, List.drop_append_of_le_length (by omega),
    List.take_append_of_le_length (by rw [List.length_drop]; omega)]

/-! ## Blocks -/

/-- What `decode` knows from the header of the record. -/
structure Of (p : XidParts) (hd : RecHdr) (r : XidBuf) : Prop where
  hdr : r.hdr = hd
  hdrSize : r.hdrSize = p.hdr.length
  xidsize : r.xidsize = p.xidsize

/-- `_buff` holds the first `i` bytes of the xid. -/
def BuffUpto (p : XidParts) (r : XidBuf) (i : Nat) : Prop :=
  ∃ b, r.buff = some b ∧ b.length = p.xidsize ∧ b.take i = p.xid.take i

/-- The tail holds the first `j` bytes of that of the record. -/
def TailUpto (p : XidParts) (r : XidBuf) (j : Nat) : Prop :=
  r.tail.bytes.take j = p.tail.bytes.take j

theorem BuffUpto.all (hx : p.xid.length = p.xidsize) {i : Nat} (h : BuffUpto p r i)
    (hi : p.xidsize ≤ i) : r.buff = some p.xid := by
  obtain ⟨b, hb, hl, ht⟩ := h
  rw [List.take_of_length_le (by omega), List.take_of_length_le (by omega)] at ht
  rw [hb, ht]

theorem buffUpto_all (hx : p.xid.length = p.xidsize) (h : r.buff = some p.xid) (i : Nat) :
    BuffUpto p r i := ⟨_, h, hx, rfl⟩

theorem TailUpto.all (h : TailUpto p r recTailSize) : r.tail = p.tail := by
  have hl : r.tail.bytes.length = recTailSize := length_recTail_bytes _
  have hp : p.tail.bytes.length = recTailSize := length_recTail_bytes _
  have he : r.tail.bytes = p.tail.bytes := by
    rw [← List.take_of_length_le (Nat.le_of_eq hl), h, List.take_of_length_le (Nat.le_of_eq hp)]
  rw [← RecTail.ofBytes_bytes r.tail, he, RecTail.ofBytes_bytes]

/-- The bytes of a page go where the buffer goes on. -/
theorem readBuff_eq (hx : p.xid.length = p.xidsize) (ho : Of p hd r) {o i n c : Nat}
    (hb : BuffUpto p r i) (hw : page ++ q = (p.image ++ rest).drop o) (hi : o + c = p.hdr.length + i)
    (hn : i + n ≤ p.xidsize) (hp : c + n ≤ page.length) :
    ∃ r', r.readBuff i page c n = .ok (r', c + n) ∧ Of p hd r' ∧ BuffUpto p r' (i + n) := by
  obtain ⟨b, hb, hl, ht⟩ := hb
  obtain ⟨b', hb', hl', ht'⟩ := memcpyTo_extends ht (by omega) (show i + n ≤ p.xid.length by omega)
  have hm : memcpy page c n = .ok ((p.xid.drop i).take n) := by
    rw [memcpy, readAt_window hw hp, hi, layout_xid hx rest hn]
    rfl
  refine ⟨{ r with buff := some b' }, ?_, ⟨ho.hdr, ho.hdrSize, ho.xidsize⟩, b', rfl, hl'.trans hl, ht'⟩
  rw [readBuff, hm, except_ok_bind, hb]
  show (memcpyTo b i _ >>= _) = _
  rw [hb']
  rfl

theorem readTail_eq (hx : p.xid.length = p.xidsize) (ho : Of p hd r) {o j n c : Nat}
    (hj : TailUpto p r j) (hw : page ++ q = (p.image ++ rest).drop o)
    (hi : o + c = p.hdr.length + p.xidsize + j) (hn : j + n ≤ recTailSize)
    (hp : c + n ≤ page.length) :
    ∃ r', r.readTail j page c n = .ok (r', c + n) ∧ Of p hd r' ∧ r'.buff = r.buff ∧
      TailUpto p r' (j + n) := by
  have hl : r.tail.bytes.length = recTailSize := length_recTail_bytes _
  have hpl : p.tail.bytes.length = recTailSize := length_recTail_bytes _
  obtain ⟨b', hb', hl', ht'⟩ := memcpyTo_extends (n := n) hj (by omega) (by omega)
  have hm : memcpy page c n = .ok ((p.tail.bytes.drop j).take n) := by
    rw [memcpy, readAt_window hw hp, hi, layout_tail hx rest hn]
    rfl
  refine ⟨{ r with tail := .ofBytes b' }, ?_, ⟨ho.hdr, ho.hdrSize, ho.xidsize⟩, rfl, ?_⟩
  · rw [readTail, hm, except_ok_bind, hb']
    rfl
  · rw [TailUpto, RecTail.bytes_ofBytes (hl'.trans hl)]
    exact ht'

structure Done (p : XidParts) (hd : RecHdr) (r : XidBuf) : Prop extends Of p hd r where
  buff : r.buff = some p.xid
  tail : r.tail = p.tail

theorem finishTail_eq (hs : p.Storable hd) (ho : Of p hd r) (hb : r.buff = some p.xid) {o j n c : Nat}
    (hj : TailUpto p r j) (hw : page ++ q = (p.image ++ rest).drop o)
    (hi : o + c = p.hdr.length + p.xidsize + j) (hn : j + n = recTailSize)
    (hp : c + n ≤ page.length) :
    ∃ r', r.finishTail j page c n = .ok (r', c + n) ∧ Done p hd r' := by
  obtain ⟨r', hr, ho', hb', ht'⟩ := readTail_eq hs.xid ho hj hw hi (Nat.le_of_eq hn) hp
  rw [hn] at ht'
  have hchk : r'.tail.chkTail r'.hdr = .ok () := by
    rw [ht'.all, hs.tail, ho'.hdr]
    exact require_true ⟨rfl, rfl⟩ _
  refine ⟨r', ?_, ho', hb'.trans hb, ht'.all⟩
  rw [finishTail, hr, except_ok_bind, hchk, except_ok_bind]
  rfl

/-! ## Continuation -/

/-- What `decode` has after the first `k` dblks of the record. -/
structure Got (p : XidParts) (hd : RecHdr) (r : XidBuf) (k : Nat) : Prop extends Of p hd r where
  buff : BuffUpto p r (128 * k - p.hdr.length)
  tail : TailUpto p r (128 * k - p.hdr.length - p.xidsize)

section Sizes

variable (hs : p.Storable hd) (ho : Of p hd r)

include hs ho

theorem hdrXidDblks_eq : r.hdrXidDblks = (p.hdr.length + p.xidsize + 127) / 128 := by
  have hl := hs.small
  rw [XidParts.image_length hs.xid] at hl
  rw [hdrXidDblks, ho.hdrSize, ho.xidsize, wrap_of_lt (w := 64) (by omega), sizeDblks32_eq (by omega),
    wrap_of_lt (by omega)]

theorem hdrXidTailDblks_eq : r.hdrXidTailDblks = (p.image.length + 127) / 128 := by
  have hl := hs.small
  have hlen := XidParts.image_length hs.xid
  rw [hdrXidTailDblks, ho.hdrSize, ho.xidsize, recTailSize, ← hlen, wrap_of_lt (w := 64) (by omega),
    sizeDblks32_eq (by omega), wrap_of_lt (by omega)]

end Sizes

variable {n : Nat}

theorem decodeNext_last (hs : p.Storable hd) (hn : n = (p.image.length + 127) / 128) {k m : Nat}
    (hk : 0 < k) (hlt : k < n) (hm : n ≤ k + m) (hg : Got p hd r k)
    (hw : page ++ q = (p.image ++ rest).drop (128 * k)) (hp : page.length = 128 * m) :
    ∃ r', r.decodeNext page k m = .ok (r', p.image.length - 128 * k) ∧ Done p hd r' := by
  have hl := hs.small
  have hlen := XidParts.image_length hs.xid
  have hh := hs.hdr_le
  have hts : recTailSize = 12 := rfl
  have hoffs : wrap 32 (k * jrnlDblkSize) = 128 * k := by
    rw [jrnlDblkSize, wrap_of_lt (by omega), Nat.mul_comm]
  unfold decodeNext
  simp only [hoffs, hg.hdrSize, hg.xidsize,
    wsub_of_le (show p.hdr.length ≤ 128 * k by omega) (show 128 * k < 2 ^ 64 by omega),
    hdrXidTailDblks_eq hs hg.toOf, ← hn, wsub_of_le (Nat.le_of_lt hlt) (show n < 2 ^ 32 by omega)]
  rw [if_pos (by omega)]
  by_cases hout : 128 * k - p.hdr.length < p.xidsize
  · -- the rest of the xid, then the tail
    rw [if_pos hout, wsub_of_le (Nat.le_of_lt hout) (by omega)]
    obtain ⟨r1, hr1, ho1, hb1⟩ := readBuff_eq (n := p.xidsize - (128 * k - p.hdr.length)) (c := 0)
      hs.xid hg.toOf hg.buff hw (by omega) (by omega) (by omega)
    rw [hr1, except_ok_bind]
    have hj : TailUpto p r1 0 := rfl
    obtain ⟨r2, hr2, hd2⟩ := finishTail_eq hs ho1 (hb1.all hs.xid (by omega)) hj hw
      (c := 0 + (p.xidsize - (128 * k - p.hdr.length))) (n := recTailSize) (by omega)
      (Nat.zero_add _) (by omega)
    have hc : p.image.length - 128 * k =
      0 + (p.xidsize - (128 * k - p.hdr.length)) + recTailSize := by omega
    rw [hc]
    exact ⟨r2, hr2, hd2⟩
  · -- the rest of the tail
    rw [if_neg hout, wsub_of_le (a := 128 * k - p.hdr.length) (by omega) (by omega),
      wsub_of_le (a := recTailSize) (by omega) (by omega)]
    have hc : p.image.length - 128 * k =
      0 + (recTailSize - (128 * k - p.hdr.length - p.xidsize)) := by omega
    rw [hc]
    exact finishTail_eq hs hg.toOf (hg.buff.all hs.xid (by omega)) hg.tail hw (by omega) (by omega)
      (by omega)

theorem onlyIf_readTail (hs : p.Storable hd) (ho : Of p hd r) (hb : r.buff = some p.xid) {o c m k : Nat}
    (hw : page ++ q = (p.image ++ rest).drop o) (hi : o + c = p.hdr.length + p.xidsize)
    (hk : 128 * k = o + 128 * m) (hc : c ≤ 128 * m) (hn : 128 * m - c ≤ recTailSize)
    (hp : page.length = 128 * m) (hm : 128 * m < 2 ^ 64) :
    ∃ r', onlyIf (wsub 64 (128 * m) c ≠ 0) (r.readTail 0 page c (wsub 64 (128 * m) c)) (r, c) =
      .ok (r', 128 * m) ∧ Got p hd r' k := by
  rw [wsub_of_le hc hm]
  by_cases h0 : 128 * m - c = 0
  · rw [onlyIf_false (fun hf => hf h0)]
    refine ⟨r, by rw [show c = 128 * m by omega], ho, buffUpto_all hs.xid hb _, ?_⟩
    rw [show 128 * k - p.hdr.length - p.xidsize = 0 by omega]
    rfl
  · rw [onlyIf_true h0]
    have hj : TailUpto p r 0 := rfl
    obtain ⟨r', hr, ho', hb', ht'⟩ := readTail_eq hs.xid ho hj hw (n := 128 * m - c) (c := c) (by omega)
      (by omega) (by omega)
    refine ⟨r', by rw [hr, show c + (128 * m - c) = 128 * m by omega], ho',
      buffUpto_all hs.xid (hb'.trans hb) _, ?_⟩
    rw [show 128 * k - p.hdr.length - p.xidsize = 0 + (128 * m - c) by omega]
    exact ht'

/-- A page in the middle of a record. -/
theorem decodeNext_more (hs : p.Storable hd) (hn : n = (p.image.length + 127) / 128) {k m : Nat}
    (hk : 0 < k) (hm : 0 < m) (hlt : k + m < n) (hg : Got p hd r k)
    (hw : page ++ q = (p.image ++ rest).drop (128 * k)) (hp : page.length = 128 * m) :
    ∃ r', r.decodeNext page k m = .ok (r', 128 * m) ∧ Got p hd r' (k + m) := by
  have hl := hs.small
  have hlen := XidParts.image_length hs.xid
  have hh := hs.hdr_le
  have hts : recTailSize = 12 := rfl
  have hoffs : wrap 32 (k * jrnlDblkSize) = 128 * k := by
    rw [jrnlDblkSize, wrap_of_lt (by omega), Nat.mul_comm]
  have hmax : wrap 32 (m * jrnlDblkSize) = 128 * m := by
    rw [jrnlDblkSize, wrap_of_lt (by omega), Nat.mul_comm]
  -- the page ends before the tail does, so it starts in the xid
  have hout : 128 * k - p.hdr.length < p.xidsize := by omega
  unfold decodeNext
  simp only [hoffs, hmax, hg.hdrSize, hg.xidsize,
    wsub_of_le (show p.hdr.length ≤ 128 * k by omega) (show 128 * k < 2 ^ 64 by omega),
    hdrXidTailDblks_eq hs hg.toOf, hdrXidDblks_eq hs hg.toOf, ← hn,
    wsub_of_le (show k ≤ n by omega) (show n < 2 ^ 32 by omega),
    wsub_of_le (show k ≤ (p.hdr.length + p.xidsize + 127) / 128 by omega)
      (show (p.hdr.length + p.xidsize + 127) / 128 < 2 ^ 32 by omega),
    wsub_of_le (Nat.le_of_lt hout) (show p.xidsize < 2 ^ 64 by omega)]
  rw [if_neg (by omega)]
  by_cases hd' : (p.hdr.length + p.xidsize + 127) / 128 - k ≤ m
  · -- the xid ends in this page, and the tail begins in it or right behind it
    rw [if_pos hd']
    obtain ⟨r1, hr1, ho1, hb1⟩ := readBuff_eq (n := p.xidsize - (128 * k - p.hdr.length)) (c := 0)
      hs.xid hg.toOf hg.buff hw (by omega) (by omega) (by omega)
    rw [hr1, except_ok_bind]
    exact onlyIf_readTail hs ho1 (hb1.all hs.xid (by omega)) hw (by omega) (by omega) (by omega)
      (by omega) hp (by omega)
  · -- the whole page is xid
    rw [if_neg hd']
    obtain ⟨r1, hr1, ho1, hb1⟩ := readBuff_eq (n := 128 * m) (c := 0) hs.xid hg.toOf hg.buff hw
      (by omega) (by omega) (by omega)
    refine ⟨r1, by rw [hr1, Nat.zero_add], ho1, ?_, ?_⟩
    · rw [show 128 * (k + m) - p.hdr.length = 128 * k - p.hdr.length + 128 * m by omega]
      exact hb1
    · rw [show 128 * (k + m) - p.hdr.length - p.xidsize = 0 by omega]
      rfl

/-! ## Start -/

section Start

variable (hs : p.Storable hd) (hn : n = (p.image.length + 127) / 128) (ho : Of p hd r)
  (hb : BuffUpto p r 0) (hw : page ++ q = p.image ++ rest)

include hs hn ho hb hw

/-- The record lies in one page. -/
theorem decodeBody_last {m : Nat} (hm : n ≤ m) (hp : page.length = 128 * m) :
    ∃ r', r.decodeBody page m = .ok (r', p.image.length) ∧ Done p hd r' := by
  have hl := hs.small
  have hlen := XidParts.image_length hs.xid
  have hts : recTailSize = 12 := rfl
  have hw0 : page ++ q = (p.image ++ rest).drop 0 := hw
  unfold decodeBody
  simp only [hdrXidTailDblks_eq hs ho, ← hn, if_pos hm, ho.hdrSize, ho.xidsize]
  obtain ⟨r1, hr1, ho1, hb1⟩ := readBuff_eq (n := p.xidsize) (c := p.hdr.length) hs.xid ho hb hw0
    (Nat.add_comm _ _) (by omega) (by omega)
  rw [hr1, except_ok_bind, show p.image.length = p.hdr.length + p.xidsize + recTailSize by omega]
  have hj : TailUpto p r1 0 := rfl
  exact finishTail_eq hs ho1 (hb1.all hs.xid (by omega)) hj hw0 (by omega) (Nat.zero_add _)
    (by omega)

/-- The first page of a record that goes on. -/
theorem decodeBody_more {m : Nat} (hm : 0 < m) (hlt : m < n) (hp : page.length = 128 * m) :
    ∃ r', r.decodeBody page m = .ok (r', 128 * m) ∧ Got p hd r' m := by
  have hl := hs.small
  have hlen := XidParts.image_length hs.xid
  have hh := hs.hdr_le
  have hts : recTailSize = 12 := rfl
  have hmax : wrap 32 (m * jrnlDblkSize) = 128 * m := by
    rw [jrnlDblkSize, wrap_of_lt (by omega), Nat.mul_comm]
  have hw0 : page ++ q = (p.image ++ rest).drop 0 := hw
  unfold decodeBody
  simp only [hdrXidTailDblks_eq hs ho, hdrXidDblks_eq hs ho, ← hn, hmax, ho.hdrSize, ho.xidsize]
  rw [if_neg (by omega)]
  by_cases hd' : (p.hdr.length + p.xidsize + 127) / 128 ≤ m
  · -- the xid lies in this page
    rw [if_pos hd']
    obtain ⟨r1, hr1, ho1, hb1⟩ := readBuff_eq (n := p.xidsize) (c := p.hdr.length) hs.xid ho hb hw0
      (Nat.add_comm _ _) (by omega) (by omega)
    rw [hr1, except_ok_bind]
    exact onlyIf_readTail hs ho1 (hb1.all hs.xid (by omega)) hw0 (by omega) (by omega) (by omega)
      (by omega) hp (by omega)
  · -- the xid goes on behind this page
    rw [if_neg hd', wsub_of_le (show p.hdr.length ≤ 128 * m by omega) (by omega)]
    obtain ⟨r1, hr1, ho1, hb1⟩ := readBuff_eq (n := 128 * m - p.hdr.length) (c := p.hdr.length) hs.xid
      ho hb hw0 (Nat.add_comm _ _) (by omega) (by omega)
    rw [hr1]
    refine ⟨r1, by rw [show p.hdr.length + (128 * m - p.hdr.length) = 128 * m by omega], ho1, ?_, ?_⟩
    · rw [Nat.zero_add] at hb1
      exact hb1
    · rw [show 128 * m - p.hdr.length - p.xidsize = 0 by omega]
      rfl

end Start

/-! ## Records that are read into it -/

/-- A record class that decodes into an `XidBuf`: `Hdr` says that an object has the header of the record
of `n` dblks. -/
structure Reader {ρ : Type} (p : XidParts) (hd : RecHdr) (n : Nat) (Hdr : ρ → Prop) (buf : ρ → XidBuf)
    (setBuf : ρ → XidBuf → ρ) (size : ρ → Nat)
    (decode : ρ → Bytes → Nat → Nat → Except RecErr (ρ × Nat)) : Prop where
  storable : p.Storable hd
  dblks : n = (p.image.length + 127) / 128
  size_eq : ∀ {e : ρ}, Hdr e → size e = n
  hdr_setBuf : ∀ {e : ρ} {b : XidBuf}, Hdr e → Hdr (setBuf e b)
  buf_setBuf : ∀ {e : ρ} {b : XidBuf}, Hdr e → Of p hd b → buf (setBuf e b) = b
  alloc : ∀ {e : ρ}, Hdr e → Of p hd (buf e).alloc
  next : ∀ {e : ρ} {page : Bytes} {k m : Nat}, Hdr e → 0 < k → k < n → 0 < m → decode e page k m =
    ((buf e).decodeNext page k m >>= fun x => pure (setBuf e x.1, sizeDblks32 x.2))

namespace Reader

variable {ρ : Type} {Hdr : ρ → Prop} {buf : ρ → XidBuf} {setBuf : ρ → XidBuf → ρ} {size : ρ → Nat}
  {decode : ρ → Bytes → Nat → Nat → Except RecErr (ρ × Nat)}

theorem decodes (h : Reader p hd n Hdr buf setBuf size decode) (rest : Bytes) :
    Decodes (p.image ++ rest) n size decode (fun e k => Hdr e ∧ Got p hd (buf e) k)
      (fun e => Hdr e ∧ Done p hd (buf e)) := by
  have hl := h.storable.small
  have hn := h.dblks
  constructor
  · intro e k hg
    exact h.size_eq hg.1
  · intro e hd
    exact h.size_eq hd.1
  · intro e k m page q hk hm hlt hg hw hp
    obtain ⟨b, hb, hg'⟩ := decodeNext_more h.storable hn hk hm hlt hg.2 hw hp
    have hc : sizeDblks32 (128 * m) = m := by
      rw [sizeDblks32_of_lt (by omega)]
      omega
    refine ⟨setBuf e b, ?_, h.hdr_setBuf hg.1, ?_⟩
    · rw [h.next hg.1 hk (by omega) hm, hb, except_ok_bind, hc]
      rfl
    · rw [h.buf_setBuf hg.1 hg'.toOf]
      exact hg'
  · intro e k m page q hk hlt hm hg hw hp
    obtain ⟨b, hb, hd⟩ := decodeNext_last h.storable hn hk hlt hm hg.2 hw hp
    have hc : sizeDblks32 (p.image.length - 128 * k) = n - k := by
      rw [sizeDblks32_of_lt (by omega)]
      omega
    refine ⟨setBuf e b, ?_, h.hdr_setBuf hg.1, ?_⟩
    · rw [h.next hg.1 hk hlt (by omega), hb, except_ok_bind, hc]
      rfl
    · rw [h.buf_setBuf hg.1 hd.toOf]
      exact hd

/-- All the calls, where the first one has found the header. -/
theorem readAll_eq (h : Reader p hd n Hdr buf setBuf size decode) {pages : List Bytes}
    (hpages : ∀ q ∈ page :: pages, WholeDblks q) (hw : (page :: pages).flatten = p.image ++ rest)
    (hlong : 128 * n ≤ (p.image ++ rest).length) {e : ρ} (he : Hdr e) :
    ∃ e', ((((buf e).alloc.decodeBody page (dblksRem page) >>= fun x => pure (setBuf e x.1, x.2)) >>=
        fun x => pure (x.1, sizeDblks32 x.2)) >>= fun x => readAll size decode x.1 x.2 pages) =
      .ok (e', n) ∧ Hdr e' ∧ Done p hd (buf e') := by
  have hl := h.storable.small
  have hn := h.dblks
  have hp := hpages page List.mem_cons_self
  have ho := h.alloc he
  have hb : BuffUpto p (buf e).alloc 0 := ⟨_, rfl, List.length_replicate.trans ho.xidsize, rfl⟩
  have hf := hw
  rw [List.flatten_cons] at hf
  apply (h.decodes rest).readAll_first hpages hw hlong
  · intro hm
    obtain ⟨b, hb', hd⟩ := decodeBody_last h.storable hn ho hb hf hm hp.length_eq
    have hc : sizeDblks32 p.image.length = n := by
      rw [sizeDblks32_eq (by omega), wrap_of_lt (by omega), hn]
    refine ⟨setBuf e b, ?_, h.hdr_setBuf he, ?_⟩
    · rw [hb', ← hc]
      rfl
    · rw [h.buf_setBuf he hd.toOf]
      exact hd
  · intro hlt
    obtain ⟨b, hb', hg⟩ := decodeBody_more h.storable hn ho hb hf hp.dblksRem_pos hlt hp.length_eq
    have hc : sizeDblks32 (128 * dblksRem page) = dblksRem page := by
      rw [sizeDblks32_of_lt (by omega)]
      omega
    refine ⟨setBuf e b, ?_, h.hdr_setBuf he, ?_⟩
    · rw [hb']
      show Except.ok (setBuf e b, sizeDblks32 (128 * dblksRem page)) = _
      rw [hc]
    · rw [h.buf_setBuf he hg.toOf]
      exact hg

end Reader

end XidBuf

/-- What a page holds at its start. -/
theorem memcpy_part {page q a b c : Bytes} {o n : Nat} (hw : page ++ q = a ++ (b ++ c))
    (ha : a.length = o) (hb : b.length = n) (hp : o + n ≤ page.length) : memcpy page o n = .ok b := by
  have hw0 : page ++ q = (a ++ (b ++ c)).drop 0 := hw
  rw [memcpy, readAt_window hw0 hp, Nat.zero_add, List.drop_left' ha, List.take_left' hb]
  rfl

theorem ofNat_leNat (n : UInt64) : UInt64.ofNat (leNat (leBytes 8 n.toNat)) = n := by
  rw [leNat_leBytes (show n.toNat < 256 ^ 8 from n.toNat_lt), UInt64.ofNat_toNat]

/-! ## Dequeue records -/

namespace DeqRec

variable {r e : DeqRec} {rest q page : Bytes}

theorem reader (h : r.Sound) (h0 : r.xidsize ≠ 0) (hl : r.image.length ≤ 2 ^ 32) :
    XidBuf.Reader r.parts r.deqHdr.toRecHdr r.recSizeDblks (fun e => e.deqHdr = r.deqHdr) buf setBuf
      recSizeDblks (decode r.deqHdr.toRecHdr) := by
  have himg : r.image = r.parts.image := if_neg h0
  have hh : r.parts.hdr.length = DeqHdr.size := length_deqHdr_bytes _
  have hsize : DeqHdr.size = 32 := rfl
  have hn := (encodes h (by omega)).size
  rw [himg] at hl hn
  constructor
  · exact ⟨h.xid, by omega, hl, h.tail⟩
  · exact hn
  · intro e he
    simp only [recSizeDblks, recSize, xidsize, he]
  · intro e b he
    exact he
  · intro e b he hb
    obtain ⟨hdr, hdrSize, xidsize, buff, tail⟩ := b
    obtain ⟨rfl, rfl, rfl⟩ := hb
    show XidBuf.mk e.deqHdr.toRecHdr DeqHdr.size e.xidsize buff tail = _
    rw [DeqRec.xidsize, he, hh]
    rfl
  · intro e he
    have hx : e.xidsize = r.xidsize := by rw [xidsize, he, xidsize]
    exact ⟨congrArg DeqHdr.toRecHdr he, hh.symm, hx⟩
  · intro e page k m _ hk _ hm
    rw [decode, require_true hm, except_ok_bind, if_pos (Nat.ne_of_gt hk)]
    cases e.buf.decodeNext page k m <;> rfl

/-- The header is read, and found right. -/
theorem decodeStart_eq (h : r.Sound) {c : Bytes} (hw : page ++ q = r.deqHdr.bytes ++ c)
    (hp : 32 ≤ page.length) (e : DeqRec) (m : Nat) : ∃ e', e'.deqHdr = r.deqHdr ∧ e'.buff = e.buff ∧
      e.decodeStart r.deqHdr.toRecHdr page m =
        if r.xidsize ≠ 0 then e'.buf.alloc.decodeBody page m >>= fun x => pure (e'.setBuf x.1, x.2)
        else .ok (e', 32) := by
  have hd : memcpy page 16 8 = .ok (leBytes 8 r.deqHdr.deqRid.toNat) := by
    rw [DeqHdr.bytes, List.append_assoc, List.append_assoc] at hw
    exact memcpy_part hw (length_recHdr_bytes _) (length_leBytes 8 _) (by omega)
  have hx : memcpy page 24 8 = .ok (leBytes 8 r.deqHdr.xidsize.toNat) := by
    rw [DeqHdr.bytes, List.append_assoc] at hw
    exact memcpy_part hw (by rw [List.length_append, length_recHdr_bytes, length_leBytes])
      (length_leBytes 8 _) (by omega)
  have hchk : ({ e with deqHdr := r.deqHdr } : DeqRec).chkHdr = .ok () := by
    have hm : r.deqHdr.magic ≠ 0 := by
      rw [h.magic]
      decide
    rw [chkHdr, RecHdr.chkHdr, require_true ⟨hm, h.version, h.eflag⟩, except_ok_bind,
      require_true h.magic]
  refine ⟨{ e with deqHdr := r.deqHdr }, rfl, rfl, ?_⟩
  rw [decodeStart, hd, except_ok_bind, hx, except_ok_bind]
  simp only [ofNat_leNat]
  show (({ e with deqHdr := r.deqHdr } : DeqRec).chkHdr >>= _) = _
  rw [hchk]
  rfl

theorem readDeq_eq {c : Bytes} (hw : page ++ q = r.deqHdr.bytes ++ c) (hp : WholeDblks page)
    (e : DeqRec) (pages : List Bytes) : e.readDeq page pages =
      ((e.resetRead.decodeStart r.deqHdr.toRecHdr page (dblksRem page) >>=
        fun x => pure (x.1, sizeDblks32 x.2)) >>=
        fun x => readAll recSizeDblks (decode r.deqHdr.toRecHdr) x.1 x.2 pages) := by
  have hpos := hp.dblksRem_pos
  have hlen := hp.length_eq
  have hh : memcpy page 0 RecHdr.size = .ok r.deqHdr.toRecHdr.bytes := by
    rw [DeqHdr.bytes, List.append_assoc, List.append_assoc] at hw
    exact memcpy_part (a := []) hw rfl (length_recHdr_bytes _) (show 0 + 16 ≤ _ by omega)
  rw [readDeq, hh, except_ok_bind, RecHdr.ofBytes_bytes, decode, require_true hpos, except_ok_bind,
    if_neg (fun hf => hf rfl)]

/-- What is stored of the record is read back from the pages: its header with the rid, the dequeued rid
and the flags, its xid, and, with an xid, the tail. -/
def Restores (r : DeqRec) (page : Bytes) (pages : List Bytes) : Prop :=
  ∀ e : DeqRec, ∃ e', e.readDeq page pages = .ok (e', r.recSizeDblks) ∧ e'.deqHdr = r.deqHdr ∧
    Gives e'.getXid r.xidBytes ∧ (r.xidsize ≠ 0 → e'.chkTail = .ok ())

section Restores

variable (h : r.Sound) (hl : r.image.length ≤ 2 ^ 32) {pages : List Bytes}
  (hpages : ∀ p ∈ page :: pages, WholeDblks p) (hw : (page :: pages).flatten = r.image ++ rest)

include h hl hpages hw

theorem restores_bare (h0 : r.xidsize = 0) : r.Restores page pages := by
  intro e
  have hp := hpages page List.mem_cons_self
  have hpos := hp.dblksRem_pos
  have hlen := hp.length_eq
  have himg : r.image = r.deqHdr.bytes := if_pos h0
  have hn := (encodes h (by omega)).size
  rw [himg, length_deqHdr_bytes] at hn
  have hone : r.recSizeDblks = 1 := hn
  rw [List.flatten_cons, himg] at hw
  obtain ⟨e', he, hb, hstart⟩ := decodeStart_eq h hw (by omega) e.resetRead (dblksRem page)
  have hdone : e'.recSizeDblks ≤ 1 := by
    simp only [recSizeDblks, recSize, xidsize, he] at hone ⊢
    omega
  have hc : sizeDblks32 32 = 1 := by decide
  have hg : e'.getXid = (none, 0) := if_pos (by rw [hb]; rfl)
  rw [readDeq_eq hw hp, hstart, if_neg (fun hf => hf h0), except_ok_bind]
  show ∃ e'', readAll _ _ e' (sizeDblks32 32) pages = _ ∧ _
  rw [hone, hc, readAll_done hdone]
  refine ⟨e', rfl, he, ?_, fun hf => absurd h0 hf⟩
  rw [hg, List.eq_nil_of_length_eq_zero (h.xid.trans h0)]
  exact ⟨rfl, rfl⟩

theorem restores_xid (h0 : r.xidsize ≠ 0) (hlong : 128 * r.recSizeDblks ≤ (r.image ++ rest).length) :
    r.Restores page pages := by
  intro e
  have hp := hpages page List.mem_cons_self
  have hpos := hp.dblksRem_pos
  have hlen := hp.length_eq
  have hr := reader h h0 hl
  have himg : r.image = r.parts.image := if_neg h0
  rw [himg] at hw hlong
  have hf := hw
  rw [List.flatten_cons, XidParts.image, List.append_assoc] at hf
  obtain ⟨e1, he1, -, hstart⟩ := decodeStart_eq h hf (by omega) e.resetRead (dblksRem page)
  obtain ⟨e', he, hhdr, hd⟩ := hr.readAll_eq hpages hw hlong he1
  rw [readDeq_eq hf hp, hstart, if_pos h0, he]
  refine ⟨e', rfl, hhdr, ?_, ?_⟩
  · have hbuf : e'.buff = some r.xidBytes := hd.buff
    have hg : e'.getXid = (some (r.xidBytes.take r.xidsize), r.xidsize) := by
      unfold getXid
      rw [hbuf, xidsize, hhdr]
      rfl
    rw [hg, ← h.xid, List.take_length]
    exact ⟨rfl, rfl⟩
  · intro _
    have ht : e'.deqTail = r.deqTail := hd.tail
    rw [chkTail, ht, h.tail, hhdr]
    exact require_true ⟨rfl, rfl⟩ _

end Restores

/-- A dequeue record survives every cut exactly if it is no larger than 4 GiB. -/
theorem roundTrips_iff (h : r.Sound) :
    RoundTrips r.recSizeDblks r.encode r.Restores ↔ deqRecSize r.xidsize ≤ 2 ^ 32 := by
  have hlen := image_length h
  have hpos : 0 < r.image.length := by
    rw [hlen, deqRecSize]
    omega
  rw [← hlen]
  apply RhmStore.roundTrips_iff hpos r.recSizeDblks_lt (encodes h)
  · intro m hm hge
    rw [encode_eq h hm, XidParts.encodeBytes_whole hge, except_ok_bind, ← recSizeDblks_eq h]
    rfl
  · intro hl page pages rest hpages hw hlong
    by_cases h0 : r.xidsize = 0
    · exact restores_bare h hl hpages hw h0
    · exact restores_xid h hl hpages hw h0 hlong

end DeqRec

/-! ## Transaction records -/

namespace TxnRec

variable {r e : TxnRec} {rest q page : Bytes}

theorem reader (h : r.Sound) (hl : r.image.length ≤ 2 ^ 32) :
    XidBuf.Reader r.parts r.txnHdr.toRecHdr r.recSizeDblks (fun e => e.txnHdr = r.txnHdr) buf setBuf
      recSizeDblks (decode r.txnHdr.toRecHdr) := by
  have hh : r.parts.hdr.length = TxnHdr.size := length_txnHdr_bytes _
  have hsize : TxnHdr.size = 24 := rfl
  constructor
  · exact ⟨h.xid, by omega, hl, h.tail⟩
  · exact (encodes h (by omega)).size
  · intro e he
    simp only [recSizeDblks, recSize, xidsize, he]
  · intro e b he
    exact he
  · intro e b he hb
    obtain ⟨hdr, hdrSize, xidsize, buff, tail⟩ := b
    obtain ⟨rfl, rfl, rfl⟩ := hb
    show XidBuf.mk e.txnHdr.toRecHdr TxnHdr.size e.xidsize buff tail = _
    rw [TxnRec.xidsize, he, hh]
    rfl
  · intro e he
    have hx : e.xidsize = r.xidsize := by rw [xidsize, he, xidsize]
    exact ⟨congrArg TxnHdr.toRecHdr he, hh.symm, hx⟩
  · intro e page k m _ hk _ hm
    rw [decode, require_true hm, except_ok_bind, if_pos (Nat.ne_of_gt hk)]
    cases e.buf.decodeNext page k m <;> rfl

/-- The header is read, and found right. -/
theorem decodeStart_eq (h : r.Sound) {c : Bytes} (hw : page ++ q = r.txnHdr.bytes ++ c)
    (hp : 24 ≤ page.length) (e : TxnRec) (m : Nat) : ∃ e' : TxnRec, e'.txnHdr = r.txnHdr ∧
      e.decodeStart r.txnHdr.toRecHdr page m =
        (e'.buf.alloc.decodeBody page m >>= fun x => pure (e'.setBuf x.1, x.2)) := by
  have hx : memcpy page 16 8 = .ok (leBytes 8 r.txnHdr.xidsize.toNat) := by
    rw [TxnHdr.bytes, List.append_assoc] at hw
    exact memcpy_part hw (length_recHdr_bytes _) (length_leBytes 8 _) (by omega)
  have hchk : ({ e with txnHdr := r.txnHdr } : TxnRec).chkHdr = .ok () := by
    have hm : r.txnHdr.magic ≠ 0 := by
      rcases h.magic with hm | hm
      · rw [hm]
        decide
      · rw [hm]
        decide
    rw [chkHdr, RecHdr.chkHdr, require_true ⟨hm, h.version, h.eflag⟩, except_ok_bind,
      require_true h.magic]
  refine ⟨{ e with txnHdr := r.txnHdr }, rfl, ?_⟩
  rw [decodeStart, hx, except_ok_bind]
  simp only [ofNat_leNat]
  show (({ e with txnHdr := r.txnHdr } : TxnRec).chkHdr >>= _) = _
  rw [hchk]
  rfl

theorem readTxn_eq {c : Bytes} (hw : page ++ q = r.txnHdr.bytes ++ c) (hp : WholeDblks page)
    (e : TxnRec) (pages : List Bytes) : e.readTxn page pages =
      (((e.resetRead r.txnHdr.magic).decodeStart r.txnHdr.toRecHdr page (dblksRem page) >>=
        fun x => pure (x.1, sizeDblks32 x.2)) >>=
        fun x => readAll recSizeDblks (decode r.txnHdr.toRecHdr) x.1 x.2 pages) := by
  have hpos := hp.dblksRem_pos
  have hlen := hp.length_eq
  have hh : memcpy page 0 RecHdr.size = .ok r.txnHdr.toRecHdr.bytes := by
    rw [TxnHdr.bytes, List.append_assoc] at hw
    exact memcpy_part (a := []) hw rfl (length_recHdr_bytes _) (show 0 + 16 ≤ _ by omega)
  rw [readTxn, hh, except_ok_bind]
  simp only [RecHdr.ofBytes_bytes]
  rw [decode, require_true hpos, except_ok_bind, if_neg (fun hf => hf rfl)]

/-- What is stored of the record is read back from the pages: its header with the rid and the flags, its
xid, and the tail. -/
def Restores (r : TxnRec) (page : Bytes) (pages : List Bytes) : Prop :=
  ∀ e : TxnRec, ∃ e', e.readTxn page pages = .ok (e', r.recSizeDblks) ∧ e'.txnHdr = r.txnHdr ∧
    Gives e'.getXid r.xidBytes ∧ e'.chkTail = .ok ()

theorem restores (h : r.Sound) (hl : r.image.length ≤ 2 ^ 32) {pages : List Bytes}
    (hpages : ∀ p ∈ page :: pages, WholeDblks p) (hw : (page :: pages).flatten = r.image ++ rest)
    (hlong : 128 * r.recSizeDblks ≤ (r.image ++ rest).length) : r.Restores page pages := by
  intro e
  have hp := hpages page List.mem_cons_self
  have hpos := hp.dblksRem_pos
  have hlen := hp.length_eq
  have hr := reader h hl
  have hf := hw
  rw [List.flatten_cons, image, XidParts.image, List.append_assoc] at hf
  obtain ⟨e1, he1, hstart⟩ := decodeStart_eq h hf (by omega) (e.resetRead r.txnHdr.magic) (dblksRem page)
  obtain ⟨e', he, hhdr, hd⟩ := hr.readAll_eq hpages hw hlong he1
  rw [readTxn_eq hf hp, hstart, he]
  refine ⟨e', rfl, hhdr, ?_, ?_⟩
  · have hbuf : e'.buff = some r.xidBytes := hd.buff
    have hg : e'.getXid = (some (r.xidBytes.take r.xidsize), r.xidsize) := by
      unfold getXid
      rw [hbuf, xidsize, hhdr]
      rfl
    rw [hg, ← h.xid, List.take_length]
    exact ⟨rfl, rfl⟩
  · have ht : e'.txnTail = r.txnTail := hd.tail
    rw [chkTail, ht, h.tail, hhdr]
    exact require_true ⟨rfl, rfl⟩ _

/-- A transaction record survives every cut exactly if it is no larger than 4 GiB. -/
theorem roundTrips_iff (h : r.Sound) :
    RoundTrips r.recSizeDblks r.encode r.Restores ↔ txnRecSize r.xidsize ≤ 2 ^ 32 := by
  have hlen := image_length h
  have hpos : 0 < r.image.length := by
    rw [hlen, txnRecSize]
    omega
  rw [← hlen]
  apply RhmStore.roundTrips_iff hpos r.recSizeDblks_lt (encodes h)
  · intro m hm hge
    rw [encode_eq h hm, XidParts.encodeBytes_whole hge, except_ok_bind, ← recSizeDblks_eq h]
    rfl
  · intro hl page pages rest hpages hw hlong
    exact restores h hl hpages hw hlong

end TxnRec

/-! ## The records of a journal -/

/-- Dequeue and transaction records survive every cut into pages, in writing and in reading, exactly if
they are no larger than 4 GiB. -/
theorem xidRecs_roundTrip_iff (d : DeqRec) (t : TxnRec) (hd : d.Sound) (ht : t.Sound) :
    (RoundTrips d.recSizeDblks d.encode d.Restores ↔ deqRecSize d.xidsize ≤ 2 ^ 32) ∧
      (RoundTrips t.recSizeDblks t.encode t.Restores ↔ txnRecSize t.xidsize ≤ 2 ^ 32) :=
  ⟨d.roundTrips_iff hd, t.roundTrips_iff ht⟩

/-- A dequeue with an xid of 10 bytes that completes its transaction. -/
def shortDeqRec : DeqRec := .resetWrite .init 78 77 (some (List.replicate 10 1)) 10 false true

/-- A commit of 144 bytes, in two dblks. -/
def twoDblkTxnRec : TxnRec := .resetWrite .init rhmJdatTxcMagic 79 (some (List.replicate 108 1)) 108 false

theorem shortXidRecs_roundTrip :
    RoundTrips shortDeqRec.recSizeDblks shortDeqRec.encode shortDeqRec.Restores ∧
      RoundTrips twoDblkTxnRec.recSizeDblks twoDblkTxnRec.encode twoDblkTxnRec.Restores := by
  have hiff := xidRecs_roundTrip_iff shortDeqRec twoDblkTxnRec
    (DeqRec.resetWrite_sound 78 77 false true rfl)
    (TxnRec.resetWrite_sound 79 false (.inr rfl) rfl (by decide))
  exact ⟨hiff.1.mpr (by decide), hiff.2.mpr (by decide)⟩

/-- A dequeue with an xid of 4 GiB. -/
def longXidDeqRec : DeqRec :=
  .resetWrite .init 78 77 (some (List.replicate (2 ^ 32) 1)) 0x100000000 false false

theorem longXidDeqRec_sound : longXidDeqRec.Sound :=
  DeqRec.resetWrite_sound 78 77 false false (List.length_replicate.trans (by decide))

theorem longXidDeqRec_asserts : writeAll longXidDeqRec.recSizeDblks longXidDeqRec.encode 0
    (List.replicate (2 ^ 17 + 1) 256) = .error .assertion := by
  have hl : longXidDeqRec.image.length = 2 ^ 32 + 44 := by
    rw [DeqRec.image_length longXidDeqRec_sound]
    decide
  have he := DeqRec.encodes longXidDeqRec_sound (by omega)
  have hn := he.size
  have hk : 2 ^ 25 - 256 * 2 ^ 17 = 0 := by decide
  rw [← hk]
  exact he.writeAll_wrapped (by omega) (by decide) (by decide)

theorem longXidDeqRec_not_roundTrips : ¬((∀ r : DeqRec, r.Sound →
    RoundTrips r.recSizeDblks r.encode r.Restores) ∧
    ∀ r : TxnRec, r.Sound → RoundTrips r.recSizeDblks r.encode r.Restores) := by
  intro hall
  have hr := hall.1 longXidDeqRec longXidDeqRec_sound
  rw [DeqRec.roundTrips_iff longXidDeqRec_sound] at hr
  exact absurd hr (by decide)

end RhmStore
