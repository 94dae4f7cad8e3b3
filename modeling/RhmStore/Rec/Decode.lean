import RhmStore.Rec.Encode

/-! # Reading an enqueue record page by page -/

namespace RhmStore

theorem memcpyTo_extends {b s : Bytes} {i n : Nat} (h : b.take i = s.take i)
    (hn : i + n ≤ b.length) (hs : i + n ≤ s.length) :
    ∃ b', memcpyTo b i ((s.drop i).take n) = .ok b' ∧ b'.length = b.length ∧
      b'.take (i + n) = s.take (i + n) := by
  obtain ⟨b', hb, hl, ht⟩ := writeAt_extends h hn hs
  refine ⟨b', ?_, hl, ht⟩
  rw [memcpyTo, hb]
  rfl

theorem leNat_field {w n : Nat} (h : n < 256 ^ w) (b : Bytes) :
    leNat ((leBytes w n ++ b).take w) = n := by
  rw [List.take_left' (length_leBytes w n), leNat_leBytes h]

theorem drop_field (w n : Nat) (b : Bytes) : (leBytes w n ++ b).drop w = b :=
  List.drop_left' (length_leBytes w n)

theorem RecHdr.ofBytes_bytes (h : RecHdr) : ofBytes h.bytes = h := by
  have hlast : leBytes 8 h.rid.toNat = leBytes 8 h.rid.toNat ++ [] := (List.append_nil _).symm
  have h0 : h.bytes = leBytes 4 h.magic.toNat ++ (leBytes 1 h.version.toNat ++
      (leBytes 1 h.eflag.toNat ++ (leBytes 2 h.uflag.toNat ++ (leBytes 8 h.rid.toNat ++ [])))) := by
    rw [← hlast]
    simp only [bytes, List.append_assoc]
  have h4 : h.bytes.drop 4 = leBytes 1 h.version.toNat ++ (leBytes 1 h.eflag.toNat ++
      (leBytes 2 h.uflag.toNat ++ (leBytes 8 h.rid.toNat ++ []))) := by rw [h0, drop_field]
  have h5 : h.bytes.drop 5 = leBytes 1 h.eflag.toNat ++ (leBytes 2 h.uflag.toNat ++
      (leBytes 8 h.rid.toNat ++ [])) := by
    rw [show 5 = 4 + 1 from rfl, ← List.drop_drop, h4, drop_field]
  have h6 : h.bytes.drop 6 = leBytes 2 h.uflag.toNat ++ (leBytes 8 h.rid.toNat ++ []) := by
    rw [show 6 = 5 + 1 from rfl, ← List.drop_drop, h5, drop_field]
  have h8 : h.bytes.drop 8 = leBytes 8 h.rid.toNat ++ [] := by
    rw [show 8 = 6 + 2 from rfl, ← List.drop_drop, h6, drop_field]
  rw [ofBytes, h4, h5, h6, h8, h0, leNat_field h.magic.toNat_lt, leNat_field h.version.toNat_lt,
    leNat_field h.eflag.toNat_lt, leNat_field h.uflag.toNat_lt, leNat_field h.rid.toNat_lt,
    UInt32.ofNat_toNat, UInt8.ofNat_toNat, UInt8.ofNat_toNat, UInt16.ofNat_toNat,
    UInt64.ofNat_toNat]

namespace RecTail

theorem bytes_ofBytes {b : Bytes} (h : b.length = recTailSize) : (ofBytes b).bytes = b := by
  have ht : recTailSize = 12 := rfl
  have h4 : (b.take 4).length = 4 := by rw [List.length_take]; omega
  have h8 : ((b.drop 4).take 8).length = 8 := by rw [List.length_take, List.length_drop]; omega
  have hx : leNat (b.take 4) < 256 ^ 4 := by simpa only [h4] using leNat_lt (b.take 4)
  have hr : leNat ((b.drop 4).take 8) < 256 ^ 8 := by
    simpa only [h8] using leNat_lt ((b.drop 4).take 8)
  have hx' : leBytes 4 (leNat (b.take 4)) = b.take 4 := by
    simpa only [h4] using leBytes_leNat (b.take 4)
  have hr' : leBytes 8 (leNat ((b.drop 4).take 8)) = (b.drop 4).take 8 := by
    simpa only [h8] using leBytes_leNat ((b.drop 4).take 8)
  rw [bytes, ofBytes, UInt32.toNat_ofNat_of_lt' hx, UInt64.toNat_ofNat_of_lt' hr, hx', hr',
    List.take_of_length_le (l := b.drop 4) (by rw [List.length_drop]; omega), List.take_append_drop]

theorem ofBytes_bytes (t : RecTail) : ofBytes t.bytes = t := by
  have hx := leNat_leBytes (w := 4) (n := t.xmagic.toNat) t.xmagic.toNat_lt
  have hr := leNat_leBytes (w := 8) (n := t.rid.toNat) t.rid.toNat_lt
  have h4 : t.bytes.take 4 = leBytes 4 t.xmagic.toNat := List.take_left' (length_leBytes 4 _)
  have h8 : (t.bytes.drop 4).take 8 = leBytes 8 t.rid.toNat := by
    have hd : t.bytes.drop 4 = leBytes 8 t.rid.toNat := List.drop_left' (length_leBytes 4 _)
    rw [hd]
    exact List.take_of_length_le (Nat.le_of_eq (length_leBytes 8 _))
  rw [ofBytes, h4, h8, hx, hr, UInt32.ofNat_toNat, UInt64.ofNat_toNat]

/-- `chk_tail` accepts the tail of the header, and no other. -/
theorem chkTail_ofBytes {b : Bytes} (h : b.length = recTailSize) (hd : RecHdr) :
    (ofBytes b).chkTail hd = if b = (ofHdr hd).bytes then .ok () else .error .badRecTail := by
  have hiff : ((ofBytes b).xmagic = ~~~hd.magic ∧ (ofBytes b).rid = hd.rid) ↔
      b = (ofHdr hd).bytes := by
    constructor
    · rintro ⟨hx, hr⟩
      have he : ofBytes b = ofHdr hd := by
        rw [ofHdr, ← hx, ← hr]
      rw [← he, bytes_ofBytes h]
    · intro hb
      rw [hb, ofBytes_bytes]
      exact ⟨rfl, rfl⟩
  rw [chkTail, require]
  simp only [hiff]

end RecTail

namespace EnqRec

/-- A record of the constructor's magic, version and byte order, whose data is in the journal. -/
structure Readable (r : EnqRec) : Prop where
  sound : r.Sound
  internal : r.isExternal = false
  magic : r.enqHdr.magic = rhmJdatEnqMagic
  version : r.enqHdr.version = rhmJdatVersion
  eflag : r.enqHdr.eflag = rhmLendianFlag

/-- The xid and the data, as `_buff` is to hold them. -/
def body (r : EnqRec) : Bytes := r.xidBytes ++ r.dataBytes

/-- The record in the journal with the tail `t`, and what comes behind it. -/
def layout (r : EnqRec) (t rest : Bytes) : Bytes := r.enqHdr.bytes ++ (r.body ++ (t ++ rest))

variable {r e : EnqRec} {t rest p q : Bytes}

theorem Readable.storedDsize_eq (h : r.Readable) : r.storedDsize = r.dsize := by
  rw [storedDsize, h.internal]
  rfl

theorem Readable.body_length (h : r.Readable) : r.body.length = r.xidsize + r.dsize := by
  rw [body, List.length_append, h.sound.xid, h.sound.data h.internal]

theorem Readable.size_lt (h : r.Readable) : 44 + r.body.length < 2 ^ 32 := by
  have hs := h.sound.small
  rw [enqRecSize_eq, h.storedDsize_eq] at hs
  rw [h.body_length]
  omega

theorem Readable.recSizeDblks_eq (h : r.Readable) :
    r.recSizeDblks = (44 + r.body.length + 127) / 128 := by
  rw [EnqRec.recSizeDblks_eq h.sound, image_length h.sound, h.storedDsize_eq, h.body_length]
  omega

theorem layout_length (r : EnqRec) (t rest : Bytes) : (r.layout t rest).length =
    32 + (r.xidBytes.length + r.dataBytes.length + (t.length + rest.length)) := by
  simp only [layout, body, List.length_append, length_enqHdr_bytes, EnqHdr.size]

theorem drop_hdr (r : EnqRec) (b : Bytes) : (r.enqHdr.bytes ++ b).drop 32 = b :=
  List.drop_left' (length_enqHdr_bytes _)

theorem layout_body (r : EnqRec) (t rest : Bytes) {i n : Nat} (h : i + n ≤ r.body.length) :
    ((r.layout t rest).drop (32 + i)).take n = (r.body.drop i).take n := by
  rw [layout, ← List.drop_drop, drop_hdr,
    List.drop_append_of_le_length (by omega),
    List.take_append_of_le_length (by rw [List.length_drop]; omega)]

theorem layout_tail (r : EnqRec) (t rest : Bytes) {j n : Nat} (h : j + n ≤ t.length) :
    ((r.layout t rest).drop (32 + r.body.length + j)).take n = (t.drop j).take n := by
  rw [layout, Nat.add_assoc, ← List.drop_drop, drop_hdr,
    ← List.drop_drop, List.drop_left, List.drop_append_of_le_length (by omega),
    List.take_append_of_le_length (by rw [List.length_drop]; omega)]

/-! ## Blocks -/

/-- `_buff` holds the first `i` bytes of the xid and data. -/
def BuffUpto (r e : EnqRec) (i : Nat) : Prop :=
  ∃ b, e.buff = some b ∧ b.length = r.body.length ∧ b.take i = r.body.take i

/-- `_enq_tail` holds the first `j` bytes of the tail. -/
def TailUpto (t : Bytes) (e : EnqRec) (j : Nat) : Prop := e.enqTail.bytes.take j = t.take j

theorem BuffUpto.all {i : Nat} (h : BuffUpto r e i) (hi : r.body.length ≤ i) :
    e.buff = some r.body := by
  obtain ⟨b, hb, hl, ht⟩ := h
  rw [List.take_of_length_le (by omega), List.take_of_length_le hi] at ht
  rw [hb, ht]

theorem buffUpto_all (h : e.buff = some r.body) (i : Nat) : BuffUpto r e i := ⟨_, h, rfl, rfl⟩

theorem TailUpto.all (ht : t.length = recTailSize) (h : TailUpto t e recTailSize) :
    e.enqTail = .ofBytes t := by
  have hl : e.enqTail.bytes.length = recTailSize := length_recTail_bytes _
  have he : e.enqTail.bytes = t := by
    rw [← List.take_of_length_le (Nat.le_of_eq hl), h, List.take_of_length_le (Nat.le_of_eq ht)]
  rw [← he, RecTail.ofBytes_bytes]

/-- The bytes of a page go where the buffer goes on. -/
theorem readBuff_eq {o i n c : Nat} (hb : BuffUpto r e i) (hw : p ++ q = (r.layout t rest).drop o)
    (ho : o + c = 32 + i) (hn : i + n ≤ r.body.length) (hp : c + n ≤ p.length) :
    ∃ e', e.readBuff i p c n = .ok (e', c + n) ∧ e'.enqHdr = e.enqHdr ∧
      e'.enqTail = e.enqTail ∧ BuffUpto r e' (i + n) := by
  obtain ⟨b, hb, hl, ht⟩ := hb
  obtain ⟨b', hb', hl', ht'⟩ := memcpyTo_extends ht (by omega) hn
  have hm : memcpy p c n = .ok ((r.body.drop i).take n) := by
    rw [memcpy, readAt_window hw hp, ho, layout_body r t rest hn]
    rfl
  refine ⟨{ e with buff := some b' }, ?_, rfl, rfl, b', rfl, hl'.trans hl, ht'⟩
  rw [readBuff, hm, except_ok_bind, hb]
  show (memcpyTo b i _ >>= _) = _
  rw [hb']
  rfl

/-- The bytes of a page go where the tail goes on. -/
theorem readTail_eq {o j n c : Nat} (ht : t.length = recTailSize) (hj : TailUpto t e j)
    (hw : p ++ q = (r.layout t rest).drop o) (ho : o + c = 32 + r.body.length + j)
    (hn : j + n ≤ recTailSize) (hp : c + n ≤ p.length) :
    ∃ e', e.readTail j p c n = .ok (e', c + n) ∧ e'.enqHdr = e.enqHdr ∧ e'.buff = e.buff ∧
      TailUpto t e' (j + n) := by
  have hl : e.enqTail.bytes.length = recTailSize := length_recTail_bytes _
  obtain ⟨b', hb', hl', ht'⟩ := memcpyTo_extends (n := n) hj (by omega) (by omega)
  have hm : memcpy p c n = .ok ((t.drop j).take n) := by
    rw [memcpy, readAt_window hw hp, ho, layout_tail r t rest (by omega)]
    rfl
  refine ⟨{ e with enqTail := .ofBytes b' }, ?_, rfl, rfl, ?_⟩
  · rw [readTail, hm, except_ok_bind, hb']
    rfl
  · rw [TailUpto, RecTail.bytes_ofBytes (hl'.trans hl)]
    exact ht'

/-- How reading ends: with the xid and the data, if the tail is that of the header. -/
def Finishes (r : EnqRec) (t : Bytes) (n : Nat) (res : Except RecErr (EnqRec × Nat)) : Prop :=
  if t = (RecTail.ofHdr r.enqHdr.toRecHdr).bytes then
    ∃ e, res = .ok (e, n) ∧ e.enqHdr = r.enqHdr ∧ e.buff = some r.body ∧ e.enqTail = .ofBytes t
  else res = .error .badRecTail

theorem finishTail_eq {o j n c : Nat} (ht : t.length = recTailSize) (hh : e.enqHdr = r.enqHdr)
    (hb : e.buff = some r.body) (hj : TailUpto t e j) (hw : p ++ q = (r.layout t rest).drop o)
    (ho : o + c = 32 + r.body.length + j) (hn : j + n = recTailSize) (hp : c + n ≤ p.length) :
    Finishes r t (c + n) (e.finishTail j p c n) := by
  obtain ⟨e', he, hh', hb', ht'⟩ := readTail_eq ht hj hw ho (Nat.le_of_eq hn) hp
  rw [hn] at ht'
  have hchk : e'.chkTail =
      if t = (RecTail.ofHdr r.enqHdr.toRecHdr).bytes then .ok () else .error .badRecTail := by
    rw [chkTail, ht'.all ht, hh', hh, RecTail.chkTail_ofBytes ht]
  rw [finishTail, he, except_ok_bind, Finishes]
  show if _ then ∃ _, (e'.chkTail >>= _) = _ ∧ _ else (e'.chkTail >>= _) = _
  rw [hchk]
  by_cases heq : t = (RecTail.ofHdr r.enqHdr.toRecHdr).bytes
  · rw [if_pos heq, if_pos heq]
    exact ⟨e', rfl, hh'.trans hh, hb'.trans hb, ht'.all ht⟩
  · rw [if_neg heq, if_neg heq]
    rfl

/-! ## Continuation -/

/-- What `decode` has after the first `k` dblks of the record. -/
structure Got (r : EnqRec) (t : Bytes) (e : EnqRec) (k : Nat) : Prop where
  hdr : e.enqHdr = r.enqHdr
  buff : BuffUpto r e (128 * k - 32)
  tail : TailUpto t e (128 * k - 32 - r.body.length)

section Sizes

variable (h : r.Readable) (he : e.enqHdr = r.enqHdr)

include h he

theorem sizes_eq : e.xidsize = r.xidsize ∧ e.dsize = r.dsize ∧ e.isExternal = false ∧
    e.storedDsize = r.dsize := by
  have hext : e.isExternal = false := by
    rw [isExternal, he]
    exact h.internal
  have hd : e.dsize = r.dsize := by rw [dsize, dsize, he]
  refine ⟨by rw [xidsize, xidsize, he], hd, hext, ?_⟩
  rw [storedDsize, hext, hd]
  rfl

theorem hdrXidSize_eq : e.hdrXidSize = 32 + r.xidsize := by
  have hl := h.size_lt
  have hb := h.body_length
  rw [hdrXidSize, (sizes_eq h he).1, EnqHdr.size, wrap_of_lt (w := 64) (by omega),
    wrap_of_lt (by omega)]

theorem hdrXidDataSize_eq : e.hdrXidDataSize = 32 + r.body.length := by
  have hl := h.size_lt
  obtain ⟨hx, -, -, hd⟩ := sizes_eq h he
  rw [hdrXidDataSize, hx, hd, EnqHdr.size, Nat.add_assoc, ← h.body_length,
    wrap_of_lt (w := 64) (by omega), wrap_of_lt (by omega)]

theorem hdrXidDataTailSize_eq : e.hdrXidDataTailSize = 44 + r.body.length := by
  have hl := h.size_lt
  rw [hdrXidDataTailSize, hdrXidDataSize_eq h he, recTailSize, wrap_of_lt (w := 64) (by omega),
    wrap_of_lt (by omega)]
  omega

theorem outstanding_iff (offs : Nat) : e.outstanding offs ↔ offs < r.body.length := by
  have hl := h.size_lt
  have hb := h.body_length
  obtain ⟨hx, hd, hext, -⟩ := sizes_eq h he
  rw [outstanding, hx, hd, hext, ← hb, wrap_of_lt (by omega)]
  simp only [Bool.false_eq_true, not_false_eq_true, and_true]
  omega

theorem readXidData_eq {offs : Nat} (ho : offs < r.body.length) (p : Bytes) :
    e.readXidData offs p = e.readBuff offs p 0 (r.body.length - offs) := by
  have hl := h.size_lt
  have hb := h.body_length
  obtain ⟨hx, hd, -, -⟩ := sizes_eq h he
  unfold readXidData
  rw [hx, hd, ← hb, wrap_of_lt (by omega)]
  by_cases hlt : offs < r.xidsize
  · rw [if_pos hlt, wsub_of_le (by omega) (by omega)]
  · have hn : r.dsize - (offs - r.xidsize) = r.body.length - offs := by omega
    rw [if_neg hlt, wsub_of_le (a := offs) (by omega) (by omega), wsub_of_le (by omega) (by omega),
      hn]

end Sizes

theorem decodeNext_last (h : r.Readable) (ht : t.length = recTailSize) {k m : Nat} (hk : 0 < k)
    (hlt : k < r.recSizeDblks) (hm : r.recSizeDblks ≤ k + m) (hg : Got r t e k)
    (hw : p ++ q = (r.layout t rest).drop (128 * k)) (hp : 44 + r.body.length ≤ 128 * k + p.length) :
    Finishes r t (44 + r.body.length - 128 * k) (e.decodeNext p k m) := by
  have hl := h.size_lt
  have hn := h.recSizeDblks_eq
  have hb := h.body_length
  have hts : recTailSize = 12 := rfl
  have hoffs : wrap 32 (k * jrnlDblkSize) = 128 * k := by
    rw [jrnlDblkSize, wrap_of_lt (by omega), Nat.mul_comm]
  have htail : sizeDblks32 e.hdrXidDataTailSize = r.recSizeDblks := by
    rw [hdrXidDataTailSize_eq h hg.hdr, sizeDblks32_of_lt hl, hn]
  unfold decodeNext
  simp only [hoffs, EnqHdr.size, wsub_of_le (show 32 ≤ 128 * k by omega)
    (show 128 * k < 2 ^ 64 by omega), htail,
    wsub_of_le (Nat.le_of_lt hlt) (show r.recSizeDblks < 2 ^ 32 by omega)]
  rw [if_pos (by omega)]
  by_cases hout : 128 * k - 32 < r.body.length
  · -- the rest of the xid and data, then the tail
    rw [if_pos ((outstanding_iff h hg.hdr _).mpr hout), readXidData_eq h hg.hdr hout]
    obtain ⟨e', he, hh, htl, hb'⟩ := readBuff_eq (n := r.body.length - (128 * k - 32)) (c := 0)
      hg.buff hw (by omega) (by omega) (by omega)
    rw [he, except_ok_bind]
    have hj : TailUpto t e' 0 := rfl
    have hf := finishTail_eq ht (hh.trans hg.hdr) (hb'.all (by omega)) hj hw
      (c := 0 + (r.body.length - (128 * k - 32))) (n := recTailSize) (by omega)
      (Nat.zero_add _) (by omega)
    have hc : 44 + r.body.length - 128 * k =
      0 + (r.body.length - (128 * k - 32)) + recTailSize := by omega
    rw [hc]
    exact hf
  · -- the rest of the tail
    obtain ⟨hx, hd, -, -⟩ := sizes_eq h hg.hdr
    rw [if_neg (fun hf => hout ((outstanding_iff h hg.hdr _).mp hf)), hx, hd,
      wsub_of_le (a := 128 * k - 32) (by omega) (by omega),
      wsub_of_le (a := 128 * k - 32 - r.xidsize) (by omega) (by omega),
      wsub_of_le (by omega) (by omega)]
    have hj : 128 * k - 32 - r.xidsize - r.dsize = 128 * k - 32 - r.body.length := by omega
    have hf := finishTail_eq ht hg.hdr (hg.buff.all (by omega)) hg.tail hw (c := 0)
      (n := recTailSize - (128 * k - 32 - r.body.length)) (by omega) (by omega) (by omega)
    have hc : 44 + r.body.length - 128 * k =
      0 + (recTailSize - (128 * k - 32 - r.body.length)) := by omega
    rw [hc, hj]
    exact hf

/-- A page in the middle of a record. -/
theorem decodeNext_more (h : r.Readable) (ht : t.length = recTailSize) {k m : Nat} (hk : 0 < k)
    (hm : 0 < m) (hlt : k + m < r.recSizeDblks) (hg : Got r t e k)
    (hw : p ++ q = (r.layout t rest).drop (128 * k)) (hp : p.length = 128 * m) :
    ∃ e', e.decodeNext p k m = .ok (e', 128 * m) ∧ Got r t e' (k + m) := by
  have hl := h.size_lt
  have hn := h.recSizeDblks_eq
  have hts : recTailSize = 12 := rfl
  have hoffs : wrap 32 (k * jrnlDblkSize) = 128 * k := by
    rw [jrnlDblkSize, wrap_of_lt (by omega), Nat.mul_comm]
  have hmax : wrap 32 (m * jrnlDblkSize) = 128 * m := by
    rw [jrnlDblkSize, wrap_of_lt (by omega), Nat.mul_comm]
  have htail : sizeDblks32 e.hdrXidDataTailSize = r.recSizeDblks := by
    rw [hdrXidDataTailSize_eq h hg.hdr, sizeDblks32_of_lt hl, hn]
  have hdata : sizeDblks32 e.hdrXidDataSize = (32 + r.body.length + 127) / 128 := by
    rw [hdrXidDataSize_eq h hg.hdr, sizeDblks32_of_lt (by omega)]
  -- the page ends before the tail does, so it starts in the xid or the data
  have hout : 128 * k - 32 < r.body.length := by omega
  unfold decodeNext
  simp only [hoffs, hmax, EnqHdr.size, wsub_of_le (show 32 ≤ 128 * k by omega)
    (show 128 * k < 2 ^ 64 by omega), htail, hdata,
    wsub_of_le (show k ≤ r.recSizeDblks by omega) (show r.recSizeDblks < 2 ^ 32 by omega),
    wsub_of_le (show k ≤ (32 + r.body.length + 127) / 128 by omega)
      (show (32 + r.body.length + 127) / 128 < 2 ^ 32 by omega)]
  rw [if_neg (by omega)]
  by_cases hd : (32 + r.body.length + 127) / 128 - k ≤ m
  · -- xid and data end in this page, and the tail begins in it or right behind it
    rw [if_pos hd, onlyIf_true ((outstanding_iff h hg.hdr _).mpr hout),
      readXidData_eq h hg.hdr hout]
    obtain ⟨e', he, hh, htl, hb'⟩ := readBuff_eq (n := r.body.length - (128 * k - 32)) (c := 0)
      hg.buff hw (by omega) (by omega) (by omega)
    have hall : e'.buff = some r.body := hb'.all (by omega)
    rw [he, except_ok_bind, wsub_of_le (show _ + _ ≤ _ by omega) (by omega)]
    by_cases h0 : 128 * m - (0 + (r.body.length - (128 * k - 32))) = 0
    · rw [onlyIf_false (fun hf => hf h0)]
      refine ⟨e', by rw [show 0 + (r.body.length - (128 * k - 32)) = 128 * m by omega],
        hh.trans hg.hdr, buffUpto_all hall _, ?_⟩
      rw [show 128 * (k + m) - 32 - r.body.length = 0 by omega]
      rfl
    · rw [onlyIf_true h0]
      have hj : TailUpto t e' 0 := rfl
      obtain ⟨e2, he2, hh2, hb2, ht2⟩ := readTail_eq ht hj hw
        (c := 0 + (r.body.length - (128 * k - 32)))
        (n := 128 * m - (0 + (r.body.length - (128 * k - 32)))) (by omega) (by omega) (by omega)
      refine ⟨e2, ?_, hh2.trans (hh.trans hg.hdr), buffUpto_all (hb2.trans hall) _, ?_⟩
      · rw [he2]
        congr 2
        omega
      · have hc : 128 * (k + m) - 32 - r.body.length =
          0 + (128 * m - (0 + (r.body.length - (128 * k - 32)))) := by omega
        rw [hc]
        exact ht2
  · -- the whole page is xid and data
    rw [if_neg hd]
    obtain ⟨e', he, hh, htl, hb'⟩ := readBuff_eq (n := 128 * m) (c := 0) hg.buff hw (by omega)
      (by omega) (by omega)
    refine ⟨e', by rw [he, Nat.zero_add], hh.trans hg.hdr, ?_, ?_⟩
    · rw [show 128 * (k + m) - 32 = 128 * k - 32 + 128 * m by omega]
      exact hb'
    · rw [show 128 * (k + m) - 32 - r.body.length = 0 by omega]
      rfl

/-! ## Start -/

section Start

variable (h : r.Readable) (he : e.enqHdr = r.enqHdr) (hb : BuffUpto r e 0)
  (hw : p ++ q = r.layout t rest)

include h he hb hw

theorem readXid_eq (hp : 32 + r.xidsize ≤ p.length) :
    ∃ e', onlyIf (e.xidsize ≠ 0) (e.readBuff 0 p EnqHdr.size e.xidsize) (e, EnqHdr.size) =
      .ok (e', 32 + r.xidsize) ∧ e'.enqHdr = r.enqHdr ∧ BuffUpto r e' r.xidsize := by
  have hbl := h.body_length
  rw [(sizes_eq h he).1]
  by_cases h0 : r.xidsize = 0
  · rw [onlyIf_false (fun hf => hf h0), h0]
    exact ⟨e, rfl, he, hb⟩
  · obtain ⟨e', hr, hh, -, hb'⟩ := readBuff_eq (n := r.xidsize) (c := 32) hb
      (hw.trans List.drop_zero.symm) rfl (by omega) hp
    rw [onlyIf_true h0, EnqHdr.size, hr]
    rw [Nat.zero_add] at hb'
    exact ⟨e', rfl, hh.trans he, hb'⟩

theorem readWholeXidData_eq (hp : 32 + r.body.length ≤ p.length) :
    ∃ e', e.readWholeXidData p = .ok (e', 32 + r.body.length) ∧ e'.enqHdr = r.enqHdr ∧
      e'.buff = some r.body := by
  have hbl := h.body_length
  obtain ⟨e', hr, hh, hb'⟩ := readXid_eq h he hb hw (by omega)
  obtain ⟨-, hd, hext, -⟩ := sizes_eq h he
  rw [readWholeXidData, hr, except_ok_bind, hd, hext, (sizes_eq h he).1]
  by_cases h0 : r.dsize = 0
  · rw [onlyIf_false (fun hf => hf.1 h0)]
    exact ⟨e', by rw [hbl, h0, Nat.add_zero], hh, hb'.all (by omega)⟩
  · obtain ⟨e2, hr2, hh2, -, hb2⟩ := readBuff_eq (n := r.dsize) (c := 32 + r.xidsize) hb'
      (hw.trans List.drop_zero.symm) (Nat.zero_add _) (by omega) (by omega)
    rw [onlyIf_true ⟨h0, Bool.false_ne_true⟩, hr2]
    exact ⟨e2, by rw [hbl, Nat.add_assoc], hh2.trans hh, hb2.all (by omega)⟩

/-- The record lies in one page. -/
theorem decodeBody_last (ht : t.length = recTailSize) {m : Nat} (hm : r.recSizeDblks ≤ m)
    (hp : 44 + r.body.length ≤ p.length) :
    Finishes r t (44 + r.body.length) (e.decodeBody p m) := by
  have hl := h.size_lt
  have hts : recTailSize = 12 := rfl
  unfold decodeBody
  rw [hdrXidDataTailSize_eq h he, sizeDblks32_of_lt hl, ← h.recSizeDblks_eq, if_pos hm]
  obtain ⟨e', hr, hh, hb'⟩ := readWholeXidData_eq h he hb hw (by omega)
  rw [hr, except_ok_bind]
  have hj : TailUpto t e' 0 := rfl
  have hc : 44 + r.body.length = 32 + r.body.length + recTailSize := by omega
  rw [hc]
  exact finishTail_eq ht hh hb' hj (hw.trans List.drop_zero.symm) (c := 32 + r.body.length)
    (by omega) (Nat.zero_add _) (by omega)

/-- The first page of a record that goes on. -/
theorem decodeBody_more (ht : t.length = recTailSize) {m : Nat} (hm : 0 < m)
    (hlt : m < r.recSizeDblks) (hp : p.length = 128 * m) :
    ∃ e', e.decodeBody p m = .ok (e', 128 * m) ∧ Got r t e' m := by
  have hl := h.size_lt
  have hn := h.recSizeDblks_eq
  have hbl := h.body_length
  have hts : recTailSize = 12 := rfl
  have hmax : wrap 32 (m * jrnlDblkSize) = 128 * m := by
    rw [jrnlDblkSize, wrap_of_lt (by omega), Nat.mul_comm]
  have hw0 : p ++ q = (r.layout t rest).drop 0 := hw
  unfold decodeBody
  simp only [hmax]
  rw [hdrXidDataTailSize_eq h he, sizeDblks32_of_lt hl, ← hn, if_neg (by omega),
    hdrXidDataSize_eq h he, sizeDblks32_of_lt (by omega)]
  by_cases hd : (32 + r.body.length + 127) / 128 ≤ m
  · -- xid and data lie in this page
    rw [if_pos hd]
    obtain ⟨e', hr, hh, hb'⟩ := readWholeXidData_eq h he hb hw (by omega)
    rw [hr, except_ok_bind, wsub_of_le (show 32 + r.body.length ≤ _ by omega) (by omega)]
    by_cases h0 : 128 * m - (32 + r.body.length) = 0
    · rw [onlyIf_false (fun hf => hf h0)]
      refine ⟨e', by rw [show 32 + r.body.length = 128 * m by omega], hh, buffUpto_all hb' _, ?_⟩
      rw [show 128 * m - 32 - r.body.length = 0 by omega]
      rfl
    · rw [onlyIf_true h0]
      have hj : TailUpto t e' 0 := rfl
      obtain ⟨e2, he2, hh2, hb2, ht2⟩ := readTail_eq ht hj hw0 (c := 32 + r.body.length)
        (n := 128 * m - (32 + r.body.length)) (by omega) (by omega) (by omega)
      refine ⟨e2, ?_, hh2.trans hh, buffUpto_all (hb2.trans hb') _, ?_⟩
      · rw [he2, show 32 + r.body.length + (128 * m - (32 + r.body.length)) = 128 * m by omega]
      · rw [show 128 * m - 32 - r.body.length = 0 + (128 * m - (32 + r.body.length)) by omega]
        exact ht2
  · rw [if_neg hd, hdrXidSize_eq h he, sizeDblks32_of_lt (by omega)]
    have hj : 128 * m - 32 - r.body.length = 0 := by omega
    by_cases hx : (32 + r.xidsize + 127) / 128 ≤ m
    · -- the xid lies in this page, and the data begins in it or right behind it
      rw [if_pos hx]
      obtain ⟨e', hr, hh, hb'⟩ := readXid_eq h he hb hw (by omega)
      obtain ⟨hxs, hds, hext, -⟩ := sizes_eq h he
      obtain ⟨e2, hr2, hh2, -, hb2⟩ := readBuff_eq (n := 128 * m - (32 + r.xidsize))
        (c := 32 + r.xidsize) hb' hw0 (Nat.zero_add _) (by omega) (by omega)
      have h0 : r.dsize ≠ 0 := by omega
      rw [hr, except_ok_bind, hxs, hds, hext, onlyIf_true ⟨h0, Bool.false_ne_true⟩,
        wsub_of_le (show 32 + r.xidsize ≤ _ by omega) (by omega), hr2]
      refine ⟨e2, ?_, hh2.trans hh, ?_, by rw [hj]; rfl⟩
      · rw [show 32 + r.xidsize + (128 * m - (32 + r.xidsize)) = 128 * m by omega]
      · rw [show 128 * m - 32 = r.xidsize + (128 * m - (32 + r.xidsize)) by omega]
        exact hb2
    · -- the xid goes on behind this page
      rw [if_neg hx, EnqHdr.size, wsub_of_le (show 32 ≤ 128 * m by omega) (by omega)]
      obtain ⟨e2, hr2, hh2, -, hb2⟩ := readBuff_eq (n := 128 * m - 32) (c := 32) hb hw0 rfl
        (by omega) (by omega)
      rw [hr2]
      refine ⟨e2, ?_, hh2.trans he, ?_, by rw [hj]; rfl⟩
      · rw [show 32 + (128 * m - 32) = 128 * m by omega]
      · rw [Nat.zero_add] at hb2
        exact hb2

end Start

theorem layout_sizes (r : EnqRec) (t rest : Bytes) :
    ((r.layout t rest).drop 16).take 8 = leBytes 8 r.xidsize ∧
      ((r.layout t rest).drop 24).take 8 = leBytes 8 r.dsize := by
  have hd : (r.layout t rest).drop 16 = leBytes 8 r.xidsize ++ (leBytes 8 r.dsize ++
      (r.body ++ (t ++ rest))) := by
    rw [layout, EnqHdr.bytes, List.append_assoc, List.append_assoc]
    exact List.drop_left' (length_recHdr_bytes _)
  constructor
  · rw [hd]
    exact List.take_left' (length_leBytes 8 _)
  · rw [show 24 = 16 + 8 from rfl, ← List.drop_drop, hd, List.drop_left' (length_leBytes 8 _)]
    exact List.take_left' (length_leBytes 8 _)

theorem decodeStart_eq (h : r.Readable) (hw : p ++ q = r.layout t rest) (hp : 32 ≤ p.length)
    (m : Nat) : e.decodeStart r.enqHdr.toRecHdr p m =
      let e' := { e with enqHdr := r.enqHdr }
      onlyIf (r.body.length ≠ 0)
        (decodeBody { e' with buff := some (List.replicate r.body.length 0) } p m) (e', 32) := by
  have hw0 : p ++ q = (r.layout t rest).drop 0 := hw
  have hx : memcpy p 16 8 = .ok (leBytes 8 r.xidsize) := by
    rw [memcpy, readAt_window hw0 (by omega), Nat.zero_add, (layout_sizes r t rest).1]
    rfl
  have hd : memcpy p 24 8 = .ok (leBytes 8 r.dsize) := by
    rw [memcpy, readAt_window hw0 (by omega), Nat.zero_add, (layout_sizes r t rest).2]
    rfl
  have hhdr : (⟨r.enqHdr.toRecHdr, .ofNat (leNat (leBytes 8 r.xidsize)),
      .ofNat (leNat (leBytes 8 r.dsize))⟩ : EnqHdr) = r.enqHdr := by
    rw [leNat_leBytes (show r.xidsize < 256 ^ 8 from r.enqHdr.xidsize.toNat_lt),
      leNat_leBytes (show r.dsize < 256 ^ 8 from r.dsize_lt), xidsize, dsize, UInt64.ofNat_toNat,
      UInt64.ofNat_toNat]
  have hchk : ({ e with enqHdr := r.enqHdr } : EnqRec).chkHdr = .ok () := by
    have hm : r.enqHdr.magic ≠ 0 := by
      rw [h.magic]
      decide
    rw [chkHdr, RecHdr.chkHdr, require_true ⟨hm, h.version, h.eflag⟩, except_ok_bind,
      require_true h.magic]
  have hlen : wrap 64 (r.xidsize + r.dsize) = r.body.length := by
    have hl := h.size_lt
    rw [← h.body_length, wrap_of_lt (by omega)]
  obtain ⟨hxs, -, -, hsd⟩ := sizes_eq (e := { e with enqHdr := r.enqHdr }) h rfl
  rw [decodeStart, hx, except_ok_bind, hd, except_ok_bind]
  simp only [hhdr, hchk, except_ok_bind, hxs, hsd, hlen]
  rfl

theorem decodeStart_empty (h : r.Readable) (hw : p ++ q = r.layout t rest) (hp : 32 ≤ p.length)
    (m : Nat) (hnil : r.body.length = 0) :
    e.decodeStart r.enqHdr.toRecHdr p m = .ok ({ e with enqHdr := r.enqHdr }, 32) := by
  rw [decodeStart_eq h hw hp]
  exact onlyIf_false (fun hf => hf hnil) _ _

theorem decodeStart_body (h : r.Readable) (hw : p ++ q = r.layout t rest) (hp : 32 ≤ p.length)
    (m : Nat) (hne : r.body.length ≠ 0) :
    ∃ e', e.decodeStart r.enqHdr.toRecHdr p m = e'.decodeBody p m ∧ e'.enqHdr = r.enqHdr ∧
      BuffUpto r e' 0 := by
  rw [decodeStart_eq h hw hp]
  exact ⟨_, onlyIf_true hne _ _, rfl, _, rfl, List.length_replicate, rfl⟩

/-! ## The loop -/

def WholeDblks (p : Bytes) : Prop := 0 < p.length ∧ jrnlDblkSize ∣ p.length

theorem WholeDblks.dblksRem_pos (h : WholeDblks p) : 0 < dblksRem p := by
  obtain ⟨hp, m, hm⟩ := h
  rw [dblksRem, hm, Nat.mul_div_cancel_left _ (by decide)]
  exact Nat.pos_of_ne_zero fun h0 => by
    rw [h0, Nat.mul_zero] at hm
    omega

theorem WholeDblks.length_eq (h : WholeDblks p) : p.length = 128 * dblksRem p :=
  (Nat.mul_div_cancel' h.2).symm

theorem readNext_done (hd : RecHdr) {k : Nat} (hk : e.recSizeDblks ≤ k) (pages : List Bytes) :
    readNext hd e k pages = .ok (e, k) := by
  cases pages with
  | nil => rfl
  | cons => exact if_neg (by omega)

theorem recSizeDblks_congr (he : e.enqHdr = r.enqHdr) : e.recSizeDblks = r.recSizeDblks := by
  simp only [recSizeDblks, recSize, xidsize, dsize, isExternal, he]

theorem Finishes.readNext {n k : Nat} {res : Except RecErr (EnqRec × Nat)} (hd : RecHdr)
    (h : Finishes r t n res) (hs : k + sizeDblks32 n = r.recSizeDblks) (pages : List Bytes) :
    Finishes r t r.recSizeDblks ((res >>= fun p => pure (p.1, sizeDblks32 p.2)) >>=
      fun p => EnqRec.readNext hd p.1 (k + p.2) pages) := by
  unfold Finishes at h ⊢
  by_cases ht : t = (RecTail.ofHdr r.enqHdr.toRecHdr).bytes
  · rw [if_pos ht] at h ⊢
    obtain ⟨e, he, hh, hall⟩ := h
    refine ⟨e, ?_, hh, hall⟩
    rw [he, except_ok_bind]
    show EnqRec.readNext hd e (k + sizeDblks32 n) pages = _
    rw [hs, readNext_done hd (Nat.le_of_eq (recSizeDblks_congr hh))]
  · rw [if_neg ht] at h ⊢
    rw [h]
    rfl

theorem readNext_eq (h : r.Readable) (ht : t.length = recTailSize) {pages : List Bytes}
    (hpages : ∀ p ∈ pages, WholeDblks p) {k : Nat} (hk : 0 < k) (hlt : k < r.recSizeDblks)
    (hg : Got r t e k) (hw : pages.flatten = (r.layout t rest).drop (128 * k))
    (hlong : 128 * r.recSizeDblks ≤ 128 * k + pages.flatten.length) :
    Finishes r t r.recSizeDblks (readNext r.enqHdr.toRecHdr e k pages) := by
  have hl := h.size_lt
  have hn := h.recSizeDblks_eq
  induction pages generalizing e k with
  | nil =>
    rw [List.flatten_nil, List.length_nil] at hlong
    omega
  | cons p pages ih =>
    have hp := hpages p List.mem_cons_self
    have hlen := hp.length_eq
    have hpos := hp.dblksRem_pos
    have hk0 : k ≠ 0 := by omega
    rw [List.flatten_cons] at hw hlong
    rw [List.length_append] at hlong
    rw [readNext, recSizeDblks_congr hg.hdr, if_pos hlt, decode, require_true hpos, except_ok_bind,
      decodeBytes, if_pos hk0]
    by_cases hm : r.recSizeDblks ≤ k + dblksRem p
    · have hs : k + sizeDblks32 (44 + r.body.length - 128 * k) = r.recSizeDblks := by
        rw [sizeDblks32_of_lt (by omega)]
        omega
      exact (decodeNext_last h ht hk hlt hm hg hw (by omega)).readNext _ hs pages
    · obtain ⟨e', he, hg'⟩ := decodeNext_more h ht hk hpos (by omega) hg hw hlen
      have hs : sizeDblks32 (128 * dblksRem p) = dblksRem p := by
        rw [sizeDblks32_of_lt (by omega)]
        omega
      have hw' : pages.flatten = (r.layout t rest).drop (128 * (k + dblksRem p)) := by
        rw [Nat.mul_add, ← List.drop_drop, ← hw, ← hlen, List.drop_left]
      rw [he, except_ok_bind]
      show Finishes r t r.recSizeDblks (readNext _ e' (k + sizeDblks32 (128 * dblksRem p)) pages)
      rw [hs]
      exact ih (fun p hp => hpages p (List.mem_cons_of_mem _ hp)) (by omega) (by omega) hg' hw'
        (by omega)

/-- What `get_xid` or `get_data` gives out. -/
def Gives (out : Option Bytes × Nat) (b : Bytes) : Prop := out.1.getD [] = b ∧ out.2 = b.length

theorem gives_of_buff (h : r.Readable) (he : e.enqHdr = r.enqHdr) (hb : e.buff = some r.body) :
    Gives e.getXid r.xidBytes ∧ Gives e.getData r.dataBytes := by
  obtain ⟨hx, hd, hext, -⟩ := sizes_eq h he
  have hxl := h.sound.xid
  have hdl := h.sound.data h.internal
  have hxb : r.body.take r.xidsize = r.xidBytes := List.take_left' hxl
  have hdb : (r.body.drop r.xidsize).take r.dsize = r.dataBytes := by
    rw [body, List.drop_left' hxl, ← hdl, List.take_length]
  constructor
  · unfold getXid
    rw [hb, hx]
    by_cases h0 : r.xidsize = 0
    · rw [if_pos (.inr h0)]
      have hnil := List.eq_nil_of_length_eq_zero (hxl.trans h0)
      rw [hnil]
      exact ⟨rfl, rfl⟩
    · rw [if_neg (fun hf => hf.elim Bool.false_ne_true h0)]
      exact ⟨hxb, hxl.symm⟩
  · unfold getData
    rw [hb, hx, hd, hext]
    exact ⟨hdb, hdl.symm⟩

theorem gives_of_empty (hnil : r.body = []) (hb : e.buff = none) :
    Gives e.getXid r.xidBytes ∧ Gives e.getData r.dataBytes := by
  rw [body, List.append_eq_nil_iff] at hnil
  have hx : e.getXid = (none, 0) := if_pos (.inl (by rw [hb]; rfl))
  have hd : e.getData = (none, 0) := if_pos (by rw [hb]; rfl)
  rw [hnil.1, hnil.2, hx, hd]
  exact ⟨⟨rfl, rfl⟩, rfl, rfl⟩

theorem memcpy_hdr (hw : p ++ q = r.layout t rest) (hp : RecHdr.size ≤ p.length) :
    memcpy p 0 RecHdr.size = .ok r.enqHdr.toRecHdr.bytes := by
  have hw0 : p ++ q = (r.layout t rest).drop 0 := hw
  have hb : ((r.layout t rest).drop 0).take RecHdr.size = r.enqHdr.toRecHdr.bytes := by
    rw [List.drop_zero, layout, EnqHdr.bytes, List.append_assoc, List.append_assoc]
    exact List.take_left' (length_recHdr_bytes _)
  rw [memcpy, readAt_window hw0 (by rwa [Nat.zero_add]), hb]
  rfl

section ReadEnq

variable (h : r.Readable) {page : Bytes} {pages : List Bytes}
  (hpages : ∀ p ∈ page :: pages, WholeDblks p) (hw : (page :: pages).flatten = r.layout t rest)

include hpages hw

theorem readEnq_eq (e : EnqRec) : e.readEnq page pages =
    ((e.resetRead.decodeStart r.enqHdr.toRecHdr page (dblksRem page) >>=
      fun p => pure (p.1, sizeDblks32 p.2)) >>=
      fun p => readNext r.enqHdr.toRecHdr p.1 (0 + p.2) pages) := by
  have hlen := (hpages page List.mem_cons_self).length_eq
  have hpos := (hpages page List.mem_cons_self).dblksRem_pos
  rw [List.flatten_cons] at hw
  rw [readEnq, memcpy_hdr hw (show 16 ≤ page.length by omega), except_ok_bind,
    RecHdr.ofBytes_bytes, decode,
    require_true hpos, except_ok_bind, decodeBytes, if_neg (fun hf => hf rfl)]
  simp only [Nat.zero_add]

include h

theorem readEnq_body (ht : t.length = recTailSize)
    (hlong : 128 * r.recSizeDblks ≤ (r.layout t rest).length) (hne : r.body.length ≠ 0)
    (e : EnqRec) : Finishes r t r.recSizeDblks (e.readEnq page pages) := by
  have hl := h.size_lt
  have hn := h.recSizeDblks_eq
  have hlen := (hpages page List.mem_cons_self).length_eq
  have hpos := (hpages page List.mem_cons_self).dblksRem_pos
  rw [readEnq_eq hpages hw]
  rw [← hw] at hlong
  rw [List.flatten_cons] at hw hlong
  rw [List.length_append] at hlong
  obtain ⟨e', he, hh, hb⟩ := decodeStart_body (e := e.resetRead) h hw (by omega) (dblksRem page) hne
  rw [he]
  by_cases hm : r.recSizeDblks ≤ dblksRem page
  · have hs : 0 + sizeDblks32 (44 + r.body.length) = r.recSizeDblks := by
      rw [sizeDblks32_of_lt hl, Nat.zero_add, hn]
    exact (decodeBody_last h hh hb hw ht hm (by omega)).readNext _ hs pages
  · obtain ⟨e2, he2, hg⟩ := decodeBody_more h hh hb hw ht hpos (by omega) hlen
    have hs : sizeDblks32 (128 * dblksRem page) = dblksRem page := by
      rw [sizeDblks32_of_lt (by omega)]
      omega
    have hw' : pages.flatten = (r.layout t rest).drop (128 * dblksRem page) := by
      rw [← hw, ← hlen, List.drop_left]
    rw [he2, except_ok_bind]
    show Finishes r t r.recSizeDblks
      (readNext _ e2 (0 + sizeDblks32 (128 * dblksRem page)) pages)
    rw [hs, Nat.zero_add]
    exact readNext_eq h ht (fun p hp => hpages p (List.mem_cons_of_mem _ hp)) hpos (by omega) hg hw'
      (by omega)

theorem readEnq_empty (hnil : r.body = []) (e : EnqRec) :
    e.readEnq page pages = .ok ({ e.resetRead with enqHdr := r.enqHdr }, r.recSizeDblks) := by
  have hlen := (hpages page List.mem_cons_self).length_eq
  have hpos := (hpages page List.mem_cons_self).dblksRem_pos
  have hone : r.recSizeDblks = 1 := by
    rw [h.recSizeDblks_eq, hnil]
    rfl
  rw [readEnq_eq hpages hw]
  rw [List.flatten_cons] at hw
  rw [decodeStart_empty h hw (by omega) _ (by rw [hnil]; rfl), hone]
  have hs : sizeDblks32 32 = 1 := rfl
  rw [except_ok_bind]
  show readNext _ { e.resetRead with enqHdr := r.enqHdr } (0 + sizeDblks32 32) pages = _
  have hdone : recSizeDblks { e.resetRead with enqHdr := r.enqHdr } = 1 :=
    (recSizeDblks_congr (r := r) rfl).trans hone
  rw [hs]
  exact readNext_done _ (Nat.le_of_eq hdone) pages

end ReadEnq

/-- Reading page by page restores the xid and the data of a record, stays in the pages, and takes
the record's dblks. Unless both are empty, the tail is read as it is stored, and one that is not
that of the header is found. -/
theorem readEnq_restores (h : r.Readable) (ht : t.length = recTailSize) {page : Bytes}
    {pages : List Bytes} (hpages : ∀ p ∈ page :: pages, WholeDblks p)
    (hw : (page :: pages).flatten = r.layout t rest)
    (hlong : 128 * r.recSizeDblks ≤ (r.layout t rest).length) (e : EnqRec) :
    if r.body = [] ∨ t = (RecTail.ofHdr r.enqHdr.toRecHdr).bytes then
      ∃ e', e.readEnq page pages = .ok (e', r.recSizeDblks) ∧ Gives e'.getXid r.xidBytes ∧
        Gives e'.getData r.dataBytes ∧ (r.body ≠ [] → e'.enqTail.bytes = t)
    else e.readEnq page pages = .error .badRecTail := by
  by_cases hnil : r.body = []
  · rw [if_pos (.inl hnil), readEnq_empty h hpages hw hnil]
    obtain ⟨hx, hd⟩ := gives_of_empty (e := { e.resetRead with enqHdr := r.enqHdr }) hnil rfl
    exact ⟨_, rfl, hx, hd, fun hf => absurd hnil hf⟩
  · have hne : r.body.length ≠ 0 := fun h0 => hnil (List.eq_nil_of_length_eq_zero h0)
    have hfin := readEnq_body h hpages hw ht hlong hne e
    unfold Finishes at hfin
    simp only [hnil, false_or]
    by_cases heq : t = (RecTail.ofHdr r.enqHdr.toRecHdr).bytes
    · rw [if_pos heq] at hfin ⊢
      obtain ⟨e', he, hh, hbf, htl⟩ := hfin
      obtain ⟨hx, hd⟩ := gives_of_buff h hh hbf
      exact ⟨e', he, hx, hd, fun _ => by rw [htl, RecTail.bytes_ofBytes ht]⟩
    · rw [if_neg heq] at hfin ⊢
      exact hfin

/-- A record of 144 bytes, the last 4 of its tail in a second dblk. -/
def twoPageRec : EnqRec :=
  init.resetWrite 77 (some (List.replicate 90 2)) 90 (some (List.replicate 10 1)) 10 false false false

theorem twoPageRec_readable : twoPageRec.Readable where
  sound := resetWrite_sound init 77 false false rfl (fun _ => rfl) (by decide)
  internal := isExternal_resetWrite init _ _ _ _ _ _ _ _
  magic := rfl
  version := rfl
  eflag := rfl

theorem twoPageRec_restored :
    let t := (RecTail.ofHdr twoPageRec.enqHdr.toRecHdr).bytes
    let b := twoPageRec.layout t (List.replicate 112 255)
    ∃ e', init.readEnq (b.take 128) [b.drop 128] = .ok (e', 2) ∧
      Gives e'.getXid twoPageRec.xidBytes ∧ Gives e'.getData twoPageRec.dataBytes := by
  intro t b
  have hb : b.length = 256 := layout_length _ _ _
  have hpages : ∀ p ∈ [b.take 128, b.drop 128], WholeDblks p := by
    intro p hp
    rw [List.mem_cons, List.mem_singleton] at hp
    have hl : p.length = 128 := by
      rcases hp with rfl | rfl
      · rw [List.length_take, hb]
        rfl
      · rw [List.length_drop, hb]
    exact ⟨by omega, by rw [hl]; exact Nat.dvd_refl 128⟩
  have hw : [b.take 128, b.drop 128].flatten = b := by
    rw [List.flatten_cons, List.flatten_cons, List.flatten_nil, List.append_nil,
      List.take_append_drop]
  have hlong : 128 * twoPageRec.recSizeDblks ≤ b.length := by
    have hn : 128 * twoPageRec.recSizeDblks = 256 := rfl
    rw [hn]
    exact Nat.le_of_eq hb.symm
  have hr := readEnq_restores twoPageRec_readable rfl hpages hw hlong init
  rw [if_pos (.inr rfl)] at hr
  obtain ⟨e', he, hx, hd, -⟩ := hr
  exact ⟨e', he, hx, hd⟩

end EnqRec

end RhmStore
