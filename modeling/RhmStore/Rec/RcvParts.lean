import RhmStore.Jrnl.RcvDecode
import RhmStore.Rec.External

/-! # The parts of a record in recovery

What `Rcv.decode` does on a stream that ends somewhere in the record or behind it. -/

namespace RhmStore

namespace Rcv

/-- How `read` and `ignore` extract up to `n` bytes from a good stream. -/
structure Extracts (extract : IfStream → Nat → Bytes × IfStream) : Prop where
  all : ∀ {rest : Bytes} {n : Nat}, n < 2 ^ 63 → n ≤ rest.length →
    extract ⟨rest, false, false⟩ n = (rest.take n, ⟨rest.drop n, false, false⟩)
  short : ∀ (rest : Bytes) {n : Nat}, n < 2 ^ 63 → rest.length < n →
    ∃ fail, extract ⟨rest, false, false⟩ n = (rest, ⟨[], true, fail⟩)

theorem extracts_read : Extracts IfStream.read where
  all := by
    intro rest n _ hn
    exact if_pos hn
  short := by
    intro rest n _ hn
    have hn' : ¬n ≤ rest.length := by omega
    exact ⟨true, if_neg hn'⟩

theorem extracts_ignore : Extracts (fun s n => s.ignore (toStreamsize n)) where
  all := by
    intro rest n hl hn
    rw [toStreamsize, if_pos hl]
    exact if_pos hn
  short := by
    intro rest n hl hn
    rw [toStreamsize, if_pos hl]
    have hn' : ¬n ≤ rest.length := by omega
    exact ⟨false, if_neg hn'⟩

section Part

variable {extract : IfStream → Nat → Bytes × IfStream} (hx : Extracts extract)
  {store : Rcv → Nat → Bytes → Except RecErr Rcv} {b : Bytes} {e start size : Nat} {r : Rcv}

/-- What a stream that ends `e` bytes behind the start of the record has left at its offset. -/
def Reads (b : Bytes) (e : Nat) (r : Rcv) : Prop :=
  r.ifsp = ⟨(b.take e).drop r.recOffs, false, false⟩

theorem part_done (hl : start + size < 2 ^ 64) (ho : start + size ≤ r.recOffs) :
    r.part start size extract store = .ok (true, r) := by
  rw [part, wrap_of_lt hl, if_neg (by omega)]
  rfl

section Open

variable (hr : Reads b e r) (hs : start ≤ r.recOffs) (hl : start + size < 2 ^ 63) (he : e ≤ b.length)
  (hoe : r.recOffs ≤ e)

include hx hr hs hl he hoe

theorem part_all (ho : r.recOffs < start + size) (hend : start + size ≤ e) :
    r.part start size extract store =
      (store { r with ifsp := ⟨(b.take e).drop (start + size), false, false⟩, recOffs := start + size }
        (r.recOffs - start) ((b.drop r.recOffs).take (start + size - r.recOffs)) >>=
        fun r => pure (true, r)) := by
  have hlen : ((b.take e).drop r.recOffs).length = e - r.recOffs := by
    rw [List.length_drop, List.length_take]
    omega
  have hb : ((b.take e).drop r.recOffs).take (start + size - r.recOffs) =
      (b.drop r.recOffs).take (start + size - r.recOffs) := by
    rw [List.drop_take, List.take_take]
    congr 1
    omega
  have hbl : ((b.drop r.recOffs).take (start + size - r.recOffs)).length = start + size - r.recOffs := by
    rw [List.length_take, List.length_drop]
    omega
  rw [part, wrap_of_lt (show start + size < 2 ^ 64 by omega), if_pos ho,
    wsub_of_le hs (by omega)]
  simp only
  rw [wsub_of_le (show r.recOffs - start ≤ size by omega) (by omega),
    show size - (r.recOffs - start) = start + size - r.recOffs by omega, hr,
    hx.all (by omega) (by omega), hb, List.drop_drop,
    show r.recOffs + (start + size - r.recOffs) = start + size by omega]
  simp only [hbl]
  rw [show r.recOffs + (start + size - r.recOffs) = start + size by omega,
    wrap_of_lt (show start + size < 2 ^ 64 by omega)]
  simp only [if_neg (Nat.lt_irrefl _)]

variable (store) in
theorem part_short (hend : e < start + size) : ∃ fail, r.part start size extract store =
      (store { r with ifsp := ⟨[], true, fail⟩, recOffs := e } (r.recOffs - start)
        ((b.drop r.recOffs).take (e - r.recOffs)) >>= fun r => do
          require r.ifsp.eof .assertion
          pure (false, { r with ifsp.fail := false })) := by
  have hb : (b.take e).drop r.recOffs = (b.drop r.recOffs).take (e - r.recOffs) := List.drop_take
  have hbl : ((b.drop r.recOffs).take (e - r.recOffs)).length = e - r.recOffs := by
    rw [List.length_take, List.length_drop]
    omega
  obtain ⟨fail, hf⟩ := hx.short ((b.drop r.recOffs).take (e - r.recOffs))
    (n := start + size - r.recOffs) (by omega) (by omega)
  refine ⟨fail, ?_⟩
  rw [part, wrap_of_lt (show start + size < 2 ^ 64 by omega), if_pos (by omega),
    wsub_of_le hs (by omega)]
  simp only
  rw [wsub_of_le (show r.recOffs - start ≤ size by omega) (by omega),
    show size - (r.recOffs - start) = start + size - r.recOffs by omega, hr, hb, hf]
  simp only [hbl]
  rw [show r.recOffs + (e - r.recOffs) = e by omega, wrap_of_lt (show e < 2 ^ 64 by omega)]
  simp only [if_pos (show e - r.recOffs < start + size - r.recOffs by omega)]

end Open

end Part

/-! ## The parts of a record -/

/-- The bytes `b` of the journal from the start of a record on, which has the sizes `z`, the xid, and the
tail `t` if it has one. -/
structure Layout (z : RcvSizes) (xid t b : Bytes) : Prop where
  hdr_pos : 0 < z.hdrSize
  xid_length : xid.length = z.xidsize
  tail_length : t.length = recTailSize
  tailSize : z.tailSize = 0 ∨ z.tailSize = recTailSize
  recSize : z.recSize = z.hdrSize + z.xidsize + z.dsize + z.tailSize
  small : z.recSize < 2 ^ 63
  long : z.recSize ≤ b.length
  xid : (b.drop z.hdrSize).take z.xidsize = xid
  tail : (b.drop (z.hdrSize + z.xidsize + z.dsize)).take z.tailSize = t.take z.tailSize

structure Has (z : RcvSizes) (xid t : Bytes) (r : Rcv) : Prop where
  hdr_le : z.hdrSize ≤ r.recOffs
  bare : z.xidsize = 0 → r.buff = none
  buff : z.xidsize ≠ 0 → ∃ b, r.buff = some b ∧ b.length = z.xidsize ∧
    b.take (r.recOffs - z.hdrSize) = xid.take (r.recOffs - z.hdrSize)
  tail : r.tail.bytes.take (r.recOffs - (z.hdrSize + z.xidsize + z.dsize)) =
    t.take (r.recOffs - (z.hdrSize + z.xidsize + z.dsize)) ∨ z.tailSize = 0

section Decode

variable {z : RcvSizes} {xid t b : Bytes} {e : Nat} {r : Rcv}

/-- How decoding up to the offset `n` of the record ends, where the stream ends at `e`. -/
def Goes (z : RcvSizes) (xid t b : Bytes) (e : Nat) (r : Rcv) (n : Nat)
    (res : Except RecErr (Bool × Rcv)) : Prop :=
  if n ≤ e then ∃ r', res = .ok (true, r') ∧ Has z xid t r' ∧ r'.recOffs = max r.recOffs n ∧ Reads b e r'
  else ∃ r', res = .ok (false, r') ∧ Has z xid t r' ∧ r'.recOffs = e

theorem storeBuff_eq (hb : Layout z xid t b) (hh : Has z xid t r) {ifsp : IfStream} {o : Nat}
    (hlt : r.recOffs < z.hdrSize + z.xidsize) (hle : r.recOffs ≤ o) (ho : o ≤ z.hdrSize + z.xidsize) :
    ∃ r', storeBuff { r with ifsp := ifsp, recOffs := o } (r.recOffs - z.hdrSize)
      ((b.drop r.recOffs).take (o - r.recOffs)) = .ok r' ∧ Has z xid t r' ∧ r'.recOffs = o ∧
      r'.ifsp = ifsp := by
  have hge := hh.hdr_le
  obtain ⟨c, hc, hcl, hct⟩ := hh.buff (by omega)
  have hxl := hb.xid_length
  have hchunk : (b.drop r.recOffs).take (o - r.recOffs) =
      (xid.drop (r.recOffs - z.hdrSize)).take (o - r.recOffs) := by
    rw [← hb.xid, List.drop_take, List.drop_drop, List.take_take,
      show z.hdrSize + (r.recOffs - z.hdrSize) = r.recOffs by omega]
    congr 1
    omega
  obtain ⟨c', hc', hcl', hct'⟩ := memcpyTo_extends (n := o - r.recOffs) hct (by omega) (by omega)
  refine ⟨{ r with ifsp := ifsp, recOffs := o, buff := some c' }, ?_, ?_, rfl, rfl⟩
  · rw [storeBuff, hchunk]
    simp only [hc]
    show (memcpyTo c _ _ >>= _) = _
    rw [hc']
    rfl
  · constructor
    · show z.hdrSize ≤ o
      omega
    · intro h0
      omega
    · intro _
      refine ⟨c', rfl, hcl'.trans hcl, ?_⟩
      rw [show r.recOffs - z.hdrSize + (o - r.recOffs) = o - z.hdrSize by omega] at hct'
      exact hct'
    · left
      rw [show o - (z.hdrSize + z.xidsize + z.dsize) = 0 by omega]
      rfl

theorem storeTail_eq (hb : Layout z xid t b) (hh : Has z xid t r) {ifsp : IfStream} {o : Nat}
    (hge : z.hdrSize + z.xidsize + z.dsize ≤ r.recOffs) (hlt : r.recOffs < z.recSize)
    (hle : r.recOffs ≤ o) (ho : o ≤ z.recSize) :
    ∃ r', storeTail { r with ifsp := ifsp, recOffs := o }
      (r.recOffs - (z.hdrSize + z.xidsize + z.dsize)) ((b.drop r.recOffs).take (o - r.recOffs)) = .ok r' ∧
      Has z xid t r' ∧ r'.recOffs = o ∧ r'.ifsp = ifsp := by
  have hs := hb.recSize
  have htl := hb.tail_length
  have hts : z.tailSize = recTailSize := by
    rcases hb.tailSize with h0 | h0
    · omega
    · exact h0
  have hct := hh.tail.resolve_right (by omega)
  have hl : r.tail.bytes.length = recTailSize := length_recTail_bytes _
  have hchunk : (b.drop r.recOffs).take (o - r.recOffs) =
      (t.drop (r.recOffs - (z.hdrSize + z.xidsize + z.dsize))).take (o - r.recOffs) := by
    have hbt := hb.tail
    rw [List.take_of_length_le (l := t) (by omega)] at hbt
    rw [← hbt, List.drop_take, List.drop_drop, List.take_take,
      show z.hdrSize + z.xidsize + z.dsize + (r.recOffs - (z.hdrSize + z.xidsize + z.dsize)) =
        r.recOffs by omega]
    congr 1
    omega
  obtain ⟨c', hc', hcl', hct'⟩ := memcpyTo_extends (n := o - r.recOffs) hct (by omega) (by omega)
  refine ⟨{ r with ifsp := ifsp, recOffs := o, tail := .ofBytes c' }, ?_, ?_, rfl, rfl⟩
  · rw [storeTail, hchunk]
    simp only [hc']
    rfl
  · constructor
    · show z.hdrSize ≤ o
      omega
    · exact hh.bare
    · intro h0
      obtain ⟨c, hc, hcl, hct⟩ := hh.buff h0
      have hxl := hb.xid_length
      refine ⟨c, hc, hcl, ?_⟩
      rw [List.take_of_length_le (by omega), List.take_of_length_le (by omega)] at hct
      show c.take (o - z.hdrSize) = _
      rw [hct]
    · left
      show (RecTail.ofBytes c').bytes.take (o - _) = _
      rw [show r.recOffs - (z.hdrSize + z.xidsize + z.dsize) + (o - r.recOffs) =
        o - (z.hdrSize + z.xidsize + z.dsize) by omega] at hct'
      rw [RecTail.bytes_ofBytes (hcl'.trans hl)]
      exact hct'

theorem skip_has (hb : Layout z xid t b) (hh : Has z xid t r) {ifsp : IfStream} {o : Nat}
    (hge : z.hdrSize + z.xidsize ≤ r.recOffs) (hle : r.recOffs ≤ o)
    (ho : o ≤ z.hdrSize + z.xidsize + z.dsize) :
    Has z xid t { r with ifsp := ifsp, recOffs := o } := by
  have hxl := hb.xid_length
  constructor
  · show z.hdrSize ≤ o
    omega
  · exact hh.bare
  · intro h0
    obtain ⟨c, hc, hcl, hct⟩ := hh.buff h0
    refine ⟨c, hc, hcl, ?_⟩
    rw [List.take_of_length_le (by omega), List.take_of_length_le (by omega)] at hct
    show c.take (o - z.hdrSize) = _
    rw [hct]
  · left
    show r.tail.bytes.take (o - _) = _
    rw [show o - (z.hdrSize + z.xidsize + z.dsize) = 0 by omega]
    rfl

section Parts

variable (hb : Layout z xid t b) (hh : Has z xid t r) (hr : Reads b e r) (he : e ≤ b.length)
  (hoe : r.recOffs ≤ e)

include hh hr he hoe

theorem part_goes {extract : IfStream → Nat → Bytes × IfStream} (hx : Extracts extract)
    {store : Rcv → Nat → Bytes → Except RecErr Rcv} {start size : Nat} (hs : start ≤ r.recOffs)
    (hl : start + size < 2 ^ 63)
    (hstore : ∀ (ifsp : IfStream) {o : Nat}, r.recOffs < start + size → r.recOffs ≤ o →
      o ≤ start + size → ∃ r', store { r with ifsp := ifsp, recOffs := o } (r.recOffs - start)
        ((b.drop r.recOffs).take (o - r.recOffs)) = .ok r' ∧ Has z xid t r' ∧ r'.recOffs = o ∧
        r'.ifsp = ifsp) :
    Goes z xid t b e r (start + size) (r.part start size extract store) := by
  unfold Goes
  by_cases hend : start + size ≤ e
  · rw [if_pos hend]
    by_cases ho : r.recOffs < start + size
    · obtain ⟨r', hr', hh', ho', hi'⟩ := hstore ⟨(b.take e).drop (start + size), false, false⟩
        ho (Nat.le_of_lt ho) (Nat.le_refl _)
      rw [part_all hx hr hs hl he hoe ho hend, hr']
      refine ⟨r', rfl, hh', by omega, ?_⟩
      rw [Reads, ho', hi']
    · rw [part_done (by omega) (by omega)]
      exact ⟨r, rfl, hh, by omega, hr⟩
  · rw [if_neg hend]
    obtain ⟨fail, hpart⟩ := part_short hx store hr hs hl he hoe (by omega)
    rw [hpart]
    obtain ⟨r', hr', hh', ho', hi'⟩ := hstore ⟨[], true, fail⟩ (by omega) hoe (by omega)
    rw [hr', except_ok_bind, hi', require_true rfl, except_ok_bind]
    exact ⟨_, rfl, ⟨hh'.hdr_le, hh'.bare, hh'.buff, hh'.tail⟩, ho'⟩

include hb

theorem xid_goes : Goes z xid t b e r (z.hdrSize + z.xidsize) (r.xid z) := by
  have hs := hb.recSize
  have hl := hb.small
  apply part_goes hh hr he hoe extracts_read hh.hdr_le (by omega)
  intro ifsp o hlt hle ho
  exact storeBuff_eq hb hh hlt hle ho

theorem data_goes (hge : z.hdrSize + z.xidsize ≤ r.recOffs) :
    Goes z xid t b e r (z.hdrSize + z.xidsize + z.dsize) (r.data z) := by
  have hs := hb.recSize
  have hl := hb.small
  have hw : wrap 64 (z.hdrSize + z.xidsize) = z.hdrSize + z.xidsize := wrap_of_lt (by omega)
  rw [data, hw]
  apply part_goes hh hr he hoe extracts_ignore hge (by omega)
  intro ifsp o _ hle ho
  exact ⟨_, rfl, skip_has hb hh hge hle ho, rfl, rfl⟩

theorem tail_goes (hge : z.hdrSize + z.xidsize + z.dsize ≤ r.recOffs) :
    Goes z xid t b e r z.recSize (r.readTail z) := by
  have hs := hb.recSize
  have hl := hb.small
  have hw : wrap 64 (z.hdrSize + z.xidsize + z.dsize) = z.hdrSize + z.xidsize + z.dsize :=
    wrap_of_lt (by omega)
  rw [readTail, hw, hs]
  apply part_goes hh hr he hoe extracts_read hge (by omega)
  intro ifsp o hlt hle ho
  exact storeTail_eq hb hh hge (by omega) hle (by omega)

end Parts

/-! ## The end of a record -/

/-- Where the stream is left: the dblk boundary is found if its offset fits in 32 bits. -/
def leftAt (n : Nat) : Nat := if 128 * sizeDblks n < 2 ^ 32 then 128 * sizeDblks n else n

theorem sizeDblks_eq (n : Nat) : sizeDblks n = (n + 127) / 128 := by
  rw [sizeDblks, sizeBlks, jrnlDblkSize, Nat.add_sub_assoc (by decide)]

theorem pad_eq {n : Nat} (h : n < 2 ^ 63) :
    n + toStreamsize (wsub 64 (wrap 32 (sizeDblks32 n * jrnlDblkSize)) n) = leftAt n := by
  have hw : wrap 32 (sizeDblks32 n * jrnlDblkSize) = 128 * sizeDblks n % 2 ^ 32 := by
    rw [sizeDblks32_eq h, jrnlDblkSize, sizeDblks_eq]
    unfold wrap
    omega
  have hd := sizeDblks_eq n
  unfold leftAt
  by_cases hs : 128 * sizeDblks n < 2 ^ 32
  · rw [hw, Nat.mod_eq_of_lt hs, if_pos hs, wsub_of_le (by omega) (by omega), toStreamsize,
      if_pos (by omega)]
    omega
  · have hneg : wsub 64 (128 * sizeDblks n % 2 ^ 32) n = 2 ^ 64 - n + 128 * sizeDblks n % 2 ^ 32 := by
      rw [wsub, wrap_of_lt (show n < 2 ^ 64 by omega), wrap_of_lt (by omega), Nat.add_comm]
    rw [hw, if_neg hs, hneg, toStreamsize, if_neg (by omega), Nat.add_zero]

def TailRight (z : RcvSizes) (h : RecHdr) (t : Bytes) : Prop :=
  z.tailSize ≠ 0 → t = (RecTail.ofHdr h).bytes

instance decidableTailRight (z : RcvSizes) (h : RecHdr) (t : Bytes) : Decidable (TailRight z h t) :=
  inferInstanceAs (Decidable (_ → _))

theorem finish_eq (hb : Layout z xid t b) (hh : Has z xid t r) (hr : Reads b e r) (he : e ≤ b.length)
    (ho : r.recOffs = z.recSize) (hfit : leftAt z.recSize ≤ e) (h : RecHdr) :
    r.finish z h = if TailRight z h t then
      .ok (true, { r with ifsp := ⟨(b.take e).drop (leftAt z.recSize), false, false⟩ })
    else .error .badRecTail := by
  have hpad := pad_eq hb.small
  have hs := hb.recSize
  unfold Reads at hr
  have hskip : (IfStream.ignore r.ifsp (toStreamsize (wsub 64
      (wrap 32 (sizeDblks32 z.recSize * jrnlDblkSize)) z.recSize))).2 =
      ⟨(b.take e).drop (leftAt z.recSize), false, false⟩ := by
    have hle : toStreamsize (wsub 64 (wrap 32 (sizeDblks32 z.recSize * jrnlDblkSize)) z.recSize) ≤
        ((b.take e).drop r.recOffs).length := by
      rw [List.length_drop, List.length_take]
      omega
    rw [hr, ← hpad, ← ho]
    show (if _ ≤ ((b.take e).drop r.recOffs).length then _ else _ : Bytes × IfStream).2 = _
    rw [ho] at hle ⊢
    rw [if_pos hle, List.drop_drop]
  have hchk : z.tailSize ≠ 0 → r.tail.chkTail h =
      if t = (RecTail.ofHdr h).bytes then .ok () else .error .badRecTail := by
    intro h0
    have ht := hh.tail.resolve_right h0
    have hl : r.tail.bytes.length = recTailSize := length_recTail_bytes _
    have htl := hb.tail_length
    have hts := hb.tailSize.resolve_left h0
    rw [List.take_of_length_le (by omega), List.take_of_length_le (by omega)] at ht
    rw [← RecTail.chkTail_ofBytes htl, ← ht, RecTail.ofBytes_bytes]
  unfold finish
  simp only [hskip]
  by_cases h0 : z.tailSize = 0
  · have htr : TailRight z h t := fun hf => absurd h0 hf
    rw [if_neg (fun hf => hf h0), if_pos htr]
    rfl
  · rw [if_pos h0, hchk h0]
    by_cases ht : t = (RecTail.ofHdr h).bytes
    · have htr : TailRight z h t := fun _ => ht
      rw [if_pos ht, if_pos htr]
      rfl
    · have htr : ¬TailRight z h t := fun hf => ht (hf h0)
      rw [if_neg ht, if_neg htr]
      rfl

theorem decode_goes (hb : Layout z xid t b) (hh : Has z xid t r) (hr : Reads b e r) (he : e ≤ b.length)
    (hoe : r.recOffs ≤ e) (hos : r.recOffs ≤ z.recSize) (hd : 128 ∣ e) (h : RecHdr) :
    if z.recSize ≤ e then
      if TailRight z h t then ∃ r', r.decode z h = .ok (true, r') ∧ Has z xid t r' ∧
        r'.recOffs = z.recSize ∧ r'.ifsp = ⟨(b.take e).drop (leftAt z.recSize), false, false⟩
      else r.decode z h = .error .badRecTail
    else ∃ r', r.decode z h = .ok (false, r') ∧ Has z xid t r' ∧ r'.recOffs = e := by
  have hs := hb.recSize
  have hx := xid_goes hb hh hr he hoe
  unfold Goes at hx
  by_cases h1 : z.hdrSize + z.xidsize ≤ e
  · rw [if_pos h1] at hx
    obtain ⟨r1, hr1, hh1, ho1, hr1'⟩ := hx
    have hdt := data_goes hb hh1 hr1' he (by omega) (by omega)
    unfold Goes at hdt
    by_cases h2 : z.hdrSize + z.xidsize + z.dsize ≤ e
    · rw [if_pos h2] at hdt
      obtain ⟨r2, hr2, hh2, ho2, hr2'⟩ := hdt
      have ht := tail_goes hb hh2 hr2' he (by omega) (by omega)
      unfold Goes at ht
      by_cases h3 : z.recSize ≤ e
      · rw [if_pos h3] at ht
        obtain ⟨r3, hr3, hh3, ho3, hr3'⟩ := ht
        have hfit : leftAt z.recSize ≤ e := by
          have hdb := sizeDblks_eq z.recSize
          unfold leftAt
          split <;> omega
        have ho3' : r3.recOffs = z.recSize := by omega
        have hfin := finish_eq hb hh3 hr3' he ho3' hfit h
        have hdec : r.decode z h = r3.finish z h := by
          rw [decode, hr1, except_ok_bind]
          show (r1.data z >>= _) = _
          rw [hr2, except_ok_bind]
          show (r2.readTail z >>= _) = _
          rw [hr3, except_ok_bind]
          rfl
        rw [if_pos h3, hdec, hfin]
        by_cases htr : TailRight z h t
        · rw [if_pos htr, if_pos htr]
          exact ⟨_, rfl, ⟨hh3.hdr_le, hh3.bare, hh3.buff, hh3.tail⟩, ho3', rfl⟩
        · rw [if_neg htr, if_neg htr]
      · rw [if_neg h3] at ht
        obtain ⟨r3, hr3, hh3, ho3⟩ := ht
        rw [if_neg h3]
        refine ⟨r3, ?_, hh3, ho3⟩
        rw [decode, hr1, except_ok_bind]
        show (r1.data z >>= _) = _
        rw [hr2, except_ok_bind]
        show (r2.readTail z >>= _) = _
        rw [hr3]
        rfl
    · rw [if_neg h2] at hdt
      obtain ⟨r2, hr2, hh2, ho2⟩ := hdt
      rw [if_neg (by omega)]
      refine ⟨r2, ?_, hh2, ho2⟩
      rw [decode, hr1, except_ok_bind]
      show (r1.data z >>= _) = _
      rw [hr2]
      rfl
  · rw [if_neg h1] at hx
    obtain ⟨r1, hr1, hh1, ho1⟩ := hx
    rw [if_neg (by omega)]
    refine ⟨r1, ?_, hh1, ho1⟩
    rw [decode, hr1]
    rfl

end Decode

end Rcv

end RhmStore
