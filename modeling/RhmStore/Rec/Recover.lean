import RhmStore.Rec.RcvParts

/-! # Recovering a record over several files -/

namespace RhmStore

open EnqRec (total Gives exists_pages length_flatten)

/-! ## The loop over the files -/

/-- How the calls for a record of `size` bytes end, on files from whose start it is laid out: false on
every file that ends before the record does, then true, with the stream at `left`. -/
def Recovered {ρ : Type} (size left : Nat) (right : Prop) [Decidable right] (Yields : ρ → Prop)
    (files : List Bytes) (res : Except RecErr (Option (ρ × IfStream × Nat))) : Prop :=
  if right then ∃ e c,
    res = .ok (some (e, ⟨(files.take (c + 1)).flatten.drop left, false, false⟩, c)) ∧ Yields e ∧
      (∀ j ≤ c, (files.take j).flatten.length < size) ∧ size ≤ (files.take (c + 1)).flatten.length
  else res = .error .badRecTail

open Rcv (Layout Has Reads TailRight leftAt sizeDblks_eq decode_goes)

/-- A record class: how its `rcv_decode` starts on an object, and goes on as `Rcv.decode` does on one that
has the header of the record. -/
structure Resumes {ρ : Type} (z : RcvSizes) (h : RecHdr) (hdr : Bytes) (Hdr : ρ → Prop)
    (buff : ρ → Option Bytes) (tail : ρ → RecTail) (init : ρ)
    (rcvDecode : RecHdr → ρ → IfStream → Nat → Except RecErr (Bool × ρ × IfStream × Nat)) : Prop where
  length : hdr.length = z.hdrSize
  long : RecHdr.size ≤ z.hdrSize
  short : z.hdrSize < jrnlDblkSize
  parses : RecHdr.ofBytes (hdr.take RecHdr.size) = h
  first : ∀ rest : Bytes, ∃ e, Hdr e ∧ (z.xidsize = 0 → buff e = none) ∧
    (z.xidsize ≠ 0 → buff e = some (List.replicate z.xidsize 0)) ∧
    rcvDecode h init ⟨hdr.drop RecHdr.size ++ rest, false, false⟩ 0 =
      rcvDecode h e ⟨rest, false, false⟩ z.hdrSize
  next : ∀ {e : ρ} (ifsp : IfStream) {o : Nat}, Hdr e → o ≠ 0 →
    ∃ set : Option Bytes → RecTail → ρ,
      (∀ b t, Hdr (set b t) ∧ buff (set b t) = b ∧ tail (set b t) = t) ∧
      rcvDecode h e ifsp o = (Rcv.decode z h ⟨buff e, tail e, ifsp, o⟩ >>= fun x =>
        pure (x.1, set x.2.buff x.2.tail, x.2.ifsp, x.2.recOffs))

structure Whole {ρ : Type} (z : RcvSizes) (xid : Bytes) (Hdr : ρ → Prop) (buff : ρ → Option Bytes)
    (e : ρ) : Prop where
  hdr : Hdr e
  bare : z.xidsize = 0 → buff e = none
  buff : z.xidsize ≠ 0 → buff e = some xid

section Loop

variable {ρ : Type} {rcv : ρ → IfStream → Nat → Except RecErr (Bool × ρ × IfStream × Nat)}

theorem rcvLoop_true {e e' : ρ} {o o' : Nat} {s s' : IfStream} {files : List Bytes}
    (hr : rcv e s o = .ok (true, e', s', o')) : rcvLoop rcv e o s files = .ok (some (e', s', 0)) := by
  rw [rcvLoop, hr]
  rfl

theorem rcvLoop_false {e e' : ρ} {o o' : Nat} {s s' : IfStream} {file : Bytes} {files : List Bytes}
    (hr : rcv e s o = .ok (false, e', s', o')) : rcvLoop rcv e o s (file :: files) =
      (rcvLoop rcv e' o' ⟨file, false, false⟩ files >>= fun y =>
        pure (y.map fun y => (y.1, y.2.1, y.2.2 + 1))) := by
  rw [rcvLoop, hr]
  rfl

theorem rcvLoop_error {e : ρ} {o : Nat} {s : IfStream} {files : List Bytes} {err : RecErr}
    (hr : rcv e s o = .error err) : rcvLoop rcv e o s files = .error err := by
  rw [rcvLoop, hr]
  rfl

theorem rcvLoop_congr {e e' : ρ} {o o' : Nat} {s s' : IfStream} (hr : rcv e s o = rcv e' s' o')
    (files : List Bytes) : rcvLoop rcv e o s files = rcvLoop rcv e' o' s' files := by
  cases files with
  | nil => rw [rcvLoop, rcvLoop, hr]
  | cons file files => rw [rcvLoop, rcvLoop, hr]

end Loop

namespace Resumes

variable {ρ : Type} {z : RcvSizes} {h : RecHdr} {hdr : Bytes} {Hdr : ρ → Prop} {buff : ρ → Option Bytes}
  {tail : ρ → RecTail} {init : ρ}
  {rcv : RecHdr → ρ → IfStream → Nat → Except RecErr (Bool × ρ × IfStream × Nat)}
  (hc : Resumes z h hdr Hdr buff tail init rcv) {xid t b : Bytes} (hb : Layout z xid t b)

/-- How the calls end from one on with a stream that ends at `n`. -/
def Ends (z : RcvSizes) (h : RecHdr) (Hdr : ρ → Prop) (buff : ρ → Option Bytes) (xid t b : Bytes)
    (n : Nat) (files : List Bytes) (res : Except RecErr (Option (ρ × IfStream × Nat))) : Prop :=
  if TailRight z h t then ∃ e c,
    res = .ok (some (e, ⟨(b.take (n + (files.take c).flatten.length)).drop (leftAt z.recSize), false,
      false⟩, c)) ∧ Whole z xid Hdr buff e ∧
      (∀ j < c, n + (files.take j).flatten.length < z.recSize) ∧
      z.recSize ≤ n + (files.take c).flatten.length
  else res = .error .badRecTail

/-- What an object has before a call: `_buff` and the tail up to the offset, and a stream that ends at
`n`. -/
structure Before (z : RcvSizes) (Hdr : ρ → Prop) (buff : ρ → Option Bytes) (tail : ρ → RecTail)
    (xid t b : Bytes) (n : Nat) (e : ρ) (ifsp : IfStream) (o : Nat) : Prop where
  hdr : Hdr e
  has : Has z xid t ⟨buff e, tail e, ifsp, o⟩
  reads : Reads b n ⟨buff e, tail e, ifsp, o⟩
  offs_le : o ≤ z.recSize
  offs_upto : o ≤ n
  upto : n ≤ b.length
  dblks : 128 ∣ n

include hb in
theorem Before.offs_ne {n o : Nat} {e : ρ} {ifsp : IfStream}
    (hbef : Before z Hdr buff tail xid t b n e ifsp o) : o ≠ 0 := by
  have hpos := hb.hdr_pos
  have hge : z.hdrSize ≤ o := hbef.has.hdr_le
  omega

include hc hb

theorem rcvLoop_last {n o : Nat} {e : ρ} {ifsp : IfStream}
    (hbef : Before z Hdr buff tail xid t b n e ifsp o) (hend : z.recSize ≤ n) (files : List Bytes) :
    Ends z h Hdr buff xid t b n files (rcvLoop (rcv h) e o ifsp files) := by
  have hgo := decode_goes hb hbef.has hbef.reads hbef.upto hbef.offs_upto hbef.offs_le hbef.dblks h
  rw [if_pos hend] at hgo
  obtain ⟨set, hset, hrcv⟩ := hc.next ifsp hbef.hdr (hbef.offs_ne hb)
  unfold Ends
  by_cases htr : TailRight z h t
  · rw [if_pos htr] at hgo ⊢
    obtain ⟨r', hr', hh', ho', hi'⟩ := hgo
    rw [hr', except_ok_bind] at hrcv
    have hw : Whole z xid Hdr buff (set r'.buff r'.tail) := by
      constructor
      · exact (hset _ _).1
      · intro h0
        rw [(hset _ _).2.1]
        exact hh'.bare h0
      · intro h0
        obtain ⟨c, hcb, hcl, hct⟩ := hh'.buff h0
        have hsize := hb.recSize
        have hxl := hb.xid_length
        rw [List.take_of_length_le (by omega), List.take_of_length_le (by omega)] at hct
        rw [(hset _ _).2.1, hcb, hct]
    refine ⟨set r'.buff r'.tail, 0, ?_, hw, fun j hj => absurd hj (Nat.not_lt_zero j), ?_⟩
    · rw [rcvLoop_true hrcv, hi', List.take_zero, List.flatten_nil, List.length_nil, Nat.add_zero]
    · rw [List.take_zero, List.flatten_nil, List.length_nil]
      exact hend
  · rw [if_neg htr] at hgo ⊢
    rw [hgo] at hrcv
    exact rcvLoop_error hrcv

/-- The calls in turn: false on every file that ends before the record does, true on the one in which it
ends. -/
theorem rcvLoop_ends {files : List Bytes} (hw : ∀ p ∈ files, 128 ∣ p.length) {n o : Nat} {e : ρ}
    {ifsp : IfStream} (hbef : Before z Hdr buff tail xid t b n e ifsp o)
    (hf : files.flatten = b.drop n) :
    Ends z h Hdr buff xid t b n files (rcvLoop (rcv h) e o ifsp files) := by
  induction files generalizing e o n ifsp with
  | nil =>
    have hlong := hb.long
    have hupto := hbef.upto
    have hlen := congrArg List.length hf
    rw [List.flatten_nil, List.length_nil, List.length_drop] at hlen
    exact hc.rcvLoop_last hb hbef (by omega) []
  | cons p files ih =>
    by_cases hend : z.recSize ≤ n
    · exact hc.rcvLoop_last hb hbef hend (p :: files)
    · have hgo := decode_goes hb hbef.has hbef.reads hbef.upto hbef.offs_upto hbef.offs_le hbef.dblks h
      rw [if_neg hend] at hgo
      obtain ⟨r', hr', hh', ho'⟩ := hgo
      obtain ⟨set, hset, hrcv⟩ := hc.next ifsp hbef.hdr (hbef.offs_ne hb)
      rw [hr', except_ok_bind] at hrcv
      have hupto := hbef.upto
      have hlen := congrArg List.length hf
      rw [List.flatten_cons, List.length_append, List.length_drop] at hlen
      have hp : p = (b.take (n + p.length)).drop n := by
        have htk := congrArg (List.take p.length) hf
        rw [List.flatten_cons, List.take_left] at htk
        rw [List.drop_take, Nat.add_sub_cancel_left]
        exact htk
      have hf' : files.flatten = b.drop (n + p.length) := by
        have hdr := congrArg (List.drop p.length) hf
        rw [List.flatten_cons, List.drop_left, List.drop_drop] at hdr
        exact hdr
      have hbef' : Before z Hdr buff tail xid t b (n + p.length) (set r'.buff r'.tail)
          ⟨p, false, false⟩ r'.recOffs := by
        constructor
        · exact (hset _ _).1
        · rw [(hset _ _).2.1, (hset _ _).2.2]
          exact ⟨hh'.hdr_le, hh'.bare, hh'.buff, hh'.tail⟩
        · rw [ho']
          exact congrArg (IfStream.mk · false false) hp
        · omega
        · omega
        · omega
        · exact (Nat.dvd_add_right hbef.dblks).2 (hw p List.mem_cons_self)
      have hih := ih (fun q hq => hw q (List.mem_cons_of_mem _ hq)) hbef' hf'
      rw [rcvLoop_false hrcv]
      unfold Ends at hih ⊢
      by_cases htr : TailRight z h t
      · rw [if_pos htr] at hih ⊢
        obtain ⟨e', c, hl, hwh, hlt, hle⟩ := hih
        have htake (k : Nat) : n + ((p :: files).take (k + 1)).flatten.length =
            n + p.length + (files.take k).flatten.length := by
          rw [List.take_succ_cons, List.flatten_cons, List.length_append, Nat.add_assoc]
        refine ⟨e', c + 1, ?_, hwh, ?_, ?_⟩
        · rw [hl, htake]
          rfl
        · intro j hj
          cases j with
          | zero =>
            rw [List.take_zero, List.flatten_nil, List.length_nil]
            omega
          | succ j =>
            rw [htake]
            exact hlt j (by omega)
        · rw [htake]
          exact hle
      · rw [if_neg htr] at hih ⊢
        rw [hih]
        rfl

theorem rcvRecord_recovered (hhdr : b.take z.hdrSize = hdr) {file : Bytes} {files : List Bytes}
    (hpos : file ≠ []) (hw : ∀ p ∈ file :: files, 128 ∣ p.length) (hf : (file :: files).flatten = b) :
    Recovered z.recSize (leftAt z.recSize) (TailRight z h t) (Whole z xid Hdr buff) (file :: files)
      (rcvRecord rcv init file files) := by
  have hshort := hc.short
  have hlong := hc.long
  have hhl := hc.length
  have hd := hw file List.mem_cons_self
  have hfl : 128 ≤ file.length := by
    have h0 := List.length_pos_of_ne_nil hpos
    omega
  unfold jrnlDblkSize at hshort
  have hfile : file = b.take file.length := by
    rw [← hf, List.flatten_cons, List.take_left]
  have hfiles : files.flatten = b.drop file.length := by
    rw [← hf, List.flatten_cons, List.drop_left]
  have hble : file.length ≤ b.length := by
    rw [← hf, List.flatten_cons, List.length_append]
    omega
  have hfhdr : file = hdr ++ file.drop z.hdrSize := by
    have htk : file.take z.hdrSize = hdr := by
      rw [hfile, List.take_take, Nat.min_eq_left (by omega), hhdr]
    rw [← htk, List.take_append_drop]
  have hread : IfStream.read ⟨file, false, false⟩ RecHdr.size =
      (hdr.take RecHdr.size, ⟨hdr.drop RecHdr.size ++ file.drop z.hdrSize, false, false⟩) := by
    have hread : IfStream.read ⟨file, false, false⟩ RecHdr.size =
        (file.take RecHdr.size, ⟨file.drop RecHdr.size, false, false⟩) :=
      Rcv.extracts_read.all (by decide) (by omega)
    rw [hread]
    conv_lhs => rw [hfhdr]
    rw [List.take_append_of_le_length (by omega), List.drop_append_of_le_length (by omega)]
  obtain ⟨e, he, hbare, hbuff, hfirst⟩ := hc.first (file.drop z.hdrSize)
  have hbef : Before z Hdr buff tail xid t b file.length e ⟨file.drop z.hdrSize, false, false⟩
      z.hdrSize := by
    have hz := hb.recSize
    constructor
    · exact he
    · constructor
      · exact Nat.le_refl _
      · exact hbare
      · intro h0
        refine ⟨_, hbuff h0, List.length_replicate, ?_⟩
        show List.take (z.hdrSize - z.hdrSize) _ = List.take (z.hdrSize - z.hdrSize) _
        rw [Nat.sub_self, List.take_zero, List.take_zero]
      · left
        show List.take (z.hdrSize - _) _ = List.take (z.hdrSize - _) _
        rw [Nat.sub_eq_zero_of_le (by omega), List.take_zero, List.take_zero]
    · exact congrArg (fun s => IfStream.mk (s.drop z.hdrSize) false false) hfile
    · omega
    · omega
    · exact hble
    · exact hd
  have hends := hc.rcvLoop_ends hb (fun q hq => hw q (List.mem_cons_of_mem _ hq)) hbef hfiles
  rw [rcvRecord]
  simp only [hread, hc.parses]
  rw [rcvLoop_congr hfirst]
  have htake (k : Nat) : ((file :: files).take (k + 1)).flatten.length =
      file.length + (files.take k).flatten.length := by
    rw [List.take_succ_cons, List.flatten_cons, List.length_append]
  unfold Ends at hends
  unfold Recovered
  by_cases htr : TailRight z h t
  · rw [if_pos htr] at hends ⊢
    obtain ⟨e', c, hl, hwh, hlt, hle⟩ := hends
    have hpre : b.take (file.length + (files.take c).flatten.length) =
        ((file :: files).take (c + 1)).flatten := by
      have hsplit : b = ((file :: files).take (c + 1)).flatten ++ ((file :: files).drop (c + 1)).flatten := by
        rw [← List.flatten_append, List.take_append_drop, hf]
      rw [← htake]
      conv_lhs => rw [hsplit]
      exact List.take_left
    refine ⟨e', c, ?_, hwh, ?_, ?_⟩
    · rw [hl, hpre]
    · intro j hj
      cases j with
      | zero =>
        have hpos := hb.hdr_pos
        have hz := hb.recSize
        rw [List.take_zero, List.flatten_nil, List.length_nil]
        omega
      | succ j =>
        rw [htake]
        exact hlt j (by omega)
    · rw [htake]
      exact hle
  · rw [if_neg htr] at hends ⊢
    exact hends

end Resumes

/-! ## Any cut -/

/-- The recovery of a record with the bytes `image` in front of its tail, from files of the given sizes in
dblks, whatever the tail and what follows it: the stream is left at the dblk boundary. -/
def Recovers {ρ : Type} (z : RcvSizes) (h : RecHdr) (image : Bytes) (Yields : ρ → Prop) (init : ρ)
    (rcvDecode : RecHdr → ρ → IfStream → Nat → Except RecErr (Bool × ρ × IfStream × Nat))
    (first : Nat) (sizes : List Nat) : Prop :=
  ∀ (t rest file : Bytes) (files : List Bytes), t.length = recTailSize →
    file.length = jrnlDblkSize * first → files.map List.length = sizes.map (jrnlDblkSize * ·) →
    (file :: files).flatten = image ++ (t.take z.tailSize ++ rest) →
    Recovered z.recSize (jrnlDblkSize * sizeDblks z.recSize) (TailRight z h t) Yields (file :: files)
      (rcvRecord rcvDecode init file files)

/-- The sizes of a record are those of its parts. A `std::streamsize` holds them. -/
structure Sized (z : RcvSizes) (xid data : Bytes) : Prop where
  xid : xid.length = z.xidsize
  data : data.length = z.dsize
  tail : z.tailSize = 0 ∨ z.tailSize = recTailSize
  recSize : z.recSize = z.hdrSize + z.xidsize + z.dsize + z.tailSize
  small : z.recSize < 2 ^ 63

theorem leftAt_eq_iff (n : Nat) :
    leftAt n = 128 * sizeDblks n ↔ 128 * sizeDblks n < 2 ^ 32 ∨ 128 ∣ n := by
  have hd := sizeDblks_eq n
  unfold leftAt
  by_cases hs : 128 * sizeDblks n < 2 ^ 32
  · rw [if_pos hs]
    exact ⟨fun _ => .inl hs, fun _ => rfl⟩
  · rw [if_neg hs]
    omega

theorem dvd_flatten {files : List Bytes} (hw : ∀ p ∈ files, 128 ∣ p.length) :
    128 ∣ files.flatten.length := by
  induction files with
  | nil => exact Nat.dvd_zero _
  | cons p files ih =>
    rw [List.flatten_cons, List.length_append]
    exact Nat.dvd_add (hw p List.mem_cons_self) (ih fun q hq => hw q (List.mem_cons_of_mem _ hq))

theorem Recovered.left_unique {ρ : Type} {size l l' : Nat} {right : Prop} [Decidable right]
    {Yields Yields' : ρ → Prop} {files : List Bytes} {res : Except RecErr (Option (ρ × IfStream × Nat))}
    (hr : right) (hl : l ≤ 128 * sizeDblks size) (hl' : l' ≤ 128 * sizeDblks size)
    (hw : ∀ p ∈ files, 128 ∣ p.length) (h : Recovered size l right Yields files res)
    (h' : Recovered size l' right Yields' files res) : l = l' := by
  unfold Recovered at h h'
  rw [if_pos hr] at h h'
  obtain ⟨e, c, hres, -, -, hc⟩ := h
  obtain ⟨e', c', hres', -, -, -⟩ := h'
  rw [hres] at hres'
  injection hres' with hsome
  injection hsome with heq
  obtain ⟨-, hrest⟩ := Prod.mk.inj heq
  obtain ⟨hs, rfl⟩ := Prod.mk.inj hrest
  have hlen := congrArg (fun s => s.rest.length) hs
  simp only [List.length_drop] at hlen
  have hd : 128 ∣ (files.take (c + 1)).flatten.length :=
    dvd_flatten fun p hp => hw p (List.mem_of_mem_take hp)
  have hsd := sizeDblks_eq size
  omega

section Class

variable {ρ : Type} {z : RcvSizes} {h : RecHdr} {hdr xid data : Bytes} {Hdr : ρ → Prop}
  {buff : ρ → Option Bytes} {tail : ρ → RecTail} {init : ρ}
  {rcv : RecHdr → ρ → IfStream → Nat → Except RecErr (Bool × ρ × IfStream × Nat)}

theorem dvd_of_sizes {pages : List Bytes} {ms : List Nat}
    (h : pages.map List.length = ms.map (128 * ·)) : ∀ p ∈ pages, 128 ∣ p.length := by
  intro p hp
  have hl : p.length ∈ ms.map (128 * ·) := by
    rw [← h]
    exact List.mem_map_of_mem hp
  obtain ⟨m, -, he⟩ := List.mem_map.mp hl
  exact ⟨m, he.symm⟩

theorem Sized.layout (hz : Sized z xid data) (hlen : hdr.length = z.hdrSize) (hpos : 0 < z.hdrSize)
    {t rest : Bytes} (ht : t.length = recTailSize) :
    Layout z xid t (hdr ++ (xid ++ data) ++ (t.take z.tailSize ++ rest)) where
  hdr_pos := hpos
  xid_length := hz.xid
  tail_length := ht
  tailSize := hz.tail
  recSize := hz.recSize
  small := hz.small
  long := by
    have hx := hz.xid
    have hd := hz.data
    have hr := hz.recSize
    have htl : (t.take z.tailSize).length = z.tailSize := by
      rw [List.length_take, ht]
      rcases hz.tail with h0 | h0 <;> omega
    simp only [List.length_append, htl]
    omega
  xid := by
    rw [List.append_assoc, List.drop_left' hlen, List.append_assoc, List.take_left' hz.xid]
  tail := by
    have hx := hz.xid
    have hd := hz.data
    have htl : (t.take z.tailSize).length = z.tailSize := by
      rw [List.length_take, ht]
      rcases hz.tail with h0 | h0 <;> omega
    rw [List.drop_left' (by simp only [List.length_append]; omega), List.take_left' htl]

/-- A class recovers its records to the dblk boundary over any files exactly if the boundary has an offset
of 32 bits, or nothing is to be skipped. -/
theorem Resumes.recovers_iff (hc : Resumes z h hdr Hdr buff tail init rcv) (hz : Sized z xid data)
    {Yields : ρ → Prop} (hy : ∀ e, Whole z xid Hdr buff e → Yields e) {first : Nat} {sizes : List Nat}
    (hpos : 0 < first) (hsum : z.recSize ≤ 128 * total (first :: sizes)) :
    Recovers z h (hdr ++ (xid ++ data)) Yields init rcv first sizes ↔
      128 * sizeDblks z.recSize < 2 ^ 32 ∨ 128 ∣ z.recSize := by
  have hlong := hc.long
  have hhp : 0 < z.hdrSize := Nat.lt_of_lt_of_le (by decide) hlong
  have hrec : ∀ {t rest file : Bytes} {files : List Bytes}, t.length = recTailSize →
      (file :: files).map List.length = (first :: sizes).map (128 * ·) →
      (file :: files).flatten = hdr ++ (xid ++ data) ++ (t.take z.tailSize ++ rest) →
      Recovered z.recSize (leftAt z.recSize) (TailRight z h t) (Whole z xid Hdr buff) (file :: files)
        (rcvRecord rcv init file files) := by
    intro t rest file files ht hl hf
    have hfl : file.length = 128 * first := (List.cons.inj hl).1
    apply hc.rcvRecord_recovered (hz.layout hc.length hhp ht) _ _ (dvd_of_sizes hl) hf
    · rw [List.append_assoc, List.take_left' hc.length]
    · intro hnil
      rw [hnil, List.length_nil] at hfl
      omega
  rw [← leftAt_eq_iff]
  constructor
  · intro hall
    -- with the right tail, the stream is left at both
    have hrl : (RecTail.ofHdr h).bytes.length = recTailSize := length_recTail_bytes _
    have htl : ((RecTail.ofHdr h).bytes.take z.tailSize).length = z.tailSize := by
      rw [List.length_take, hrl]
      rcases hz.tail with h0 | h0 <;> omega
    have hbl : (hdr ++ (xid ++ data)).length + z.tailSize = z.recSize := by
      rw [List.length_append, List.length_append, hc.length, hz.xid, hz.data, hz.recSize]
      omega
    obtain ⟨pages, hl, hf⟩ := exists_pages (first :: sizes)
      (b := hdr ++ (xid ++ data) ++ ((RecTail.ofHdr h).bytes.take z.tailSize ++
        List.replicate (128 * total (first :: sizes) - z.recSize) 0))
      (by
        simp only [List.length_append, htl, List.length_replicate] at hbl ⊢
        omega)
    cases pages with
    | nil => cases hl
    | cons file files =>
      have hinj := List.cons.inj hl
      have hr := hrec hrl hl hf
      have hr' := hall (RecTail.ofHdr h).bytes _ file files hrl hinj.1 hinj.2 hf
      have hright : TailRight z h (RecTail.ofHdr h).bytes := fun _ => rfl
      have hsd := sizeDblks_eq z.recSize
      have hle : leftAt z.recSize ≤ 128 * sizeDblks z.recSize := by
        unfold leftAt
        split <;> omega
      exact hr.left_unique hright hle (Nat.le_refl _) (dvd_of_sizes hl) hr'
  · intro heq t rest file files ht hl hls hf
    have hsizes : (file :: files).map List.length = (first :: sizes).map (128 * ·) := by
      rw [List.map_cons, List.map_cons, hl, hls]
      rfl
    have hr := hrec ht hsizes hf
    show Recovered z.recSize (128 * sizeDblks z.recSize) _ Yields _ _
    rw [← heq]
    unfold Recovered at hr ⊢
    by_cases htr : TailRight z h t
    · rw [if_pos htr] at hr ⊢
      obtain ⟨e, c, hres, hwh, hrest⟩ := hr
      exact ⟨e, c, hres, hy e hwh, hrest⟩
    · rw [if_neg htr] at hr ⊢
      exact hr

end Class

/-! ## The record classes -/

theorem read_field (n : Nat) (rest : Bytes) :
    IfStream.read ⟨leBytes 8 n ++ rest, false, false⟩ 8 = (leBytes 8 n, ⟨rest, false, false⟩) := by
  have hl := length_leBytes 8 n
  rw [Rcv.extracts_read.all (by decide) (by rw [List.length_append, hl]; omega), List.take_left' hl,
    List.drop_left' hl]

theorem ofBytes_take (h : RecHdr) (c : Bytes) :
    RecHdr.ofBytes ((h.bytes ++ c).take RecHdr.size) = h ∧ (h.bytes ++ c).drop RecHdr.size = c := by
  have hl : h.bytes.length = RecHdr.size := length_recHdr_bytes h
  rw [List.take_left' hl, List.drop_left' hl, RecHdr.ofBytes_bytes]
  exact ⟨rfl, rfl⟩

/-- The dblk boundary behind a record of `size` bytes has an offset of 32 bits, or the record ends at
it. -/
def BoundaryFits (size : Nat) : Prop := jrnlDblkSize * sizeDblks size < 2 ^ 32 ∨ jrnlDblkSize ∣ size

instance decidableBoundaryFits (size : Nat) : Decidable (BoundaryFits size) :=
  inferInstanceAs (Decidable (_ ∨ _))

namespace EnqRec

/-- The sizes in the header are those of the xid and of the stored data, and a `std::streamsize` holds that
of the record. -/
structure Stored (r : EnqRec) : Prop where
  xid : r.xidBytes.length = r.xidsize
  data : r.isExternal = false → r.dataBytes.length = r.dsize
  small : enqRecSize r.xidsize r.dsize r.isExternal < 2 ^ 63

/-- Recovery of an enqueue record over files of the given sizes in dblks. -/
def Recovers (r : EnqRec) (first : Nat) (sizes : List Nat) : Prop :=
  RhmStore.Recovers r.rcvSizes r.enqHdr.toRecHdr (r.enqHdr.bytes ++ (r.xidBytes ++ r.storedData))
    (fun e => e.enqHdr = r.enqHdr ∧ Gives e.getXid r.xidBytes) init rcvDecode first sizes

theorem resumes (r : EnqRec) : Resumes r.rcvSizes r.enqHdr.toRecHdr r.enqHdr.bytes
    (fun e => e.enqHdr = r.enqHdr) EnqRec.buff EnqRec.enqTail init rcvDecode where
  length := length_enqHdr_bytes _
  long := show RecHdr.size ≤ EnqHdr.size by decide
  short := show EnqHdr.size < jrnlDblkSize by decide
  parses := by
    rw [EnqHdr.bytes, List.append_assoc]
    exact (ofBytes_take _ _).1
  first := by
    intro rest
    have hdrop : r.enqHdr.bytes.drop RecHdr.size ++ rest =
        leBytes 8 r.enqHdr.xidsize.toNat ++ (leBytes 8 r.enqHdr.dsize.toNat ++ rest) := by
      rw [EnqHdr.bytes, List.append_assoc, (ofBytes_take _ _).2, List.append_assoc]
    refine ⟨{ init with
      enqHdr := r.enqHdr, buff := if r.xidsize ≠ 0 then some (List.replicate r.xidsize 0) else none },
      rfl, fun h0 => if_neg (fun hf => hf h0), fun h0 => if_pos h0, ?_⟩
    rw [hdrop]
    unfold rcvDecode
    simp only [read_field, ofNat_leNat]
    rfl
  next := by
    intro e ifsp o he ho
    refine ⟨fun b t => { e with buff := b, enqTail := t }, fun b t => ⟨he, rfl, rfl⟩, ?_⟩
    have hz : e.rcvSizes = r.rcvSizes := by
      unfold rcvSizes recSize xidsize storedDsize dsize isExternal
      rw [he]
    rw [rcvDecode]
    simp only [if_neg ho]
    rw [hz, he]

theorem Stored.sized {r : EnqRec} (h : r.Stored) : Sized r.rcvSizes r.xidBytes r.storedData where
  xid := h.xid
  data := by
    show r.storedData.length = r.storedDsize
    unfold storedData storedDsize
    cases he : r.isExternal with
    | true => rfl
    | false => exact h.data he
  tail := .inr rfl
  recSize := by
    have hs := h.small
    show wrap 64 (enqRecSize r.xidsize r.dsize r.isExternal) =
      32 + r.xidsize + r.storedDsize + recTailSize
    rw [wrap_of_lt (by omega), enqRecSize, storedDsize]
    cases r.isExternal <;> rfl
  small := by
    have hs := h.small
    show wrap 64 (enqRecSize r.xidsize r.dsize r.isExternal) < 2 ^ 63
    rw [wrap_of_lt (by omega)]
    exact hs

theorem Stored.gives {r e : EnqRec} (h : r.Stored)
    (hw : Whole r.rcvSizes r.xidBytes (fun e => e.enqHdr = r.enqHdr) EnqRec.buff e) :
    Gives e.getXid r.xidBytes := by
  have hx : e.xidsize = r.xidsize := by rw [xidsize, hw.hdr, xidsize]
  unfold getXid
  by_cases h0 : r.xidsize = 0
  · have hg : e.buff.isNone ∨ e.xidsize = 0 := .inr (hx.trans h0)
    rw [if_pos hg, List.eq_nil_of_length_eq_zero (h.xid.trans h0)]
    exact ⟨rfl, rfl⟩
  · rw [hw.buff h0, hx, if_neg (fun hf => hf.elim Bool.false_ne_true h0), ← h.xid]
    exact ⟨List.take_length, rfl⟩

theorem recovers_iff {r : EnqRec} (h : r.Stored) {first : Nat} {sizes : List Nat} (hpos : 0 < first)
    (hsum : enqRecSize r.xidsize r.dsize r.isExternal ≤ 128 * total (first :: sizes)) :
    r.Recovers first sizes ↔ BoundaryFits (enqRecSize r.xidsize r.dsize r.isExternal) := by
  have hs := h.small
  have hrs : r.rcvSizes.recSize = enqRecSize r.xidsize r.dsize r.isExternal := wrap_of_lt (by omega)
  unfold Recovers
  rw [← hrs] at hsum ⊢
  exact r.resumes.recovers_iff h.sized (fun e hw => ⟨hw.hdr, h.gives hw⟩) hpos hsum

end EnqRec

namespace DeqRec

/-- Recovery of a dequeue record over files of the given sizes in dblks. -/
def Recovers (r : DeqRec) (first : Nat) (sizes : List Nat) : Prop :=
  RhmStore.Recovers r.rcvSizes r.deqHdr.toRecHdr (r.deqHdr.bytes ++ (r.xidBytes ++ []))
    (fun e => e.deqHdr = r.deqHdr ∧ Gives e.getXid r.xidBytes) init rcvDecode first sizes

theorem resumes (r : DeqRec) : Resumes r.rcvSizes r.deqHdr.toRecHdr r.deqHdr.bytes
    (fun e => e.deqHdr = r.deqHdr) DeqRec.buff DeqRec.deqTail init rcvDecode where
  length := length_deqHdr_bytes _
  long := show RecHdr.size ≤ DeqHdr.size by decide
  short := show DeqHdr.size < jrnlDblkSize by decide
  parses := by
    rw [DeqHdr.bytes, List.append_assoc]
    exact (ofBytes_take _ _).1
  first := by
    intro rest
    have hdrop : r.deqHdr.bytes.drop RecHdr.size ++ rest =
        leBytes 8 r.deqHdr.deqRid.toNat ++ (leBytes 8 r.deqHdr.xidsize.toNat ++ rest) := by
      rw [DeqHdr.bytes, List.append_assoc, (ofBytes_take _ _).2, List.append_assoc]
    refine ⟨{ init with
      deqHdr := r.deqHdr, buff := if r.xidsize ≠ 0 then some (List.replicate r.xidsize 0) else none },
      rfl, fun h0 => if_neg (fun hf => hf h0), fun h0 => if_pos h0, ?_⟩
    rw [hdrop]
    unfold rcvDecode
    simp only [read_field, ofNat_leNat]
    rfl
  next := by
    intro e ifsp o he ho
    refine ⟨fun b t => { e with buff := b, deqTail := t }, fun b t => ⟨he, rfl, rfl⟩, ?_⟩
    have hz : e.rcvSizes = r.rcvSizes := by
      unfold rcvSizes recSize xidsize
      rw [he]
    rw [rcvDecode]
    simp only [if_neg ho]
    rw [hz, he]

theorem Sound.sized {r : DeqRec} (h : r.Sound) (hs : deqRecSize r.xidsize < 2 ^ 63) :
    Sized r.rcvSizes r.xidBytes [] where
  xid := h.xid
  data := rfl
  tail := by
    show (if r.xidsize ≠ 0 then recTailSize else 0) = 0 ∨ _ = recTailSize
    by_cases h0 : r.xidsize = 0
    · exact .inl (if_neg (fun hf => hf h0))
    · exact .inr (if_pos h0)
  recSize := by
    show wrap 64 (deqRecSize r.xidsize) = 32 + r.xidsize + 0 + if r.xidsize ≠ 0 then recTailSize else 0
    rw [wrap_of_lt (by omega), deqRecSize]
    by_cases h0 : r.xidsize = 0
    · rw [if_pos h0, if_neg (fun hf => hf h0), h0]
    · rw [if_neg h0, if_pos h0]
      omega
  small := by
    show wrap 64 (deqRecSize r.xidsize) < 2 ^ 63
    rw [wrap_of_lt (by omega)]
    exact hs

theorem Sound.gives {r e : DeqRec} (h : r.Sound)
    (hw : Whole r.rcvSizes r.xidBytes (fun e => e.deqHdr = r.deqHdr) DeqRec.buff e) :
    Gives e.getXid r.xidBytes := by
  have hx : e.xidsize = r.xidsize := by rw [xidsize, hw.hdr, xidsize]
  unfold getXid
  by_cases h0 : r.xidsize = 0
  · rw [hw.bare h0, List.eq_nil_of_length_eq_zero (h.xid.trans h0)]
    exact ⟨rfl, rfl⟩
  · rw [hw.buff h0, hx, ← h.xid]
    exact ⟨List.take_length, rfl⟩

theorem recovers_iff {r : DeqRec} (h : r.Sound) (hs : deqRecSize r.xidsize < 2 ^ 63) {first : Nat}
    {sizes : List Nat} (hpos : 0 < first) (hsum : deqRecSize r.xidsize ≤ 128 * total (first :: sizes)) :
    r.Recovers first sizes ↔ BoundaryFits (deqRecSize r.xidsize) := by
  have hrs : r.rcvSizes.recSize = deqRecSize r.xidsize := wrap_of_lt (by omega)
  unfold Recovers
  rw [← hrs] at hsum ⊢
  exact r.resumes.recovers_iff (h.sized hs) (fun e hw => ⟨hw.hdr, h.gives hw⟩) hpos hsum

end DeqRec

namespace TxnRec

/-- Recovery of an abort or a commit record over files of the given sizes in dblks. -/
def Recovers (r : TxnRec) (first : Nat) (sizes : List Nat) : Prop :=
  RhmStore.Recovers r.rcvSizes r.txnHdr.toRecHdr (r.txnHdr.bytes ++ (r.xidBytes ++ []))
    (fun e => e.txnHdr = r.txnHdr ∧ Gives e.getXid r.xidBytes) init rcvDecode first sizes

theorem Sound.resumes {r : TxnRec} (h : r.Sound) : Resumes r.rcvSizes r.txnHdr.toRecHdr r.txnHdr.bytes
    (fun e => e.txnHdr = r.txnHdr) TxnRec.buff TxnRec.txnTail init rcvDecode where
  length := length_txnHdr_bytes _
  long := show RecHdr.size ≤ TxnHdr.size by decide
  short := show TxnHdr.size < jrnlDblkSize by decide
  parses := by
    rw [TxnHdr.bytes]
    exact (ofBytes_take _ _).1
  first := by
    intro rest
    have hdrop : r.txnHdr.bytes.drop RecHdr.size ++ rest = leBytes 8 r.txnHdr.xidsize.toNat ++ rest := by
      rw [TxnHdr.bytes, (ofBytes_take _ _).2]
    refine ⟨{ init with txnHdr := r.txnHdr, buff := some (List.replicate r.xidsize 0) },
      rfl, fun h0 => absurd h0 (Nat.ne_of_gt h.nonempty), fun _ => rfl, ?_⟩
    rw [hdrop]
    unfold rcvDecode
    simp only [read_field, ofNat_leNat]
    rfl
  next := by
    intro e ifsp o he ho
    refine ⟨fun b t => { e with buff := b, txnTail := t }, fun b t => ⟨he, rfl, rfl⟩, ?_⟩
    have hz : e.rcvSizes = r.rcvSizes := by
      unfold rcvSizes recSize xidsize
      rw [he]
    rw [rcvDecode]
    simp only [if_neg ho]
    rw [hz, he]

theorem Sound.sized {r : TxnRec} (h : r.Sound) (hs : txnRecSize r.xidsize < 2 ^ 63) :
    Sized r.rcvSizes r.xidBytes [] where
  xid := h.xid
  data := rfl
  tail := .inr rfl
  recSize := wrap_of_lt (show txnRecSize r.xidsize < 2 ^ 64 by omega)
  small := by
    show wrap 64 (txnRecSize r.xidsize) < 2 ^ 63
    rw [wrap_of_lt (by omega)]
    exact hs

theorem Sound.gives {r e : TxnRec} (h : r.Sound)
    (hw : Whole r.rcvSizes r.xidBytes (fun e => e.txnHdr = r.txnHdr) TxnRec.buff e) :
    Gives e.getXid r.xidBytes := by
  have hx : e.xidsize = r.xidsize := by rw [xidsize, hw.hdr, xidsize]
  unfold getXid
  rw [hw.buff (Nat.ne_of_gt h.nonempty), hx, ← h.xid]
  exact ⟨List.take_length, rfl⟩

theorem recovers_iff {r : TxnRec} (h : r.Sound) (hs : txnRecSize r.xidsize < 2 ^ 63) {first : Nat}
    {sizes : List Nat} (hpos : 0 < first) (hsum : txnRecSize r.xidsize ≤ 128 * total (first :: sizes)) :
    r.Recovers first sizes ↔ BoundaryFits (txnRecSize r.xidsize) := by
  have hrs : r.rcvSizes.recSize = txnRecSize r.xidsize := wrap_of_lt (by omega)
  unfold Recovers
  rw [← hrs] at hsum ⊢
  exact h.resumes.recovers_iff (h.sized hs) (fun e hw => ⟨hw.hdr, h.gives hw⟩) hpos hsum

end TxnRec

/-! ## The records of a journal -/

/-- Records of every class are recovered over any files exactly if the dblk boundary fits. -/
theorem recs_recover_iff (r : EnqRec) (d : DeqRec) (t : TxnRec) (hr : r.Stored) (hd : d.Sound)
    (hds : deqRecSize d.xidsize < 2 ^ 63) (ht : t.Sound) (hts : txnRecSize t.xidsize < 2 ^ 63)
    (first : Nat) (sizes : List Nat) (hpos : 0 < first) :
    (enqRecSize r.xidsize r.dsize r.isExternal ≤ 128 * total (first :: sizes) →
      (r.Recovers first sizes ↔ BoundaryFits (enqRecSize r.xidsize r.dsize r.isExternal))) ∧
    (deqRecSize d.xidsize ≤ 128 * total (first :: sizes) →
      (d.Recovers first sizes ↔ BoundaryFits (deqRecSize d.xidsize))) ∧
    (txnRecSize t.xidsize ≤ 128 * total (first :: sizes) →
      (t.Recovers first sizes ↔ BoundaryFits (txnRecSize t.xidsize))) :=
  ⟨r.recovers_iff hr hpos, d.recovers_iff hd hds hpos, t.recovers_iff ht hts hpos⟩

/-- An enqueue with an xid of 10 bytes and data of 90 bytes. -/
def twoFileRec : EnqRec :=
  .resetWrite .init 77 (some (List.replicate 90 2)) 90 (some (List.replicate 10 1)) 10 false false false

theorem twoFileRec_stored : twoFileRec.Stored where
  xid := rfl
  data := fun _ => rfl
  small := by decide

theorem twoFileRecs_recover : twoFileRec.Recovers 1 [1] ∧ shortDeqRec.Recovers 1 [1] ∧
    twoDblkTxnRec.Recovers 1 [1] := by
  obtain ⟨henq, hdeq, htxn⟩ := recs_recover_iff twoFileRec shortDeqRec twoDblkTxnRec twoFileRec_stored
    (DeqRec.resetWrite_sound 78 77 false true rfl) (by decide)
    (TxnRec.resetWrite_sound 79 false (.inr rfl) rfl (by decide)) (by decide) 1 [1] (by decide)
  exact ⟨(henq (by decide)).mpr (by decide), (hdeq (by decide)).mpr (by decide),
    (htxn (by decide)).mpr (by decide)⟩

/-- An enqueue of 52 bytes less than 4 GiB: its dblks take 4 GiB. -/
def longDataRec : EnqRec :=
  .resetWrite .init 77 (some (List.replicate 0xffffffa0 2)) 0xffffffa0 none 0 false false false

theorem longDataRec_stored : longDataRec.Stored where
  xid := rfl
  data := fun _ => List.length_replicate.trans (by decide)
  small := by decide

/-- In a file of 4 GiB, the stream is left behind its tail. -/
theorem longDataRec_not_recovers : ¬((∀ r : EnqRec, r.Stored → ∀ (first : Nat) (sizes : List Nat), 0 < first →
      enqRecSize r.xidsize r.dsize r.isExternal ≤ 128 * total (first :: sizes) → r.Recovers first sizes) ∧
    (∀ r : DeqRec, r.Sound → deqRecSize r.xidsize < 2 ^ 63 → ∀ (first : Nat) (sizes : List Nat),
      0 < first → deqRecSize r.xidsize ≤ 128 * total (first :: sizes) → r.Recovers first sizes) ∧
    ∀ r : TxnRec, r.Sound → txnRecSize r.xidsize < 2 ^ 63 → ∀ (first : Nat) (sizes : List Nat),
      0 < first → txnRecSize r.xidsize ≤ 128 * total (first :: sizes) → r.Recovers first sizes) := by
  intro hall
  have hsum : enqRecSize longDataRec.xidsize longDataRec.dsize longDataRec.isExternal ≤
      128 * total [33554432] := by decide
  have hr := hall.1 longDataRec longDataRec_stored 33554432 [] (by decide) hsum
  rw [EnqRec.recovers_iff longDataRec_stored (by decide) hsum] at hr
  exact absurd hr (by decide)

end RhmStore
