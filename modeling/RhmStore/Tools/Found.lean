import RhmStore.Rec.Recover
import RhmStore.Tools.NewFiles
import RhmStore.Tools.Reencode

/-! # What recovery finds in the new files -/

namespace RhmStore

open EnqRec (total Gives)
open Rcv (TailRight)

/-! ## One record -/

namespace StoredRec

def FoundAs : (found s : StoredRec) → Prop
  | enq e, enq r => e.enqHdr = r.enqHdr ∧ Gives e.getXid r.xidBytes
  | deq e, deq r => e.deqHdr = r.deqHdr ∧ Gives e.getXid r.xidBytes
  | txn e, txn r => e.txnHdr = r.txnHdr ∧ Gives e.getXid r.xidBytes
  | _, _ => False

end StoredRec

/-- A record of `size` bytes ends in the file with `c` others before it. -/
structure EndsIn (size c : Nat) (files : List Bytes) : Prop where
  before : ∀ j ≤ c, (files.take j).flatten.length < size
  within : size ≤ (files.take (c + 1)).flatten.length

theorem lengths_of_dvd {fs : List Bytes} (h : ∀ p ∈ fs, 128 ∣ p.length) :
    fs.map List.length = (fs.map (·.length / 128)).map (128 * ·) ∧
      fs.flatten.length = 128 * total (fs.map (·.length / 128)) := by
  induction fs with
  | nil => exact ⟨rfl, rfl⟩
  | cons p fs ih =>
    obtain ⟨hm, htot⟩ := ih fun q hq => h q (List.mem_cons_of_mem _ hq)
    have hp : 128 * (p.length / 128) = p.length := Nat.mul_div_cancel' (h p List.mem_cons_self)
    rw [List.map_cons, List.map_cons, List.map_cons, ← hm, hp, List.flatten_cons, List.length_append, htot,
      total, Nat.mul_add, hp]
    exact ⟨rfl, rfl⟩

theorem read_recHdr {cur : Bytes} (hne : cur ≠ []) (hd : 128 ∣ cur.length) :
    IfStream.read ⟨cur, false, false⟩ RecHdr.size =
      (cur.take RecHdr.size, ⟨cur.drop RecHdr.size, false, false⟩) ∧ RecHdr.size ≤ cur.length := by
  have hlen : 128 ≤ cur.length := Nat.le_of_dvd (List.length_pos_of_ne_nil hne) hd
  have hle : RecHdr.size ≤ cur.length := Nat.le_trans (by decide) hlen
  exact ⟨Rcv.extracts_read.all (by decide) hle, hle⟩

theorem readRecHdr_good {cur : Bytes} (files : List Bytes) (hne : cur ≠ []) (hd : 128 ∣ cur.length) :
    readRecHdr ⟨cur, false, false⟩ files =
      some (.ofBytes (cur.take RecHdr.size), ⟨cur.drop RecHdr.size, false, false⟩, files) := by
  obtain ⟨hread, hle⟩ := read_recHdr hne hd
  rw [readRecHdr.eq_def]
  simp only [hread]
  exact if_pos (List.length_take_of_le hle)

theorem rcvrGetNextRecord_filler {cur : Bytes} (files : List Bytes) (hne : cur ≠ []) (hd : 128 ∣ cur.length)
    (hm : (RecHdr.ofBytes (cur.take RecHdr.size)).magic = rhmJdatEmptyMagic) :
    rcvrGetNextRecord ⟨cur, false, false⟩ files = .ok (some (none, ⟨cur.drop 128, false, false⟩, files)) := by
  have hlen : 128 ≤ cur.length := Nat.le_of_dvd (List.length_pos_of_ne_nil hne) hd
  have hn : sizeDblks RecHdr.size * jrnlDblkSize - RecHdr.size = 112 := by decide
  have hdd : (cur.drop RecHdr.size).drop 112 = cur.drop 128 := List.drop_drop
  have hign : IfStream.ignore ⟨cur.drop RecHdr.size, false, false⟩
      (sizeDblks RecHdr.size * jrnlDblkSize - RecHdr.size) =
      ((cur.drop RecHdr.size).take 112, ⟨cur.drop 128, false, false⟩) := by
    have hle : 112 ≤ (cur.drop RecHdr.size).length := by
      rw [List.length_drop]
      exact Nat.le_sub_of_add_le hlen
    rw [hn, ← hdd]
    exact if_pos hle
  rw [rcvrGetNextRecord, readRecHdr_good files hne hd]
  simp only [hm, hign]
  rfl

theorem rcvrGetNextRecord_zeros {cur : Bytes} (files : List Bytes) (hne : cur ≠ []) (hd : 128 ∣ cur.length)
    (hz : cur.take RecHdr.size = List.replicate RecHdr.size 0) :
    rcvrGetNextRecord ⟨cur, false, false⟩ files = .ok none := by
  rw [rcvrGetNextRecord, readRecHdr_good files hne hd, hz]
  rfl

section Class

variable {ρ : Type} {z : RcvSizes} {h : RecHdr} {hdr xid data t image : Bytes} {Yields : ρ → Prop} {init : ρ}
  {rcv : RecHdr → ρ → IfStream → Nat → Except RecErr (Bool × ρ × IfStream × Nat)}

theorem rcvrDecode_found (hz : Sized z xid data) (hh : hdr.length = z.hdrSize)
    (himg : image = hdr ++ (xid ++ data) ++ t.take z.tailSize)
    (hrec : ∀ {first : Nat} {sizes : List Nat}, 0 < first → image.length ≤ 128 * total (first :: sizes) →
      Recovers z h (hdr ++ (xid ++ data)) Yields init rcv first sizes)
    (howi : h.getOwi = false) (htl : t.length = recTailSize) (ht : TailRight z h t)
    {cur rest : Bytes} {files : List Bytes} (hne : cur ≠ [])
    (hd : ∀ p ∈ cur :: dataFiles files, 128 ∣ p.length)
    (hhdr : RecHdr.ofBytes (cur.take RecHdr.size) = h)
    (hf : (cur :: dataFiles files).flatten = image ++ rest) : ∃ e c,
    rcvrDecode rcv init h ⟨cur.drop RecHdr.size, false, false⟩ files = .ok (some (e,
      ⟨((cur :: dataFiles files).take (c + 1)).flatten.drop (128 * sizeDblks image.length), false, false⟩,
      files.drop c)) ∧ Yields e ∧ EndsIn image.length c (cur :: dataFiles files) := by
  have hlen : 128 ≤ cur.length := Nat.le_of_dvd (List.length_pos_of_ne_nil hne) (hd cur List.mem_cons_self)
  have hsize : image.length = z.recSize := by
    have htk : (t.take z.tailSize).length = z.tailSize := by
      rw [List.length_take, htl]
      rcases hz.tail with h0 | h0 <;> omega
    rw [himg, hz.recSize]
    simp only [List.length_append, hh, hz.xid, hz.data, htk, Nat.add_assoc]
  have hcur : 128 * (cur.length / 128) = cur.length := Nat.mul_div_cancel' (hd cur List.mem_cons_self)
  have hfs := (lengths_of_dvd fun p hp => hd p (List.mem_cons_of_mem _ hp)).1
  have hle : image.length ≤ 128 * total ((cur :: dataFiles files).map (·.length / 128)) := by
    rw [← (lengths_of_dvd hd).2, hf, List.length_append]
    exact Nat.le_add_right _ _
  have hpos : 0 < cur.length / 128 := Nat.div_pos hlen (by decide)
  rw [himg, List.append_assoc] at hf
  have hr := hrec hpos hle t rest cur (dataFiles files) htl hcur.symm hfs hf
  rw [← hsize, Recovered, if_pos ht, rcvRecord, (read_recHdr hne (hd cur List.mem_cons_self)).1] at hr
  simp only [hhdr] at hr
  obtain ⟨e, c, hloop, hy, hbefore, hwithin⟩ := hr
  refine ⟨e, c, ?_, hy, hbefore, hwithin⟩
  rw [rcvrDecode, if_neg (by rw [howi]; exact Bool.false_ne_true), hloop]
  rfl

end Class

theorem EnqRec.Stored.image_length {r : EnqRec} (h : r.Stored) :
    r.image.length = enqRecSize r.xidsize r.dsize r.isExternal := by
  have hz := h.sized
  have hrs : r.rcvSizes.recSize = enqRecSize r.xidsize r.dsize r.isExternal :=
    wrap_of_lt (Nat.lt_trans h.small (by decide))
  rw [← hrs, hz.recSize, EnqRec.image]
  simp only [List.length_append, length_enqHdr_bytes, length_recTail_bytes, hz.xid, hz.data, EnqRec.rcvSizes,
    Nat.add_assoc]

theorem StoredRec.Made.image_pos {r : StoredRec} (h : r.Made) : 0 < r.image.length := by
  cases r with
  | enq r =>
    have hm : r.Made := h
    have hl : (StoredRec.enq r).image.length = _ := hm.stored.image_length
    rw [hl]
    unfold enqRecSize
    split <;> omega
  | deq r =>
    have hl : (StoredRec.deq r).image.length = _ := DeqRec.image_length h.1
    rw [hl]
    unfold deqRecSize
    omega
  | txn r =>
    have hl : (StoredRec.txn r).image.length = _ := TxnRec.image_length h.1
    rw [hl]
    unfold txnRecSize
    omega

theorem rcvrGetNextRecord_found {s : StoredRec} (h : s.Made) (howi : s.hdr.getOwi = false)
    (hfit : BoundaryFits s.image.length) {cur rest : Bytes} {files : List Bytes} (hne : cur ≠ [])
    (hd : ∀ p ∈ cur :: dataFiles files, 128 ∣ p.length)
    (hf : (cur :: dataFiles files).flatten = s.image ++ rest) : ∃ found c,
    rcvrGetNextRecord ⟨cur, false, false⟩ files = .ok (some (some found,
      ⟨((cur :: dataFiles files).take (c + 1)).flatten.drop (128 * sizeDblks s.image.length), false, false⟩,
      files.drop c)) ∧ found.FoundAs s ∧ EndsIn s.image.length c (cur :: dataFiles files) := by
  have hread := readRecHdr_good files hne (hd cur List.mem_cons_self)
  have hstart : ∀ {g : RecHdr} {b : Bytes}, s.image = g.bytes ++ b →
      RecHdr.ofBytes (cur.take RecHdr.size) = g := by
    intro g b hb
    have hle := (read_recHdr hne (hd cur List.mem_cons_self)).2
    have htake : cur.take RecHdr.size = (g.bytes ++ (b ++ rest)).take RecHdr.size := by
      rw [← List.append_assoc, ← hb, ← hf, List.flatten_cons, List.take_append_of_le_length hle]
    rw [htake]
    exact (ofBytes_take _ _).1
  cases s with
  | enq r =>
    have hm : r.Made := h
    have htk : r.enqTail.bytes.take r.rcvSizes.tailSize = r.enqTail.bytes :=
      List.take_of_length_le (Nat.le_of_eq (length_recTail_bytes _))
    have himg : (StoredRec.enq r).image =
        r.enqHdr.bytes ++ (r.xidBytes ++ r.storedData) ++ r.enqTail.bytes.take r.rcvSizes.tailSize := by
      rw [htk, List.append_assoc, List.append_assoc]
      rfl
    have hparse : RecHdr.ofBytes (cur.take RecHdr.size) = r.enqHdr.toRecHdr := by
      rw [EnqHdr.bytes] at himg
      simp only [List.append_assoc] at himg
      exact hstart himg
    have howi' : r.enqHdr.toRecHdr.getOwi = false := howi
    have htail : TailRight r.rcvSizes r.enqHdr.toRecHdr r.enqTail.bytes := by
      intro _
      rw [hm.tail]
    have hlen : (StoredRec.enq r).image.length = enqRecSize r.xidsize r.dsize r.isExternal :=
      hm.stored.image_length
    have hrec : ∀ {first : Nat} {sizes : List Nat}, 0 < first →
        (StoredRec.enq r).image.length ≤ 128 * total (first :: sizes) → r.Recovers first sizes := by
      intro first sizes hpos hsum
      rw [hlen] at hfit hsum
      exact (EnqRec.recovers_iff hm.stored hpos hsum).mpr hfit
    obtain ⟨e, c, hdec, hy, hend⟩ := rcvrDecode_found hm.stored.sized (length_enqHdr_bytes _) himg hrec howi'
      (length_recTail_bytes _) htail hne hd hparse hf
    refine ⟨.enq e, c, ?_, hy, hend⟩
    rw [rcvrGetNextRecord, hread]
    simp only [hparse]
    rw [if_pos hm.magic, hdec]
    rfl
  | deq r =>
    obtain ⟨hm, hsmall⟩ : r.Sound ∧ deqRecSize r.xidsize < 2 ^ 63 := h
    have himg : (StoredRec.deq r).image =
        r.deqHdr.bytes ++ (r.xidBytes ++ []) ++ r.deqTail.bytes.take r.rcvSizes.tailSize := by
      rw [StoredRec.image, DeqRec.image, DeqRec.rcvSizes, List.append_nil, List.append_assoc]
      by_cases hx : r.xidsize = 0
      · have hnil : r.xidBytes = [] := List.eq_nil_of_length_eq_zero (hm.xid.trans hx)
        rw [if_pos hx, hnil, if_neg (fun hf => hf hx), List.take_zero, List.append_nil, List.append_nil]
      · have htk : r.deqTail.bytes.take recTailSize = r.deqTail.bytes :=
          List.take_of_length_le (Nat.le_of_eq (length_recTail_bytes _))
        rw [if_neg hx, if_pos hx, htk]
        rfl
    have hparse : RecHdr.ofBytes (cur.take RecHdr.size) = r.deqHdr.toRecHdr := by
      rw [DeqHdr.bytes] at himg
      simp only [List.append_assoc] at himg
      exact hstart himg
    have howi' : r.deqHdr.toRecHdr.getOwi = false := howi
    have htail : TailRight r.rcvSizes r.deqHdr.toRecHdr r.deqTail.bytes := by
      intro _
      rw [hm.tail]
    have hrec : ∀ {first : Nat} {sizes : List Nat}, 0 < first →
        (StoredRec.deq r).image.length ≤ 128 * total (first :: sizes) → r.Recovers first sizes := by
      intro first sizes hpos hsum
      have hlen : (StoredRec.deq r).image.length = deqRecSize r.xidsize := DeqRec.image_length hm
      rw [hlen] at hfit hsum
      exact (DeqRec.recovers_iff hm hsmall hpos hsum).mpr hfit
    obtain ⟨e, c, hdec, hy, hend⟩ := rcvrDecode_found (hm.sized hsmall) (length_deqHdr_bytes _) himg hrec howi'
      (length_recTail_bytes _) htail hne hd hparse hf
    refine ⟨.deq e, c, ?_, hy, hend⟩
    rw [rcvrGetNextRecord, hread]
    simp only [hparse]
    rw [hm.magic, if_neg (by decide), if_pos rfl, hdec]
    rfl
  | txn r =>
    obtain ⟨hm, hsmall⟩ : r.Sound ∧ txnRecSize r.xidsize < 2 ^ 63 := h
    have htk : r.txnTail.bytes.take r.rcvSizes.tailSize = r.txnTail.bytes :=
      List.take_of_length_le (Nat.le_of_eq (length_recTail_bytes _))
    have himg : (StoredRec.txn r).image =
        r.txnHdr.bytes ++ (r.xidBytes ++ []) ++ r.txnTail.bytes.take r.rcvSizes.tailSize := by
      rw [htk, List.append_nil, List.append_assoc]
      rfl
    have hparse : RecHdr.ofBytes (cur.take RecHdr.size) = r.txnHdr.toRecHdr := by
      rw [TxnHdr.bytes] at himg
      simp only [List.append_assoc] at himg
      exact hstart himg
    have howi' : r.txnHdr.toRecHdr.getOwi = false := howi
    have htail : TailRight r.rcvSizes r.txnHdr.toRecHdr r.txnTail.bytes := by
      intro _
      rw [hm.tail]
    have hrec : ∀ {first : Nat} {sizes : List Nat}, 0 < first →
        (StoredRec.txn r).image.length ≤ 128 * total (first :: sizes) → r.Recovers first sizes := by
      intro first sizes hpos hsum
      have hlen : (StoredRec.txn r).image.length = txnRecSize r.xidsize := TxnRec.image_length hm
      rw [hlen] at hfit hsum
      exact (TxnRec.recovers_iff hm hsmall hpos hsum).mpr hfit
    obtain ⟨e, c, hdec, hy, hend⟩ := rcvrDecode_found (hm.sized hsmall) (length_txnHdr_bytes _) himg hrec howi'
      (length_recTail_bytes _) htail hne hd hparse hf
    refine ⟨.txn e, c, ?_, hy, hend⟩
    rw [rcvrGetNextRecord, hread]
    simp only [hparse]
    rw [if_neg (by rcases hm.magic with hg | hg <;> rw [hg] <;> decide),
      if_neg (by rcases hm.magic with hg | hg <;> rw [hg] <;> decide), if_pos hm.magic, hdec]
    rfl

/-! ## From file to file -/

open Jrnl (JrnlInfo Resize padded length_padded)
open Jrnl.Rec (following)
open Jrnl.Resize (filler files fileSize_eq dataSize_dvd length_following)

theorem dataFiles_append {fs blanks : List Bytes} (hf : ∀ f ∈ fs, fileHeaded f = true)
    (hb : ∀ f ∈ blanks, fileHeaded f = false) : dataFiles (fs ++ blanks) = fs.map (·.drop 512) := by
  have hnil : blanks.takeWhile fileHeaded = [] := by
    cases blanks with
    | nil => rfl
    | cons b blanks =>
      rw [List.takeWhile_cons_of_neg]
      rw [hb b List.mem_cons_self]
      exact Bool.false_ne_true
  rw [dataFiles, List.takeWhile_append_of_pos hf, hnil, List.append_nil]
  rfl

theorem readRecHdr_nil (eof fail : Bool) (files : List Bytes) : readRecHdr ⟨[], eof, fail⟩ files =
    match files with
    | [] => none
    | file :: files =>
      if fileHeaded file then readRecHdr ⟨file.drop (fileFro file), false, false⟩ files else none := by
  have hread : (IfStream.read ⟨[], eof, fail⟩ RecHdr.size).1 = [] := by
    unfold IfStream.read
    split
    · rfl
    · split
      · exact List.take_nil
      · rfl
  have hne : ¬([] : Bytes).length = RecHdr.size := by decide
  rw [readRecHdr.eq_def]
  simp only [hread]
  exact if_neg hne

/-- Recovery stands at the offset `p` of the bytes `w` that the files hold: `cur` is left of the file that
is open, and `rest` are the files that follow. -/
structure At (i : JrnlInfo) (s : Resize) (blanks : List Bytes) (w : Bytes) (p k : Nat) (cur : Bytes)
    (rest : List Bytes) : Prop where
  rest : rest = s.files.drop k ++ blanks
  le : k ≤ s.files.length
  data : cur ++ following (s.files.drop k) = w.drop p
  offs : cur.length + p = k * i.jrnlDataSizeBytes

section Walk

variable {i : JrnlInfo} {s : Resize} {blanks : List Bytes} {bs : List Bytes} {w : Bytes} {p k : Nat}
  {cur : Bytes} {rest : List Bytes}
  (hs : s.Holds i bs w) (hfull : ∀ f ∈ s.files, f.length = i.jrnlFileSizeBytes)
  (hblank : ∀ f ∈ blanks, fileHeaded f = false)

include hs hblank

theorem At.dataFiles (hat : At i s blanks w p k cur rest) :
    RhmStore.dataFiles rest = (s.files.drop k).map (·.drop 512) := by
  rw [hat.rest]
  exact dataFiles_append (fun f hf => hs.headed f (List.mem_of_mem_drop hf)) hblank

theorem At.flatten (hat : At i s blanks w p k cur rest) :
    (cur :: RhmStore.dataFiles rest).flatten = w.drop p := by
  rw [List.flatten_cons, hat.dataFiles hs hblank, ← hat.data]
  rfl

include hfull

theorem At.dvd (hat : At i s blanks w p k cur rest) (hp : 128 ∣ p) :
    ∀ q ∈ cur :: RhmStore.dataFiles rest, 128 ∣ q.length := by
  have hd : 128 ∣ i.jrnlDataSizeBytes := Nat.dvd_trans (by decide) (dataSize_dvd i)
  intro q hq
  rcases List.mem_cons.mp hq with rfl | hq
  · have ho := hat.offs
    have hkd : 128 ∣ k * i.jrnlDataSizeBytes := Nat.dvd_mul_left_of_dvd hd k
    rw [← ho] at hkd
    exact (Nat.dvd_add_left hp).mp hkd
  · rw [hat.dataFiles hs hblank] at hq
    obtain ⟨f, hf, rfl⟩ := List.mem_map.mp hq
    rw [List.length_drop, hfull f (List.mem_of_mem_drop hf), fileSize_eq, Nat.add_sub_cancel]
    exact hd

/-- `L` bytes on, in the file with `c` others before it. -/
theorem At.advance (hat : At i s blanks w p k cur rest) {c L : Nat}
    (hc : c ≤ (RhmStore.dataFiles rest).length)
    (hL : L ≤ ((cur :: RhmStore.dataFiles rest).take (c + 1)).flatten.length) :
    At i s blanks w (p + L) (k + c) (((cur :: RhmStore.dataFiles rest).take (c + 1)).flatten.drop L)
      (rest.drop c) := by
  have hdf := hat.dataFiles hs hblank
  have hflat := hat.flatten hs hblank
  have hlen : (s.files.drop k).length = s.files.length - k := List.length_drop
  rw [hdf, List.length_map] at hc
  have hle := hat.le
  have hofs := hat.offs
  have htake : (((s.files.drop k).map (·.drop 512)).take c).flatten.length = c * i.jrnlDataSizeBytes := by
    rw [← List.map_take]
    have hfs : ∀ f ∈ (s.files.drop k).take c, f.length = i.jrnlFileSizeBytes := fun f hf =>
      hfull f (List.mem_of_mem_drop (List.mem_of_mem_take hf))
    have hlf := length_following hfs
    rw [List.length_take, Nat.min_eq_left hc] at hlf
    exact hlf
  rw [hdf] at hflat hL ⊢
  rw [List.take_succ_cons, List.flatten_cons] at hL ⊢
  constructor
  · rw [hat.rest, List.drop_append_of_le_length hc, List.drop_drop]
  · omega
  · have hdd : w.drop (p + L) = (w.drop p).drop L := List.drop_drop.symm
    have hsplit : (cur :: (s.files.drop k).map (·.drop 512)).flatten =
        (cur ++ (((s.files.drop k).map (·.drop 512)).take c).flatten) ++
          (((s.files.drop k).map (·.drop 512)).drop c).flatten := by
      rw [List.append_assoc, ← List.flatten_append, List.take_append_drop, List.flatten_cons]
    rw [hdd, ← hflat, hsplit, List.drop_append_of_le_length hL, ← List.map_drop, List.drop_drop]
    rfl
  · rw [List.length_drop]
    rw [List.length_append] at hL ⊢
    rw [htake] at hL ⊢
    rw [Nat.add_mul]
    omega

omit hblank in
/-- Where a file is used up, the next one is open. -/
theorem At.open (hd : 0 < i.jrnlDataSizeBytes) (hat : At i s blanks w p k [] rest) (hk : k < s.files.length)
    (hfro : ∀ g, s.files[k]? = some g → fileFro g = 512) (eof fail : Bool) : ∃ cur' rest',
    At i s blanks w p (k + 1) cur' rest' ∧ cur' ≠ [] ∧
      readRecHdr ⟨[], eof, fail⟩ rest = readRecHdr ⟨cur', false, false⟩ rest' := by
  have hdrop : s.files.drop k = s.files[k] :: s.files.drop (k + 1) := List.drop_eq_getElem_cons hk
  have hmem : s.files[k] ∈ s.files := List.getElem_mem hk
  have hlen : (s.files[k].drop 512).length = i.jrnlDataSizeBytes := by
    rw [List.length_drop, hfull _ hmem, fileSize_eq, Nat.add_sub_cancel]
  have hrest := hat.rest
  have hdata := hat.data
  have hoffs := hat.offs
  rw [hdrop] at hrest hdata
  rw [List.length_nil, Nat.zero_add] at hoffs
  refine ⟨s.files[k].drop 512, s.files.drop (k + 1) ++ blanks, ?_, ?_, ?_⟩
  · constructor
    · rfl
    · exact hk
    · exact hdata
    · rw [hlen, Nat.add_mul]
      omega
  · intro hnil
    rw [hnil, List.length_nil] at hlen
    omega
  · rw [readRecHdr_nil, hrest]
    show (if fileHeaded s.files[k] = true then _ else _) = _
    rw [if_pos (hs.headed _ hmem), hfro _ (List.getElem?_eq_getElem hk)]
    rfl

omit hs hfull in
/-- Behind the last file with a header recovery ends. -/
theorem At.ends (hat : At i s blanks w p k [] rest) (hk : s.files.length ≤ k) (eof fail : Bool) :
    readRecHdr ⟨[], eof, fail⟩ rest = none := by
  rw [readRecHdr_nil, hat.rest, List.drop_eq_nil_of_le hk, List.nil_append]
  cases blanks with
  | nil => rfl
  | cons b blanks =>
    exact if_neg (by rw [hblank b List.mem_cons_self]; exact Bool.false_ne_true)

theorem At.rcvrRecords_fillers {n m fuel : Nat} (hat : At i s blanks w p k cur rest) (hp : 128 ∣ p)
    (hend : ∀ j < s.files.length, j * i.jrnlDataSizeBytes < p)
    (hw : w.drop p = (List.replicate n filler).flatten ++ List.replicate m 0) {eof fail : Bool}
    (hgood : cur ≠ [] → eof = false ∧ fail = false) (hfuel : n < fuel) :
    rcvrRecords fuel ⟨cur, eof, fail⟩ rest = .ok [] := by
  induction fuel generalizing n p k cur rest eof fail with
  | zero => exact absurd hfuel (Nat.not_lt_zero n)
  | succ fuel ih =>
    by_cases hnil : cur = []
    · -- the last file is used up
      subst hnil
      have hoffs := hat.offs
      rw [List.length_nil, Nat.zero_add] at hoffs
      have hk : s.files.length ≤ k := by
        by_contra hlt
        have := hend k (Nat.not_le.mp hlt)
        omega
      rw [rcvrRecords, rcvrGetNextRecord, hat.ends hblank hk]
      rfl
    · obtain ⟨rfl, rfl⟩ := hgood hnil
      have hdvd := hat.dvd hs hfull hblank hp cur List.mem_cons_self
      have hflat := hat.data
      rw [hw] at hflat
      obtain ⟨hread, hle⟩ := read_recHdr hnil hdvd
      have hlen : 128 ≤ cur.length := Nat.le_of_dvd (List.length_pos_of_ne_nil hnil) hdvd
      cases n with
      | zero =>
        have hm : RecHdr.size ≤ m := by
          have hl := congrArg List.length hflat
          simp only [List.length_append, List.replicate_zero, List.flatten_nil, List.length_nil,
            List.length_replicate] at hl
          omega
        have hzero : cur.take RecHdr.size = List.replicate RecHdr.size 0 := by
          have htake := congrArg (List.take RecHdr.size) hflat
          rw [List.take_append_of_le_length hle] at htake
          rw [htake, List.replicate_zero, List.flatten_nil, List.nil_append, List.take_replicate,
            Nat.min_eq_left hm]
        rw [rcvrRecords, rcvrGetNextRecord_zeros rest hnil hdvd hzero]
        rfl
      | succ n =>
        have hfl : filler.length = 128 := length_padded _
        have hcur : cur.take RecHdr.size = filler.take RecHdr.size := by
          have htake := congrArg (List.take RecHdr.size) hflat
          rw [List.take_append_of_le_length hle, List.replicate_succ, List.flatten_cons, List.append_assoc,
            List.take_append_of_le_length (by rw [hfl]; decide)] at htake
          exact htake
        have hmagic : (RecHdr.ofBytes (cur.take RecHdr.size)).magic = rhmJdatEmptyMagic := by
          rw [hcur]
          decide
        have hnext := hat.advance hs hfull hblank (c := 0) (L := 128) (Nat.zero_le _) (by
          rw [List.take_succ_cons, List.take_zero, List.flatten_cons, List.flatten_nil, List.append_nil]
          exact hlen)
        rw [List.take_succ_cons, List.take_zero, List.flatten_cons, List.flatten_nil, List.append_nil,
          List.drop_zero, Nat.add_zero] at hnext
        have hw' : w.drop (p + 128) = (List.replicate n filler).flatten ++ List.replicate m 0 := by
          have hdd : w.drop (p + 128) = (w.drop p).drop 128 := List.drop_drop.symm
          rw [hdd, hw, List.replicate_succ, List.flatten_cons, List.append_assoc, List.drop_left' hfl]
        have hih := ih hnext (Nat.dvd_add hp (Nat.dvd_refl _))
          (fun j hj => Nat.lt_add_right _ (hend j hj)) hw' (fun _ => ⟨rfl, rfl⟩) (Nat.lt_of_succ_lt_succ hfuel)
        rw [rcvrRecords, rcvrGetNextRecord_filler rest hnil hdvd hmagic, except_ok_bind]
        simp only [hih]
        rfl

theorem At.rcvrGetNextRecord_found (hd : 0 < i.jrnlDataSizeBytes) (hat : At i s blanks w p k cur rest)
    (hp : 128 ∣ p) {r : StoredRec} (hr : r.Made) (howi : r.hdr.getOwi = false)
    (hfit : BoundaryFits r.image.length) {after : Bytes} (hw : w.drop p = padded r.image ++ after)
    (hfro : ∀ g, k * i.jrnlDataSizeBytes = p → s.files[k]? = some g → fileFro g = 512) {eof fail : Bool}
    (hgood : cur ≠ [] → eof = false ∧ fail = false) : ∃ found k' cur' rest',
    rcvrGetNextRecord ⟨cur, eof, fail⟩ rest = .ok (some (some found, ⟨cur', false, false⟩, rest')) ∧
      found.FoundAs r ∧ At i s blanks w (p + (padded r.image).length) k' cur' rest' := by
  have hhere : ∀ {k : Nat} {cur : Bytes} {rest : List Bytes}, At i s blanks w p k cur rest → cur ≠ [] →
      ∃ found k' cur' rest',
        rcvrGetNextRecord ⟨cur, false, false⟩ rest = .ok (some (some found, ⟨cur', false, false⟩, rest')) ∧
          found.FoundAs r ∧ At i s blanks w (p + (padded r.image).length) k' cur' rest' := by
    intro k cur rest hat hne
    have hflat := hat.flatten hs hblank
    have hdvd := hat.dvd hs hfull hblank hp
    have hflat' := hflat
    rw [hw, padded, List.append_assoc] at hflat'
    obtain ⟨found, c, hok, hfound, hend⟩ := RhmStore.rcvrGetNextRecord_found hr howi hfit hne hdvd hflat'
    have htot : (padded r.image).length ≤ (cur :: RhmStore.dataFiles rest).flatten.length := by
      rw [hflat, hw, List.length_append]
      omega
    have hc : c ≤ (RhmStore.dataFiles rest).length := by
      by_contra hlt
      have hlt' : (cur :: RhmStore.dataFiles rest).length ≤ c := Nat.not_le.mp hlt
      have hbef := hend.before c (Nat.le_refl c)
      rw [List.take_of_length_le hlt', hflat', List.length_append] at hbef
      omega
    have hL : (padded r.image).length ≤ ((cur :: RhmStore.dataFiles rest).take (c + 1)).flatten.length := by
      have hwithin := hend.within
      have hd' : 128 ∣ ((cur :: RhmStore.dataFiles rest).take (c + 1)).flatten.length :=
        dvd_flatten fun q hq => hdvd q (List.mem_of_mem_take hq)
      have hsd := Rcv.sizeDblks_eq r.image.length
      rw [length_padded]
      omega
    have hnext := hat.advance hs hfull hblank hc hL
    rw [length_padded] at hnext ⊢
    exact ⟨found, _, _, _, hok, hfound, hnext⟩
  by_cases hnil : cur = []
  · subst hnil
    have hoffs := hat.offs
    rw [List.length_nil, Nat.zero_add] at hoffs
    have hk : k < s.files.length := by
      by_contra hge
      have hdata := hat.data
      rw [List.drop_eq_nil_of_le (Nat.not_lt.mp hge), hw] at hdata
      have hl := congrArg List.length hdata
      have hpos : 0 < r.image.length := hr.image_pos
      have hsd := Rcv.sizeDblks_eq r.image.length
      rw [List.nil_append, List.length_append, length_padded] at hl
      simp only [following, List.map_nil, List.flatten_nil, List.length_nil] at hl
      omega
    obtain ⟨cur', rest', hat', hne, hread⟩ :=
      hat.open hs hfull hd hk (fun g hg => hfro g hoffs.symm hg) eof fail
    have hsame : rcvrGetNextRecord ⟨[], eof, fail⟩ rest = rcvrGetNextRecord ⟨cur', false, false⟩ rest' := by
      rw [rcvrGetNextRecord, rcvrGetNextRecord, hread]
    rw [hsame]
    exact hhere hat' hne
  · obtain ⟨rfl, rfl⟩ := hgood hnil
    exact hhere hat hnil

/-- The records are found in turn, then recovery ends. -/
theorem At.rcvrRecords_found (hd : 0 < i.jrnlDataSizeBytes) {recs : List StoredRec} {done : List Bytes}
    {n m fuel : Nat} (hat : At i s blanks w p k cur rest)
    (hbs : bs = done ++ recs.map (padded ·.image)) (hp : p = done.flatten.length) (hdvd : 128 ∣ p)
    (hw : w = bs.flatten ++ ((List.replicate n filler).flatten ++ List.replicate m 0))
    (hlast : ∀ j < s.files.length, j * i.jrnlDataSizeBytes < bs.flatten.length)
    (hrecs : ∀ r ∈ recs, r.Made ∧ r.hdr.getOwi = false ∧ BoundaryFits r.image.length) {eof fail : Bool}
    (hgood : cur ≠ [] → eof = false ∧ fail = false) (hfuel : recs.length + n < fuel) : ∃ found,
    rcvrRecords fuel ⟨cur, eof, fail⟩ rest = .ok found ∧ List.Forall₂ StoredRec.FoundAs found recs := by
  induction recs generalizing done p k cur rest eof fail fuel with
  | nil =>
    rw [List.map_nil, List.append_nil] at hbs
    rw [List.length_nil, Nat.zero_add] at hfuel
    have hend : w.drop p = (List.replicate n filler).flatten ++ List.replicate m 0 := by
      rw [hw, hbs, hp, List.drop_left]
    rw [hbs, ← hp] at hlast
    exact ⟨[], hat.rcvrRecords_fillers hs hfull hblank hdvd hlast hend hgood hfuel, .nil⟩
  | cons r recs ih =>
    obtain ⟨hr, howi, hfit⟩ := hrecs r List.mem_cons_self
    have hbs' : bs = (done ++ [padded r.image]) ++ recs.map (padded ·.image) := by
      rw [hbs, List.append_assoc]
      rfl
    have hdrop : w.drop p = padded r.image ++ ((recs.map (padded ·.image)).flatten ++
        ((List.replicate n filler).flatten ++ List.replicate m 0)) := by
      rw [hw, hbs, List.flatten_append, List.append_assoc, hp, List.drop_left, List.map_cons,
        List.flatten_cons, List.append_assoc]
    have hfro : ∀ g, k * i.jrnlDataSizeBytes = p → s.files[k]? = some g → fileFro g = 512 := by
      intro g hk hg
      apply hs.fro k g hg done.length
      rw [hk, hp, hbs, List.take_left]
    obtain ⟨found, k', cur', rest', hok, hfound, hat'⟩ :=
      hat.rcvrGetNextRecord_found hs hfull hblank hd hdvd hr howi hfit hdrop hfro hgood
    have hp' : p + (padded r.image).length = (done ++ [padded r.image]).flatten.length := by
      rw [List.flatten_append, List.length_append, List.flatten_cons, List.flatten_nil, List.append_nil, hp]
    have hdvd' : 128 ∣ p + (padded r.image).length := by
      rw [length_padded]
      exact Nat.dvd_add hdvd (Nat.dvd_mul_right _ _)
    cases fuel with
    | zero => exact absurd hfuel (Nat.not_lt_zero _)
    | succ fuel =>
      rw [List.length_cons] at hfuel
      obtain ⟨founds, hgo, hall⟩ := ih hat' hbs' hp' hdvd'
        (fun q hq => hrecs q (List.mem_cons_of_mem _ hq)) (fun _ => ⟨rfl, rfl⟩)
        (show recs.length + n < fuel by omega)
      refine ⟨found :: founds, ?_, .cons hfound hall⟩
      rw [rcvrRecords, hok, except_ok_bind]
      simp only [hgo]
      rfl

end Walk

end RhmStore
