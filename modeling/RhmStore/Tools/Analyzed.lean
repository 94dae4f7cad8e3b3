import RhmStore.Info.Analyze
import RhmStore.Tools.NewFiles

/-! # Where recovery starts in the new files -/

namespace RhmStore

/-- What `jinf::analyze` reads of a file. -/
def DataFile.ofBytes (b : Bytes) : DataFile where
  size := b.length
  head :=
    if leNat (b.take 4) = rhmJdatFileMagic.toNat then
      .hdr {
        rid := leNat ((b.drop 8).take 8)
        pfid := leNat ((b.drop 16).take 2)
        lfid := leNat ((b.drop 18).take 2)
        fro := fileFro b
        owi := leNat ((b.drop 6).take 2) % 2 == 1 }
    else if leNat (b.take 4) = 0 then .zero
    else .other

namespace Jrnl

namespace Resize

variable {i : JrnlInfo} {s : Resize} {images fs : List Bytes} {n m : Nat} {ji : Jinf}

theorem ofBytes_encodeFileHdr {k fro sec nsec : Nat} {rid : UInt64} {f : Bytes} (hk : k < 2 ^ 16)
    (hf : encodeFileHdr k fro sec nsec rid <+: f) :
    ∃ h, DataFile.ofBytes f = ⟨f.length, .hdr h⟩ ∧ h.pfid = k ∧ h.lfid = k ∧ h.owi = false := by
  obtain ⟨rest, rfl⟩ := hf
  have hle : leNat (leBytes 2 k) = k := leNat_leBytes hk
  have hfront : (Hdr.encode ⟨Hdr.rhm ++ [0x66], 1, 0, 0, rid⟩).length = 16 := by
    simp [Hdr.encode, Hdr.rhm]
  have hpfid : leNat (((encodeFileHdr k fro sec nsec rid ++ rest).drop 16).take 2) = k := by
    simp only [encodeFileHdr, List.append_assoc]
    rw [List.drop_left' hfront, List.take_left' (length_leBytes 2 k), hle]
  have hlfid : leNat (((encodeFileHdr k fro sec nsec rid ++ rest).drop 18).take 2) = k := by
    have hlen : (Hdr.encode ⟨Hdr.rhm ++ [0x66], 1, 0, 0, rid⟩ ++ leBytes 2 k).length = 18 := by
      rw [List.length_append, hfront, length_leBytes]
    simp only [encodeFileHdr, List.append_assoc]
    rw [← List.append_assoc, List.drop_left' hlen, List.take_left' (length_leBytes 2 k), hle]
  have hmagic : leNat ((encodeFileHdr k fro sec nsec rid ++ rest).take 4) = rhmJdatFileMagic.toNat :=
    beq_iff_eq.mp (@fileHdr_read k sec nsec fro rid rest).1
  have howi : leNat (((encodeFileHdr k fro sec nsec rid ++ rest).drop 6).take 2) = 0 := by
    simp [encodeFileHdr, Hdr.encode, Hdr.rhm, leBytes, leNat]
  rw [DataFile.ofBytes, if_pos hmagic]
  refine ⟨_, rfl, hpfid, hlfid, ?_⟩
  simp only [howi]
  rfl

theorem ofBytes_blank (i : JrnlInfo) : DataFile.ofBytes (blank i) = ⟨i.jrnlFileSizeBytes, .zero⟩ := by
  have hzero : leNat ((blank i).take 4) = 0 := by rw [blank, List.take_replicate, leNat_zeros]
  rw [DataFile.ofBytes, hzero, if_neg (by decide), if_pos rfl, blank, List.length_replicate]

/-- Recovery starts with file 0, unless no file has a header. -/
theorem Layout.analyze (h : Layout i images fs s n m) (hv : ji.validate = .ok ()) (hn : ji.numJfiles = fs.length)
    (hsize : ji.jfsizeSblks = i.jrnlDataSizeSblks) :
    ji.analyze (fun k => fs[k]?.map .ofBytes) =
      if s.files = [] then .error .jdatEmpty
      else .ok ⟨List.range s.files.length, false, decide (s.files.length < fs.length)⟩ := by
  obtain ⟨-, hmin, hmax, -, -, hsblk, hdblk⟩ := (Jinf.validate_iff ji).mp hv
  obtain ⟨blanks, hfs, hblank⟩ := h.blanks
  have hbytes : ji.fileBytes = i.jrnlFileSizeBytes := by
    rw [Jinf.fileBytes, hsize, hsblk, hdblk, Nat.mul_assoc]
    rfl
  have hlen : fs.length = s.files.length + blanks.length := by rw [hfs, List.length_append]
  have hheaded : ji.Headed (fun k => fs[k]?.map .ofBytes) 0 s.files.length false := by
    intro k _ hk
    have hk' : k < s.files.length := by omega
    have hget : s.files[k]? = some s.files[k] := List.getElem?_eq_getElem hk'
    obtain ⟨fro, sec, nsec, rid, hpre⟩ := h.holds.hdrs k _ hget
    have hk16 : k < 2 ^ 16 := by
      unfold Store.jrnlMaxNumFiles at hmax
      omega
    obtain ⟨hdr, hof, hp, hl, ho⟩ := ofBytes_encodeFileHdr hk16 hpre
    refine ⟨hdr, ?_, hp, hl, ho⟩
    change fs[k]?.map DataFile.ofBytes = _
    rw [hfs, List.getElem?_append_left hk', hget, Option.map_some, hof, h.full _ (List.getElem_mem hk'), hbytes]
  have hzero : s.files.length < fs.length →
      fs[s.files.length]?.map DataFile.ofBytes = some ⟨ji.fileBytes, .zero⟩ := by
    intro hlt
    obtain ⟨b, rest, hb⟩ := List.exists_cons_of_length_pos (show 0 < blanks.length by omega)
    rw [hfs, List.getElem?_append_right (Nat.le_refl _), Nat.sub_self, hb, List.getElem?_cons_zero,
      hblank b (by rw [hb]; exact List.mem_cons_self), Option.map_some, ofBytes_blank, hbytes]
  by_cases hnil : s.files = []
  · rw [if_pos hnil]
    have h0 : s.files.length = 0 := List.length_eq_zero_iff.mpr hnil
    have hpos : 0 < ji.numJfiles := Nat.lt_of_lt_of_le (by decide) hmin
    rw [h0] at hzero
    obtain ⟨k, hk⟩ := Nat.exists_eq_add_of_lt hpos
    rw [Jinf.analyze, hv, hk, Nat.zero_add, Jinf.analyzeLoop, hzero (by omega)]
    simp only [ne_eq, not_true_eq_false, if_false, if_true]
    rfl
  · rw [if_neg hnil]
    have hpos : 0 < s.files.length := List.length_pos_of_ne_nil hnil
    by_cases hlt : s.files.length < fs.length
    · rw [Jinf.analyze_partial hv hpos (hn ▸ hlt) hheaded (hzero hlt), decide_eq_true hlt]
    · have heq : ji.numJfiles = s.files.length := by omega
      rw [Jinf.analyze_uniform hv (heq ▸ hpos) (heq ▸ hheaded), decide_eq_false hlt, heq]

theorem Layout.files_eq_nil_iff (h : Layout i images fs s n m) : s.files = [] ↔ (images.map padded).flatten = [] := by
  constructor
  · intro hnil
    have hd := h.holds.data
    rw [hnil] at hd
    exact (List.append_eq_nil_iff.mp hd.symm).1
  · intro hnil
    by_contra hne
    have hlt := h.records 0 (List.length_pos_of_ne_nil hne)
    rw [hnil] at hlt
    simp at hlt

end Resize

end Jrnl

end RhmStore
