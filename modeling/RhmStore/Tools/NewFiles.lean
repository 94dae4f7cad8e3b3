import RhmStore.Jrnl.RcvRecords
import RhmStore.Rec.Encode
import RhmStore.Tools.Reload
import RhmStore.Tools.Resize

/-! # How the new files are laid out -/

namespace RhmStore

namespace Jrnl

theorem except_bind_eq_ok {ε α β : Type} {x : Except ε α} {f : α → Except ε β} {b : β}
    (h : x >>= f = .ok b) : ∃ a, x = .ok a ∧ f a = .ok b := by
  cases x with
  | error e => cases h
  | ok a => exact ⟨a, rfl, h⟩

def padded (b : Bytes) : Bytes := b ++ List.replicate (128 * sizeDblks b.length - b.length) 0

theorem length_padded (b : Bytes) : (padded b).length = 128 * sizeDblks b.length := by
  have hle : b.length ≤ 128 * sizeDblks b.length := by
    unfold sizeDblks sizeBlks jrnlDblkSize
    omega
  rw [padded, List.length_append, List.length_replicate]
  omega

theorem dvd_length_padded (bs : List Bytes) : 128 ∣ (bs.map padded).flatten.length := by
  induction bs with
  | nil => simp
  | cons b bs ih =>
    rw [List.map_cons, List.flatten_cons, List.length_append, length_padded]
    exact Nat.dvd_add (Nat.dvd_mul_right _ _) ih

namespace Resize

variable {i : JrnlInfo} {time : Nat → Nat × Nat}

theorem fileSize_eq (i : JrnlInfo) : i.jrnlFileSizeBytes = i.jrnlDataSizeBytes + 512 := by
  rw [JrnlInfo.jrnlFileSizeBytes, JrnlInfo.jrnlDataSizeBytes, Nat.add_mul, Nat.one_mul]
  rfl

theorem dataSize_dvd (i : JrnlInfo) : 512 ∣ i.jrnlDataSizeBytes := Nat.dvd_mul_left _ _

theorem fillTo_ok {toPosn : Nat} {file file' : Bytes} (h : fillTo i toPosn file = .ok file') :
    file' = file ++ List.replicate (toPosn - file.length) 0 ∧ file'.length = toPosn ∧
      toPosn ≤ i.jrnlFileSizeBytes := by
  unfold fillTo at h
  by_cases hbig : i.jrnlFileSizeBytes < toPosn
  · rw [if_pos hbig] at h
    cases h
  · rw [if_neg hbig] at h
    by_cases hlen : (file ++ List.replicate (toPosn - file.length) 0).length ≠ toPosn
    · rw [if_pos hlen] at h
      cases h
    · rw [if_neg hlen] at h
      cases h
      exact ⟨rfl, Decidable.not_not.mp hlen, Nat.not_lt.mp hbig⟩

theorem fileHdr_read (fid sec nsec : Nat) {fro : Nat} (rid : UInt64) (rest : Bytes) :
    fileHeaded (encodeFileHdr fid fro sec nsec rid ++ rest) = true ∧
      (fro < 2 ^ 64 → fileFro (encodeFileHdr fid fro sec nsec rid ++ rest) = fro) := by
  constructor
  · rfl
  · intro hfro
    have hle : leNat (leBytes 8 fro) = fro := leNat_leBytes hfro
    have hdrop : ((encodeFileHdr fid fro sec nsec rid ++ rest).drop 24).take 8 = leBytes 8 fro := by
      have hfront : (Hdr.encode ⟨Hdr.rhm ++ [0x66], 1, 0, 0, rid⟩ ++ (leBytes 2 fid ++ leBytes 2 fid ++
          List.replicate 4 0)).length = 24 := by
        simp [Hdr.encode, Hdr.rhm]
      have hsplit : encodeFileHdr fid fro sec nsec rid ++ rest =
          (Hdr.encode ⟨Hdr.rhm ++ [0x66], 1, 0, 0, rid⟩ ++ (leBytes 2 fid ++ leBytes 2 fid ++
            List.replicate 4 0)) ++ (leBytes 8 fro ++ (leBytes 8 sec ++ (leBytes 8 nsec ++ rest))) := by
        simp only [encodeFileHdr, List.append_assoc]
      rw [hsplit, List.drop_left' hfront, List.take_left' (length_leBytes 8 fro)]
    rw [fileFro, hdrop, hle]

/-! ## Where the files are -/

def files (s : Resize) : List Bytes := s.closed ++ s.file.toList

/-- The files hold the bytes `w` behind their headers. Where a file begins with one of the records `bs`,
its header says so. -/
structure Holds (i : JrnlInfo) (bs : List Bytes) (w : Bytes) (s : Resize) : Prop where
  closed : ∀ f ∈ s.closed, f.length = i.jrnlFileSizeBytes
  file : ∀ f ∈ s.file, 512 ≤ f.length ∧ f.length ≤ i.jrnlFileSizeBytes
  first : s.file = none → s.closed = []
  fnum : s.fnum = s.file.map fun _ => s.closed.length
  hdrs : ∀ k f, s.files[k]? = some f → ∃ fro sec nsec rid, encodeFileHdr k fro sec nsec rid <+: f
  data : Rec.following s.files = w
  fro : ∀ k f, s.files[k]? = some f → ∀ j, k * i.jrnlDataSizeBytes = (bs.take j).flatten.length →
    fileFro f = 512

theorem holds_init (i : JrnlInfo) : init.Holds i [] [] where
  closed f hf := by cases hf
  file f hf := by cases hf
  first _ := rfl
  fnum := rfl
  hdrs k f hf := by simp [files, init] at hf
  data := rfl
  fro k f hf := by simp [files, init] at hf

variable {s s' : Resize} {bs : List Bytes} {w : Bytes}

theorem Holds.headed (h : s.Holds i bs w) : ∀ f ∈ s.files, fileHeaded f = true := by
  intro f hf
  obtain ⟨k, hk⟩ := List.mem_iff_getElem?.mp hf
  obtain ⟨fro, sec, nsec, rid, rest, rfl⟩ := h.hdrs k f hk
  exact (@fileHdr_read k sec nsec fro rid rest).1

theorem following_append (fs gs : List Bytes) :
    Rec.following (fs ++ gs) = Rec.following fs ++ Rec.following gs := by
  simp [Rec.following]

theorem length_following {fs : List Bytes} (h : ∀ f ∈ fs, f.length = i.jrnlFileSizeBytes) :
    (Rec.following fs).length = fs.length * i.jrnlDataSizeBytes := by
  induction fs with
  | nil => simp [Rec.following]
  | cons f fs ih =>
    have hf := h f List.mem_cons_self
    have hcons : Rec.following (f :: fs) = f.drop 512 ++ Rec.following fs := rfl
    rw [hcons, List.length_append, ih fun g hg => h g (List.mem_cons_of_mem _ hg), List.length_drop, hf,
      fileSize_eq, List.length_cons, Nat.add_mul]
    omega

/-- The open file has what is left of the bytes. -/
theorem Holds.length (h : s.Holds i bs w) {f : Bytes} (hf : s.file = some f) :
    w.length = s.closed.length * i.jrnlDataSizeBytes + (f.length - 512) := by
  rw [← h.data, files, hf, following_append, List.length_append, length_following h.closed]
  simp [Rec.following, jrnlSblkSize, jrnlDblkSize]

theorem fileFro_append {f : Bytes} (hf : 512 ≤ f.length) (b : Bytes) : fileFro (f ++ b) = fileFro f := by
  rw [fileFro, fileFro, List.drop_append_of_le_length (by omega),
    List.take_append_of_le_length (by rw [List.length_drop]; omega)]

/-- Bytes that fit into the open file. -/
theorem Holds.append (h : s.Holds i bs w) {f b : Bytes} (hf : s.file = some f)
    (hfit : f.length + b.length ≤ i.jrnlFileSizeBytes) :
    Holds i bs (w ++ b) { s with file := some (f ++ b) } := by
  obtain ⟨hge, hle⟩ := h.file f hf
  have hfr := fileFro_append hge b
  have hfiles : s.files = s.closed ++ [f] := by
    rw [files, hf]
    rfl
  have hfiles' : files { s with file := some (f ++ b) } = s.closed ++ [f ++ b] := rfl
  have hhdrs := h.hdrs
  have hfro := h.fro
  rw [hfiles] at hhdrs hfro
  constructor
  · exact h.closed
  · rintro g ⟨⟩
    rw [List.length_append]
    omega
  · intro hn
    cases hn
  · rw [h.fnum, hf]
    rfl
  · rw [hfiles']
    intro k g hg
    by_cases hk : k < s.closed.length
    · apply hhdrs k g
      rw [List.getElem?_append_left hk] at hg ⊢
      exact hg
    · rw [List.getElem?_append_right (Nat.not_lt.mp hk), List.getElem?_singleton] at hg
      split at hg
      · rename_i h0
        cases hg
        obtain ⟨fro, sec, nsec, rid, hpre⟩ := hhdrs k f (by
          rw [List.getElem?_append_right (Nat.not_lt.mp hk), h0]
          rfl)
        exact ⟨fro, sec, nsec, rid, hpre.trans (List.prefix_append f b)⟩
      · cases hg
  · rw [hfiles', ← h.data, hfiles, following_append, following_append, List.append_assoc]
    congr 1
    simp only [Rec.following, List.map_cons, List.map_nil, List.flatten_cons, List.flatten_nil, List.append_nil,
      jrnlSblkSize, jrnlDblkSize]
    exact List.drop_append_of_le_length hge
  · rw [hfiles']
    intro k g hg j hj
    by_cases hk : k < s.closed.length
    · apply hfro k g _ j hj
      rw [List.getElem?_append_left hk] at hg ⊢
      exact hg
    · rw [List.getElem?_append_right (Nat.not_lt.mp hk), List.getElem?_singleton] at hg
      split at hg
      · rename_i h0
        cases hg
        rw [hfr]
        apply hfro k f _ j hj
        rw [List.getElem?_append_right (Nat.not_lt.mp hk), h0]
        rfl
      · cases hg

/-- A new file, with a header that is right if a record starts there. -/
theorem Holds.push (h : s.Holds i bs w) {fro fnum : Nat} {rid : UInt64} {f : Bytes}
    (hfull : ∀ g ∈ s.file, g.length = i.jrnlFileSizeBytes) (hnum : fnum = s.files.length)
    (hf : fillTo i 512 (encodeFileHdr fnum fro (time fnum).1 (time fnum).2 rid) = .ok f)
    (hfro : ∀ j, w.length = (bs.take j).flatten.length → fro = 512) :
    Holds i bs w ⟨s.files, some f, some fnum⟩ := by
  obtain ⟨rfl, hlen, hle⟩ := fillTo_ok hf
  have hclosed : ∀ g ∈ s.files, g.length = i.jrnlFileSizeBytes := by
    intro g hg
    rcases List.mem_append.mp hg with hc | hl
    · exact h.closed g hc
    · exact hfull g (Option.mem_toList.mp hl)
  have hw : w.length = s.files.length * i.jrnlDataSizeBytes := by
    rw [← h.data, length_following hclosed]
  constructor
  · exact hclosed
  · rintro g ⟨⟩
    omega
  · intro hn
    cases hn
  · rw [hnum]
    rfl
  · intro k g hg
    have hgf : (s.files ++ [_])[k]? = some g := hg
    by_cases hk : k < s.files.length
    · apply h.hdrs k g
      rwa [List.getElem?_append_left hk] at hgf
    · rw [List.getElem?_append_right (Nat.not_lt.mp hk), List.getElem?_singleton] at hgf
      split at hgf
      · rename_i h0
        cases hgf
        obtain rfl : fnum = k := by omega
        exact ⟨_, _, _, _, List.prefix_append _ _⟩
      · cases hgf
  · show Rec.following (s.files ++ [_]) = w
    have hnil : Rec.following [encodeFileHdr fnum fro (time fnum).1 (time fnum).2 rid ++
        List.replicate (512 - (encodeFileHdr fnum fro (time fnum).1 (time fnum).2 rid).length) 0] = [] := by
      simp only [Rec.following, List.map_cons, List.map_nil, List.flatten_cons, List.flatten_nil,
        List.append_nil, jrnlSblkSize, jrnlDblkSize]
      exact List.drop_of_length_le (Nat.le_of_eq hlen)
    rw [following_append, h.data, hnil, List.append_nil]
  · intro k g hg j hj
    have hgf : (s.files ++ [_])[k]? = some g := hg
    by_cases hk : k < s.files.length
    · apply h.fro k g _ j hj
      rw [List.getElem?_append_left hk] at hgf
      exact hgf
    · rw [List.getElem?_append_right (Nat.not_lt.mp hk), List.getElem?_singleton] at hgf
      split at hgf
      · rename_i h0
        cases hgf
        have hkeq : k = s.files.length := by omega
        rw [hkeq, ← hw] at hj
        have heq := hfro j hj
        rw [(fileHdr_read _ _ _ _ _).2 (by omega), heq]
      · cases hgf

/-- Then a file is open that is not full. -/
theorem Holds.ready (hd : 0 < i.jrnlDataSizeBytes) (h : s.Holds i bs w) {fro : Nat} {rid : UInt64}
    {ridList : List UInt64} (hfro : ∀ j, w.length = (bs.take j).flatten.length → fro = 512)
    (hok : ready i time rid ridList fro s = .ok s') :
    s'.Holds i bs w ∧ ∃ f, s'.file = some f ∧ f.length < i.jrnlFileSizeBytes := by
  have hfs := fileSize_eq i
  unfold Resize.ready at hok
  by_cases hc : s.file = none ∨ i.jrnlFileSizeBytes ≤ s.tell
  · rw [if_pos hc] at hok
    obtain ⟨x, hrot, hx⟩ := except_bind_eq_ok hok
    have hfull : ∀ g ∈ s.file, g.length = i.jrnlFileSizeBytes := by
      intro g hg
      have hle := (h.file g hg).2
      have hge : i.jrnlFileSizeBytes ≤ s.tell := hc.resolve_left (by rw [Option.mem_def.mp hg]; simp)
      rw [tell, Option.mem_def.mp hg] at hge
      exact Nat.le_antisymm hle hge
    have hopen : ∀ n r, openFile i time (some (r, fro)) n ⟨s.files, none, s.fnum⟩ = .ok x →
        n = s.files.length → s'.Holds i bs w ∧ ∃ f, s'.file = some f ∧ f.length < i.jrnlFileSizeBytes := by
      intro n r ho hn
      obtain ⟨f, hf, hr⟩ := except_bind_eq_ok ho
      cases hr
      cases hx
      have hlen := (fillTo_ok hf).2.1
      refine ⟨h.push hfull hn hf hfro, f, rfl, ?_⟩
      rw [hlen, hfs]
      exact Nat.lt_add_of_pos_left hd
    have hnum := h.fnum
    unfold rotateFile at hrot
    cases hfile : s.file with
    | none =>
      rw [hfile] at hnum
      have hnone : s.fnum = none := hnum
      simp only [hnone] at hrot
      rw [hnone] at hopen
      apply hopen 0 _ hrot
      rw [files, hfile, h.first hfile]
      rfl
    | some g =>
      rw [hfile] at hnum
      have hsome : s.fnum = some s.closed.length := hnum
      simp only [hsome] at hrot
      rw [hsome] at hopen
      split at hrot
      · cases hrot
        cases hx
      · apply hopen _ _ hrot
        rw [files, hfile, List.length_append]
        rfl
  · rw [if_neg hc] at hok
    cases hok
    rw [not_or, Nat.not_le] at hc
    obtain ⟨f, hf⟩ := Option.ne_none_iff_exists'.mp hc.1
    refine ⟨h, f, hf, ?_⟩
    have hlt := hc.2
    rw [tell, hf] at hlt
    exact hlt

/-! ## The records -/

theorem padding_eq {n m : Nat} (h : n % 128 = m % 128) :
    sizeInBytesToBlk n jrnlDblkSize - n = 128 * sizeDblks m - m := by
  unfold sizeInBytesToBlk sizeDblks sizeBlks jrnlDblkSize
  omega

/-- A record is written to the files, from where it is on: with what is left of it the bytes go on up to
the dblk boundary. -/
theorem Holds.writeRec (hd : 0 < i.jrnlDataSizeBytes) {fuel fro fro' : Nat} {rid : UInt64}
    {ridList : List UInt64} {done rec : Bytes} (h : s.Holds i bs (bs.flatten ++ done)) (hne : rec ≠ [])
    (hdone : done = [] → fro = 512) (hdvd : 128 ∣ bs.flatten.length)
    (hok : writeRec i time rid ridList fuel rec fro s = .ok (s', fro')) :
    fro' = 512 ∧ s'.Holds i bs (bs.flatten ++ padded (done ++ rec)) ∧
      ∀ f ∈ s'.file, 512 < f.length := by
  induction fuel generalizing done rec fro s with
  | zero =>
    cases rec with
    | nil => exact absurd rfl hne
    | cons b rec => cases hok
  | succ fuel ih =>
    obtain ⟨b, bytes, hrec⟩ := List.exists_cons_of_ne_nil hne
    have hfro : ∀ j, (bs.flatten ++ done).length = (bs.take j).flatten.length → fro = 512 := by
      intro j hj
      apply hdone
      have hsplit : bs.flatten = (bs.take j).flatten ++ (bs.drop j).flatten := by
        rw [← List.flatten_append, List.take_append_drop]
      rw [hsplit] at hj
      simp only [List.length_append] at hj
      exact List.eq_nil_of_length_eq_zero (by omega)
    rw [Resize.writeRec.eq_def, hrec] at hok
    simp only [← hrec] at hok
    obtain ⟨s₁, hready, hok⟩ := except_bind_eq_ok hok
    obtain ⟨h₁, f, hf, hlt⟩ := h.ready hd hfro hready
    have htell : s₁.tell = f.length := by
      rw [tell, hf]
      rfl
    have hwlen := h₁.length hf
    have hge := (h₁.file f hf).1
    rw [htell] at hok
    by_cases hfit : rec.length ≤ i.jrnlFileSizeBytes - f.length
    · -- what is left fits into the file
      rw [if_pos hfit] at hok
      have hwr : s₁.write rec = { s₁ with file := some (f ++ rec) } := by
        rw [write, hf]
        rfl
      rw [hwr] at hok
      obtain ⟨file, hfill, hok⟩ := except_bind_eq_ok hok
      cases hok
      have hto : tell { s₁ with file := some (f ++ rec) } = (f ++ rec).length := rfl
      rw [hto] at hfill
      have hfill' : fillTo i (sizeInBytesToBlk (f ++ rec).length jrnlDblkSize) (f ++ rec) = .ok file := hfill
      obtain ⟨rfl, hlen, hle⟩ := fillTo_ok hfill'
      have hmod : (f ++ rec).length % 128 = (done ++ rec).length % 128 := by
        obtain ⟨q, hq⟩ := hdvd
        obtain ⟨d, hd'⟩ := dataSize_dvd i
        have hclosed : 128 ∣ s₁.closed.length * i.jrnlDataSizeBytes := by
          rw [hd']
          exact Nat.dvd_mul_left_of_dvd (Nat.dvd_mul_right_of_dvd (by decide) _) _
        rw [List.length_append, hq] at hwlen
        rw [List.length_append, List.length_append]
        omega
      have hbytes : f ++ rec ++ List.replicate (sizeInBytesToBlk (f ++ rec).length jrnlDblkSize -
          (f ++ rec).length) 0 = f ++ (rec ++ List.replicate (128 * sizeDblks (done ++ rec).length -
            (done ++ rec).length) 0) := by
        rw [padding_eq hmod, List.append_assoc]
      have hpos : 0 < rec.length := List.length_pos_of_ne_nil hne
      rw [hbytes] at hlen ⊢
      have happ := h₁.append hf (b := rec ++ List.replicate (128 * sizeDblks (done ++ rec).length -
        (done ++ rec).length) 0) (by rw [← List.length_append, hlen]; exact hle)
      rw [List.append_assoc] at happ
      refine ⟨rfl, ?_, ?_⟩
      · rw [padded, List.append_assoc]
        exact happ
      · intro g hg
        cases hg
        rw [List.length_append, List.length_append]
        omega
    · -- the file is filled, the next one goes on
      rw [if_neg hfit] at hok
      have hlen : (rec.take (i.jrnlFileSizeBytes - f.length)).length = i.jrnlFileSizeBytes - f.length := by
        rw [List.length_take]
        omega
      have hwr : s₁.write (rec.take (i.jrnlFileSizeBytes - f.length)) =
          { s₁ with file := some (f ++ rec.take (i.jrnlFileSizeBytes - f.length)) } := by
        rw [write, hf]
        rfl
      rw [hwr] at hok
      have happ := h₁.append hf (b := rec.take (i.jrnlFileSizeBytes - f.length)) (by omega)
      rw [List.append_assoc] at happ
      have hrest : rec.drop (i.jrnlFileSizeBytes - f.length) ≠ [] := by
        intro hnil
        have hl := congrArg List.length hnil
        rw [List.length_drop, List.length_nil] at hl
        omega
      have hih := ih happ hrest (fun hnil => by
        have hl := congrArg List.length hnil
        rw [List.length_append, hlen, List.length_nil] at hl
        omega) hok
      rw [List.append_assoc, List.take_append_drop] at hih
      exact hih

theorem Holds.extend {b : Bytes} (h : s.Holds i bs (bs.flatten ++ b))
    (hf : ∀ f ∈ s.file, 512 < f.length) :
    s.Holds i (bs ++ [b]) (bs ++ [b]).flatten where
  closed := h.closed
  file := h.file
  first := h.first
  fnum := h.fnum
  hdrs := h.hdrs
  data := by
    rw [h.data, List.flatten_append, List.flatten_cons, List.flatten_nil, List.append_nil]
  fro := by
    intro k f hk j hj
    by_cases hle : j ≤ bs.length
    · rw [List.take_append_of_le_length hle] at hj
      exact h.fro k f hk j hj
    · -- no file starts where the bytes end
      exfalso
      rw [List.take_of_length_le (by rw [List.length_append, List.length_singleton]; omega),
        List.flatten_append, List.flatten_cons, List.flatten_nil, List.append_nil] at hj
      have hlt := (List.getElem?_eq_some_iff.mp hk).1
      cases hfile : s.file with
      | none =>
        rw [files, hfile, h.first hfile] at hlt
        exact absurd hlt (Nat.not_lt_zero k)
      | some g =>
        have hlen := h.length hfile
        have hgt := hf g hfile
        rw [files, hfile, List.length_append] at hlt
        have hkle : k * i.jrnlDataSizeBytes ≤ s.closed.length * i.jrnlDataSizeBytes :=
          Nat.mul_le_mul_right _ (Nat.le_of_lt_succ hlt)
        omega

theorem Holds.writeRecs (hd : 0 < i.jrnlDataSizeBytes) {recs : List (Nat × Rec)} {images : List Bytes}
    {fro' : Nat} (henc : recs.map (·.2.encode) = images.map .ok) (hne : ∀ b ∈ images, b ≠ [])
    (h : s.Holds i bs bs.flatten) (hf : ∀ f ∈ s.file, 512 < f.length) (hdvd : 128 ∣ bs.flatten.length)
    (hok : writeRecs i time recs 512 s = .ok (s', fro')) :
    s'.Holds i (bs ++ images.map padded) (bs ++ images.map padded).flatten ∧
      ∀ f ∈ s'.file, 512 < f.length := by
  induction recs generalizing images bs s with
  | nil =>
    have hnil : images = [] := List.map_eq_nil_iff.mp henc.symm
    cases hok
    rw [hnil, List.map_nil, List.append_nil]
    exact ⟨h, hf⟩
  | cons r recs ih =>
    cases images with
    | nil => cases henc
    | cons b images =>
      rw [List.map_cons, List.map_cons, List.cons.injEq] at henc
      obtain ⟨hb, hrest⟩ := henc
      obtain ⟨rec, hrec, hok⟩ := except_bind_eq_ok hok
      rw [hb] at hrec
      cases hrec
      obtain ⟨⟨s₁, fro₁⟩, hwrite, hok⟩ := except_bind_eq_ok hok
      have h₀ : s.Holds i bs (bs.flatten ++ []) := by
        rw [List.append_nil]
        exact h
      have hone := h₀.writeRec hd (hne b List.mem_cons_self) (fun _ => rfl) hdvd hwrite
      obtain ⟨rfl, h₁, hfile⟩ := hone
      have hext := h₁.extend hfile
      have hdvd' : 128 ∣ (bs ++ [padded ([] ++ b)]).flatten.length := by
        rw [List.flatten_append, List.length_append, List.flatten_cons, List.flatten_nil, List.append_nil,
          length_padded]
        exact Nat.dvd_add hdvd (Nat.dvd_mul_right _ _)
      have hih := ih hrest (fun c hc => hne c (List.mem_cons_of_mem _ hc)) hext hfile hdvd' hok
      rw [List.append_assoc] at hih
      exact hih

/-! ## What follows the records -/

def filler : Bytes := padded rhmx

theorem addFillerRecs_ok {n : Nat} {file file' : Bytes} (hdvd : 128 ∣ file.length)
    (hok : addFillerRecs i n file = .ok file') : file' = file ++ (List.replicate n filler).flatten := by
  induction n generalizing file with
  | zero =>
    cases hok
    rw [List.replicate_zero, List.flatten_nil, List.append_nil]
  | succ n ih =>
    obtain ⟨file₁, hfill, hok⟩ := except_bind_eq_ok hok
    obtain ⟨rfl, -, -⟩ := fillTo_ok hfill
    have hmod : (file ++ rhmx).length % 128 = rhmx.length % 128 := by
      rw [List.length_append]
      omega
    rw [padding_eq hmod, List.append_assoc] at hok
    have hfiller : rhmx ++ List.replicate (128 * sizeDblks rhmx.length - rhmx.length) 0 = filler := rfl
    rw [hfiller] at hok
    have hdvd' : 128 ∣ (file ++ filler).length := by
      rw [List.length_append, filler, length_padded]
      exact Nat.dvd_add hdvd (Nat.dvd_mul_right _ _)
    rw [ih hdvd' hok, List.replicate_succ, List.flatten_cons, List.append_assoc]

/-- The file that is open is filled with filler records, up to the sblk boundary, and zeros. -/
theorem Holds.fillFile (h : s.Holds i bs w) (hw : 128 ∣ w.length) (hok : fillFile i s = .ok s') :
    ∃ n m, n ≤ 3 ∧ s'.Holds i bs (w ++ ((List.replicate n filler).flatten ++ List.replicate m 0)) ∧
      (∀ f ∈ s'.file, f.length = i.jrnlFileSizeBytes) ∧ s'.closed = s.closed ∧
      (s.file = none → s'.file = none) := by
  unfold Resize.fillFile at hok
  cases hfile : s.file with
  | none =>
    simp only [hfile] at hok
    cases hok
    refine ⟨0, 0, by decide, ?_, ?_, rfl, fun _ => hfile⟩
    · simp only [List.replicate_zero, List.flatten_nil, List.append_nil]
      exact h
    · intro f hf
      rw [hfile] at hf
      cases hf
  | some f =>
    simp only [hfile] at hok
    obtain ⟨f₁, hadd, hok⟩ := except_bind_eq_ok hok
    obtain ⟨f₂, hfill, hok⟩ := except_bind_eq_ok hok
    have hdvd : 128 ∣ f.length := by
      obtain ⟨d, hd⟩ := dataSize_dvd i
      obtain ⟨q, hq⟩ := hw
      have hlen := h.length hfile
      have hge := (h.file f hfile).1
      have hclosed : 128 ∣ s.closed.length * i.jrnlDataSizeBytes := by
        rw [hd]
        exact Nat.dvd_mul_left_of_dvd (Nat.dvd_mul_right_of_dvd (by decide) _) _
      omega
    have hf₁ := addFillerRecs_ok hdvd hadd
    obtain ⟨hf₂, hlen, hle⟩ := fillTo_ok hfill
    rw [hf₁, List.append_assoc] at hf₂
    cases hok
    have hle3 : remBytesInBlk f.length JrnlInfo.sblkSizeBytes / jrnlDblkSize ≤ 3 := by
      unfold remBytesInBlk sizeInBytesToBlk sizeBlks JrnlInfo.sblkSizeBytes jrnlSblkSize jrnlDblkSize
      omega
    refine ⟨remBytesInBlk f.length JrnlInfo.sblkSizeBytes / jrnlDblkSize, i.jrnlFileSizeBytes - f₁.length,
      hle3, ?_, ?_, rfl, fun hn => by cases hn⟩
    · rw [hf₁]
      rw [hf₂] at hlen ⊢
      have hfits := le_of_eq_of_le hlen hle
      rw [List.length_append] at hfits
      exact h.append hfile hfits
    · intro g hg
      cases hg
      exact hlen

def blank (i : JrnlInfo) : Bytes := List.replicate i.jrnlFileSizeBytes 0

theorem leNat_zeros (n : Nat) : leNat (List.replicate n 0) = 0 := by
  induction n with
  | zero => rfl
  | succ n ih => rw [List.replicate_succ, leNat, ih]; rfl

theorem fileHeaded_blank (i : JrnlInfo) : fileHeaded (blank i) = false := by
  rw [fileHeaded, blank, List.take_replicate, leNat_zeros]
  rfl

theorem rotateRest_files {fuel : Nat} (hok : rotateRest i time fuel s = .ok s') :
    ∃ blanks, s'.files = s.files ++ blanks ∧ ∀ f ∈ blanks, f = blank i := by
  induction fuel generalizing s with
  | zero =>
    cases hok
    exact ⟨[], (List.append_nil _).symm, fun f hf => by cases hf⟩
  | succ fuel ih =>
    obtain ⟨x, hrot, hok⟩ := except_bind_eq_ok hok
    have hopen : ∀ n, openFile i time none n { s with closed := s.files, file := none } = .ok x →
        x.1 = true ∧ ∃ f, x.2.files = s.files ++ [f] ∧ f = blank i := by
      intro n ho
      obtain ⟨f, hf, hx⟩ := except_bind_eq_ok ho
      cases hx
      obtain ⟨rfl, -, -⟩ := fillTo_ok hf
      exact ⟨rfl, _, rfl, rfl⟩
    have hgo : (x.1 = true ∧ ∃ f, x.2.files = s.files ++ [f] ∧ f = blank i) ∨
        x.1 = false ∧ x.2.files = s.files := by
      unfold rotateFile at hrot
      cases hnum : s.fnum with
      | none =>
        simp only [hnum] at hrot
        rw [hnum] at hopen
        exact .inl (hopen 0 hrot)
      | some n =>
        simp only [hnum] at hrot
        rw [hnum] at hopen
        split at hrot
        · cases hrot
          right
          refine ⟨rfl, ?_⟩
          rw [files, Option.toList_none, List.append_nil, files]
        · exact .inl (hopen (n + 1) hrot)
    rcases hgo with ⟨hx, f, hfiles, hf⟩ | ⟨hx, hfiles⟩
    · rw [if_pos hx] at hok
      obtain ⟨blanks, hb, hblank⟩ := ih hok
      refine ⟨f :: blanks, ?_, ?_⟩
      · rw [hb, hfiles, List.append_assoc]
        rfl
      · intro g hg
        rcases List.mem_cons.mp hg with rfl | hg
        · exact hf
        · exact hblank g hg
    · rw [if_neg (by rw [hx]; exact Bool.false_ne_true)] at hok
      cases hok
      exact ⟨[], by rw [hfiles, List.append_nil], fun f hf => by cases hf⟩

/-- The new files: those with a header hold the records, filler records and zeros, and each of them has
something of the records. -/
structure Layout (i : JrnlInfo) (images fs : List Bytes) (s : Resize) (n m : Nat) : Prop where
  blanks : ∃ blanks, fs = s.files ++ blanks ∧ ∀ f ∈ blanks, f = blank i
  full : ∀ f ∈ s.files, f.length = i.jrnlFileSizeBytes
  holds : s.Holds i (images.map padded)
    ((images.map padded).flatten ++ ((List.replicate n filler).flatten ++ List.replicate m 0))
  fillers : n ≤ 3
  records : ∀ k < s.files.length, k * i.jrnlDataSizeBytes < (images.map padded).flatten.length

theorem createNewFiles_layout (hd : 0 < i.jrnlDataSizeBytes) {emap : List EnqRec}
    {txnObjList : List (Bytes × TxnRec)} {tmap : List (List Rec)} {images fs : List Bytes}
    (henc : (masterRecordList emap txnObjList tmap).toList.map (·.2.encode) = images.map .ok)
    (hne : ∀ b ∈ images, b ≠ []) (hok : createNewFiles i time emap txnObjList tmap = .ok fs) :
    ∃ s n m, Layout i images fs s n m := by
  obtain ⟨⟨s₀, fro⟩, hwrite, hok⟩ := except_bind_eq_ok hok
  obtain ⟨s₁, hfill, hok⟩ := except_bind_eq_ok hok
  obtain ⟨s₂, hrest, hok⟩ := except_bind_eq_ok hok
  cases hok
  have hrecs := Holds.writeRecs hd henc hne (holds_init i) (fun f hf => by cases hf) (by simp) hwrite
  rw [List.nil_append] at hrecs
  obtain ⟨hs₀, hlast⟩ := hrecs
  obtain ⟨n, m, hn, hs₁, hfull, hclosed, hnone⟩ := hs₀.fillFile (dvd_length_padded images) hfill
  refine ⟨s₁, n, m, rotateRest_files hrest, ?_, hs₁, hn, ?_⟩
  · intro f hf
    rcases List.mem_append.mp hf with hc | hl
    · exact hs₁.closed f hc
    · exact hfull f (Option.mem_toList.mp hl)
  · intro k hk
    cases hfile : s₀.file with
    | none =>
      -- there are no records
      exfalso
      have hfile₁ := hnone hfile
      rw [files, hfile₁, hs₁.first hfile₁] at hk
      exact absurd hk (Nat.not_lt_zero k)
    | some f =>
      have hgt := hlast f hfile
      have hlen := hs₀.length hfile
      have hle : s₁.files.length ≤ s₀.closed.length + 1 := by
        rw [files, hclosed, List.length_append]
        exact Nat.add_le_add_left (Option.length_toList_le) _
      have hkle : k * i.jrnlDataSizeBytes ≤ s₀.closed.length * i.jrnlDataSizeBytes :=
        Nat.mul_le_mul_right _ (by omega)
      omega

end Resize

end Jrnl

end RhmStore
