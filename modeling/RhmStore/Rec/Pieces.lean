import RhmStore.Jrnl.XidRec
import RhmStore.Rec.Decode

/-! # A record in pieces

What the loops over `encode` and `decode` make of single calls. -/

namespace RhmStore

open EnqRec (total stored WholeDblks dblksRem)

/-! ## Writing -/

/-- What `encode` does for a record that is to be stored as `image` and takes `n` dblks: a call writes
the dblks that its space has, or those that are left. At 4 GiB it stops. -/
structure Encodes (image : Bytes) (n : Nat) (encode : Nat → Nat → Except RecErr (Bytes × Nat)) :
    Prop where
  size : n = (image.length + 127) / 128
  split : ∀ {k m : Nat}, 0 < m → k + m < n → k < 2 ^ 25 → m < 2 ^ 25 →
    encode k m = .ok ((image.drop (128 * k)).take (128 * m), m)
  rest : ∀ {k m : Nat}, 0 < m → k = 0 ∨ k < n → n ≤ k + m → k < 2 ^ 25 →
    encode k m = .ok (image.drop (128 * k), n - k)
  wrapped : ∀ {m : Nat}, 0 < m → m < 2 ^ 25 → 2 ^ 25 < n →
    encode (2 ^ 25) m = .error .assertion

/-- Every piece is in the dblks that the call returns, and these are in its space. -/
def InSpaces (ps : List (Bytes × Nat)) (spaces : List Nat) : Prop :=
  ∀ x ∈ ps.zip spaces, x.1.1.length ≤ 128 * x.1.2 ∧ x.1.2 ≤ x.2

theorem InSpaces.cons {p : Bytes × Nat} {ps : List (Bytes × Nat)} {m : Nat} {ms : List Nat}
    (hp : p.1.length ≤ 128 * p.2) (hm : p.2 ≤ m) (h : InSpaces ps ms) :
    InSpaces (p :: ps) (m :: ms) := by
  intro x hx
  rw [List.zip_cons_cons, List.mem_cons] at hx
  rcases hx with rfl | hx
  · exact ⟨hp, hm⟩
  · exact h x hx

section Writing

variable {image : Bytes} {n : Nat} {encode : Nat → Nat → Except RecErr (Bytes × Nat)}

theorem writeAll_last {k m : Nat} {b : Bytes} {ms : List Nat} (he : encode k m = .ok (b, n - k)) :
    writeAll n encode k (m :: ms) = .ok [(b, n - k)] := by
  rw [writeAll, he, except_ok_bind, if_pos (show n ≤ k + (n - k) by omega)]
  rfl

theorem writeAll_more {k m : Nat} {b : Bytes} {ms : List Nat} (he : encode k m = .ok (b, m))
    (hk : k + m < n) :
    writeAll n encode k (m :: ms) = writeAll n encode (k + m) ms >>= fun ps => pure ((b, m) :: ps) := by
  rw [writeAll, he, except_ok_bind, if_neg (show ¬n ≤ k + m by omega)]

theorem Encodes.writeAll_eq (h : Encodes image n encode) (hl : image.length ≤ 2 ^ 32) (fill : UInt8)
    {spaces : List Nat} (hpos : ∀ m ∈ spaces, 0 < m) {k : Nat} (hk : k < n)
    (hsum : n ≤ k + total spaces) :
    ∃ ps, writeAll n encode k spaces = .ok ps ∧ total (ps.map Prod.snd) = n - k ∧
      InSpaces ps spaces ∧
      stored fill ps = image.drop (128 * k) ++ List.replicate (128 * n - image.length) fill := by
  have hn := h.size
  induction spaces generalizing k with
  | nil => exact absurd hsum (by rw [total]; omega)
  | cons m ms ih =>
    have hm := hpos m List.mem_cons_self
    rw [total] at hsum
    by_cases hlast : n ≤ k + m
    · refine ⟨_, writeAll_last (h.rest hm (.inr hk) hlast (by omega)), Nat.add_zero _, ?_, ?_⟩
      · apply InSpaces.cons
        · rw [List.length_drop]
          omega
        · omega
        · intro x hx
          exact absurd hx List.not_mem_nil
      · rw [stored, stored, List.append_nil, List.length_drop]
        congr 2
        omega
    · obtain ⟨ps, hps, htot, hin, hst⟩ := ih (fun m hm => hpos m (List.mem_cons_of_mem _ hm))
        (show k + m < n by omega) (by omega)
      have hlen : ((image.drop (128 * k)).take (128 * m)).length = 128 * m := by
        rw [List.length_take, List.length_drop]
        omega
      refine ⟨((image.drop (128 * k)).take (128 * m), m) :: ps, ?_, ?_, ?_, ?_⟩
      · rw [writeAll_more (h.split hm (by omega) (by omega) (by omega)) (by omega), hps]
        rfl
      · rw [List.map_cons, total, htot]
        omega
      · exact hin.cons (Nat.le_of_eq hlen) (Nat.le_refl m)
      · rw [stored, hst, hlen, Nat.sub_self, List.replicate_zero, List.append_nil,
          ← List.append_assoc, Nat.mul_add, ← List.drop_drop, List.take_append_drop]

theorem Encodes.writeAll_wrapped (h : Encodes image n encode) (hn : 2 ^ 25 < n) {j c : Nat}
    (hj : 256 * j ≤ 2 ^ 25) (hc : j < c) :
    writeAll n encode (2 ^ 25 - 256 * j) (List.replicate c 256) = .error .assertion := by
  induction j generalizing c with
  | zero =>
    obtain ⟨c, rfl⟩ := Nat.exists_eq_succ_of_ne_zero (Nat.ne_of_gt hc)
    rw [List.replicate_succ, writeAll, Nat.mul_zero, Nat.sub_zero,
      h.wrapped (by decide) (by decide) hn, except_error_bind]
  | succ j ih =>
    obtain ⟨c, rfl⟩ := Nat.exists_eq_succ_of_ne_zero (Nat.ne_zero_of_lt hc)
    have hnext : 2 ^ 25 - 256 * (j + 1) + 256 = 2 ^ 25 - 256 * j := by omega
    rw [List.replicate_succ, writeAll_more (h.split (by decide) (by omega) (by omega) (by decide))
      (by omega), hnext, ih (by omega) (by omega), except_error_bind]

end Writing

/-! ## Reading -/

section Reading

variable {ρ : Type} {b : Bytes} {n : Nat} {size : ρ → Nat}
  {decode : ρ → Bytes → Nat → Nat → Except RecErr (ρ × Nat)} {Got : ρ → Nat → Prop}
  {Done : ρ → Prop}

/-- What the calls of `decode` do on the pages after the first, where `b` holds the record of `n` dblks
from its start: `Got` says what there is after some dblks, `Done` what there is at the end. -/
structure Decodes (b : Bytes) (n : Nat) (size : ρ → Nat)
    (decode : ρ → Bytes → Nat → Nat → Except RecErr (ρ × Nat)) (Got : ρ → Nat → Prop)
    (Done : ρ → Prop) : Prop where
  size_got : ∀ {r : ρ} {k : Nat}, Got r k → size r = n
  size_done : ∀ {r : ρ}, Done r → size r = n
  more : ∀ {r : ρ} {k m : Nat} {p q : Bytes}, 0 < k → 0 < m → k + m < n → Got r k →
    p ++ q = b.drop (128 * k) → p.length = 128 * m →
    ∃ r', decode r p k m = .ok (r', m) ∧ Got r' (k + m)
  last : ∀ {r : ρ} {k m : Nat} {p q : Bytes}, 0 < k → k < n → n ≤ k + m → Got r k →
    p ++ q = b.drop (128 * k) → p.length = 128 * m →
    ∃ r', decode r p k m = .ok (r', n - k) ∧ Done r'

theorem readAll_done {r : ρ} {k : Nat} (hk : size r ≤ k) (pages : List Bytes) :
    readAll size decode r k pages = .ok (r, k) := by
  cases pages with
  | nil => rfl
  | cons => exact if_neg (by omega)

/-- The pages that follow complete the record. -/
theorem Decodes.readAll_eq (h : Decodes b n size decode Got Done) {pages : List Bytes}
    (hpages : ∀ p ∈ pages, WholeDblks p) {r : ρ} {k : Nat} (hk : 0 < k) (hlt : k < n)
    (hg : Got r k) (hw : pages.flatten = b.drop (128 * k))
    (hlong : 128 * n ≤ 128 * k + pages.flatten.length) :
    ∃ r', readAll size decode r k pages = .ok (r', n) ∧ Done r' := by
  induction pages generalizing r k with
  | nil =>
    rw [List.flatten_nil, List.length_nil] at hlong
    omega
  | cons p pages ih =>
    have hp := hpages p List.mem_cons_self
    have hlen := hp.length_eq
    have hpos := hp.dblksRem_pos
    rw [List.flatten_cons] at hw hlong
    rw [List.length_append] at hlong
    rw [readAll, h.size_got hg, if_pos hlt]
    by_cases hm : n ≤ k + dblksRem p
    · obtain ⟨r', hr, hd⟩ := h.last hk hlt hm hg hw hlen
      have hs : k + (n - k) = n := by omega
      rw [hr, except_ok_bind, hs, readAll_done (Nat.le_of_eq (h.size_done hd))]
      exact ⟨r', rfl, hd⟩
    · obtain ⟨r', hr, hg'⟩ := h.more hk hpos (by omega) hg hw hlen
      have hw' : pages.flatten = b.drop (128 * (k + dblksRem p)) := by
        rw [Nat.mul_add, ← List.drop_drop, ← hw, ← hlen, List.drop_left]
      rw [hr, except_ok_bind]
      exact ih (fun p hp => hpages p (List.mem_cons_of_mem _ hp)) (by omega) (by omega) hg' hw'
        (by omega)

theorem Decodes.readAll_first (h : Decodes b n size decode Got Done) {page : Bytes}
    {pages : List Bytes} (hpages : ∀ p ∈ page :: pages, WholeDblks p)
    (hw : (page :: pages).flatten = b) (hlong : 128 * n ≤ b.length) {res : Except RecErr (ρ × Nat)}
    (hlast : n ≤ dblksRem page → ∃ r, res = .ok (r, n) ∧ Done r)
    (hmore : dblksRem page < n → ∃ r, res = .ok (r, dblksRem page) ∧ Got r (dblksRem page)) :
    ∃ r', (res >>= fun p => readAll size decode p.1 p.2 pages) = .ok (r', n) ∧ Done r' := by
  have hlen := (hpages page List.mem_cons_self).length_eq
  have hpos := (hpages page List.mem_cons_self).dblksRem_pos
  by_cases hm : n ≤ dblksRem page
  · obtain ⟨r, rfl, hd⟩ := hlast hm
    rw [except_ok_bind, readAll_done (Nat.le_of_eq (h.size_done hd))]
    exact ⟨r, rfl, hd⟩
  · obtain ⟨r, rfl, hg⟩ := hmore (by omega)
    have hd : pages.flatten = b.drop (128 * dblksRem page) := by
      rw [← hw, List.flatten_cons, ← hlen, List.drop_left]
    rw [← hw, List.flatten_cons, List.length_append] at hlong
    rw [except_ok_bind]
    exact h.readAll_eq (fun p hp => hpages p (List.mem_cons_of_mem _ hp)) hpos (by omega) hg hd
      (by omega)

end Reading

/-! ## Round trips -/

section RoundTrips

variable {image : Bytes} {n : Nat} {encode : Nat → Nat → Except RecErr (Bytes × Nat)}
  {Restores : Bytes → List Bytes → Prop}

/-- Written into page spaces of any sizes, a record of `n` dblks takes its dblks, and no byte outside of
them; cut into pages of any other sizes, what is stored then is read back. -/
def RoundTrips (n : Nat) (encode : Nat → Nat → Except RecErr (Bytes × Nat))
    (Restores : Bytes → List Bytes → Prop) : Prop :=
  ∀ (fill : UInt8) (spaces : List Nat), (∀ m ∈ spaces, 0 < m) → n ≤ total spaces →
    ∃ ps, writeAll n encode 0 spaces = .ok ps ∧ total (ps.map Prod.snd) = n ∧ InSpaces ps spaces ∧
      ∀ (page : Bytes) (pages : List Bytes) (rest : Bytes), (∀ p ∈ page :: pages, WholeDblks p) →
        (page :: pages).flatten = stored fill ps ++ rest → Restores page pages

theorem Encodes.roundTrips (h : Encodes image n encode) (h0 : 0 < image.length)
    (hl : image.length ≤ 2 ^ 32)
    (hread : ∀ {page : Bytes} {pages : List Bytes} {rest : Bytes},
      (∀ p ∈ page :: pages, WholeDblks p) → (page :: pages).flatten = image ++ rest →
      128 * n ≤ (image ++ rest).length → Restores page pages) : RoundTrips n encode Restores := by
  intro fill spaces hpos hsum
  have hn := h.size
  obtain ⟨ps, hps, htot, hin, hst⟩ :=
    h.writeAll_eq hl fill hpos (k := 0) (by omega) (by rwa [Nat.zero_add])
  refine ⟨ps, hps, htot, hin, ?_⟩
  intro page pages rest hpages hw
  rw [hst, Nat.mul_zero, List.drop_zero, List.append_assoc] at hw
  apply hread hpages hw
  rw [List.length_append, List.length_append, List.length_replicate]
  omega

theorem total_replicate (c m : Nat) : total (List.replicate c m) = c * m := by
  induction c with
  | zero => exact (Nat.zero_mul m).symm
  | succ c ih => rw [List.replicate_succ, total, ih, Nat.succ_mul, Nat.add_comm]

theorem Encodes.not_roundTrips (h : Encodes image n encode) (hn : 2 ^ 25 < n) :
    ¬RoundTrips n encode Restores := by
  intro hr
  have hpos : ∀ m ∈ List.replicate n 256, 0 < m := by
    intro m hm
    rw [List.eq_of_mem_replicate hm]
    decide
  obtain ⟨ps, hps, -⟩ := hr 255 (List.replicate n 256) hpos (by rw [total_replicate]; omega)
  have hw := h.writeAll_wrapped (j := 2 ^ 17) hn (by decide) (c := n) (by omega)
  rw [show 2 ^ 25 - 256 * 2 ^ 17 = 0 from rfl, hps] at hw
  cases hw

theorem not_roundTrips_of_large (hw : ∀ {m : Nat}, 0 < m → n ≤ m → encode 0 m = .ok (image, n))
    (hl : 128 * n < image.length) : ¬RoundTrips n encode Restores := by
  intro hr
  obtain ⟨ps, hps, -, hin, -⟩ := hr 255 [n + 1] (by simp) (by simp [total])
  rw [writeAll_last (hw (by omega) (Nat.le_succ n))] at hps
  cases hps
  have hx := (hin ((image, n), n + 1) List.mem_cons_self).1
  simp only at hx
  omega

/-- The offsets of a record have to stay below 4 GiB, up to its last dblk. -/
theorem roundTrips_iff (h0 : 0 < image.length) (hn : n < 2 ^ 32)
    (he : image.length < 2 ^ 39 - 127 → Encodes image n encode)
    (hw : ∀ {m : Nat}, 0 < m → n ≤ m → encode 0 m = .ok (image, n))
    (hread : image.length ≤ 2 ^ 32 → ∀ {page : Bytes} {pages : List Bytes} {rest : Bytes},
      (∀ p ∈ page :: pages, WholeDblks p) → (page :: pages).flatten = image ++ rest →
      128 * n ≤ (image ++ rest).length → Restores page pages) :
    RoundTrips n encode Restores ↔ image.length ≤ 2 ^ 32 := by
  constructor
  · intro hr
    by_contra hgt
    by_cases hl : image.length < 2 ^ 39 - 127
    · have hsize := (he hl).size
      exact (he hl).not_roundTrips (by omega) hr
    · exact not_roundTrips_of_large hw (by omega) hr
  · intro hl
    exact (he (by omega)).roundTrips h0 hl (hread hl)

end RoundTrips

end RhmStore
