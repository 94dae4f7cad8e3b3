import Mathlib.Algebra.Group.Nat.Defs
import Mathlib.Data.List.Basic
import Mathlib.Tactic.Common

/-! # Bytes in memory

Unsigned machine words as natural numbers that wrap, little-endian layout of numbers, and reads and
writes that fail outside of the object they are made in. -/

namespace RhmStore

/-- An object in memory. -/
abbrev Bytes := List UInt8

/-! ## Words -/

/-- The number in a word of `w` bits. -/
def wrap (w n : Nat) : Nat := n % 2 ^ w

/-- The difference of two words of `w` bits. -/
def wsub (w a b : Nat) : Nat := wrap w (a + (2 ^ w - wrap w b))

theorem wrap_of_lt {w n : Nat} (h : n < 2 ^ w) : wrap w n = n := Nat.mod_eq_of_lt h

theorem wsub_lt (w a b : Nat) : wsub w a b < 2 ^ w := Nat.mod_lt _ (Nat.two_pow_pos w)

theorem wsub_of_le {w a b : Nat} (h : b ≤ a) (ha : a < 2 ^ w) : wsub w a b = a - b := by
  have hb : b < 2 ^ w := Nat.lt_of_le_of_lt h ha
  have he : a + (2 ^ w - b) = (a - b) + 2 ^ w := by omega
  rw [wsub, wrap_of_lt hb, he, wrap, Nat.add_mod_right, Nat.mod_eq_of_lt (by omega)]

/-! ## Little-endian numbers -/

/-- The `w` bytes of `n`, the lowest first. -/
def leBytes : Nat → Nat → Bytes
  | 0, _ => []
  | w + 1, n => UInt8.ofNat n :: leBytes w (n / 256)

def leNat : Bytes → Nat
  | [] => 0
  | b :: bs => b.toNat + 256 * leNat bs

@[simp] theorem length_leBytes (w n : Nat) : (leBytes w n).length = w := by
  induction w generalizing n with
  | zero => rfl
  | succ w ih => rw [leBytes, List.length_cons, ih]

theorem leNat_leBytes {w n : Nat} (h : n < 256 ^ w) : leNat (leBytes w n) = n := by
  induction w generalizing n with
  | zero =>
    rw [Nat.pow_zero, Nat.lt_one_iff] at h
    rw [h]
    rfl
  | succ w ih =>
    have hd : n / 256 < 256 ^ w := by
      apply Nat.div_lt_of_lt_mul
      rwa [Nat.mul_comm, ← Nat.pow_succ]
    have hm : (UInt8.ofNat n).toNat = n % 256 := rfl
    rw [leBytes, leNat, ih hd, hm]
    exact Nat.mod_add_div n 256

theorem leBytes_leNat (b : Bytes) : leBytes b.length (leNat b) = b := by
  induction b with
  | nil => rfl
  | cons x b ih =>
    have hx : x.toNat < 256 := x.toNat_lt
    have hd : (x.toNat + 256 * leNat b) / 256 = leNat b := by omega
    have hm : UInt8.ofNat (x.toNat + 256 * leNat b) = x := by
      apply UInt8.toNat_inj.mp
      show (x.toNat + 256 * leNat b) % 256 = x.toNat
      omega
    rw [List.length_cons, leNat, leBytes, hd, ih, hm]

theorem leNat_lt (b : Bytes) : leNat b < 256 ^ b.length := by
  induction b with
  | nil => exact Nat.one_pos
  | cons x b ih =>
    have hx : x.toNat < 256 := x.toNat_lt
    rw [leNat, List.length_cons, Nat.pow_succ]
    omega

/-! ## Reads and writes -/

/-- The `n` bytes at offset `i`. -/
def readAt (b : Bytes) (i n : Nat) : Option Bytes :=
  if i + n ≤ b.length then some ((b.drop i).take n) else none

/-- The object with the bytes `src` written at offset `i`. -/
def writeAt (b : Bytes) (i : Nat) (src : Bytes) : Option Bytes :=
  if i + src.length ≤ b.length then some (b.take i ++ src ++ b.drop (i + src.length)) else none

theorem readAt_of_le {b : Bytes} {i n : Nat} (h : i + n ≤ b.length) :
    readAt b i n = some ((b.drop i).take n) := if_pos h

/-- A read inside a window of `s` reads `s`. -/
theorem readAt_window {p q s : Bytes} {o i n : Nat} (hw : p ++ q = s.drop o)
    (h : i + n ≤ p.length) : readAt p i n = some ((s.drop (o + i)).take n) := by
  rw [readAt_of_le h, ← List.drop_drop, ← hw, List.drop_append_of_le_length (by omega),
    List.take_append_of_le_length (by rw [List.length_drop]; omega)]

theorem writeAt_extends {b s : Bytes} {i n : Nat} (h : b.take i = s.take i)
    (hn : i + n ≤ b.length) (hs : i + n ≤ s.length) :
    ∃ b', writeAt b i ((s.drop i).take n) = some b' ∧ b'.length = b.length ∧
      b'.take (i + n) = s.take (i + n) := by
  have hl : ((s.drop i).take n).length = n := by
    rw [List.length_take, List.length_drop]
    omega
  have hi : (b.take i).length = i := by
    rw [List.length_take]
    omega
  refine ⟨b.take i ++ (s.drop i).take n ++ b.drop (i + n), ?_, ?_, ?_⟩
  · rw [writeAt, hl, if_pos hn]
  · rw [List.length_append, List.length_append, hl, hi, List.length_drop]
    omega
  · rw [List.take_append_of_le_length (Nat.le_of_eq (by rw [List.length_append, hi, hl])), h, ← List.take_add,
      List.take_of_length_le (by rw [List.length_take]; omega)]

end RhmStore
