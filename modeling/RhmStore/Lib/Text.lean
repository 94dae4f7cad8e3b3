import Mathlib.Data.List.Infix
import Mathlib.Data.List.TakeWhile
import Mathlib.Tactic.Ring

/-! # C strings, lines and numbers in text

Text is a list of characters, each standing for a byte. -/

namespace RhmStore

def cstr (l : List Char) : List Char := l.takeWhile fun c => c.toNat != 0

/-- `std::strstr`: the text from the first occurrence on. -/
def strstr (pat : List Char) : List Char → Option (List Char)
  | [] => if pat.isPrefixOf [] then some [] else none
  | c :: l => if pat.isPrefixOf (c :: l) then some (c :: l) else strstr pat l

/-- The buffers that a loop of `istream::getline` calls sees, each of at most `lim` characters, with
`cur` in the first one already. A line that is too long is the last one, as it makes the stream fail. -/
def getLines (lim : Nat) (cur : List Char) : List Char → List (List Char)
  | [] => [cur]
  | c :: l =>
    if c = '\n' then cur :: getLines lim [] l
    else if cur.length = lim then [cur]
    else getLines lim (cur ++ [c]) l

/-- `isspace`. -/
def isSpace (c : Char) : Bool := c.toNat == 32 || (decide (9 ≤ c.toNat) && decide (c.toNat ≤ 13))

def digitsVal (l : List Char) : Nat := Nat.ofDigitChars 10 (l.takeWhile Char.isDigit) 0

/-- `std::strtol` in base 10, with 64 bits. -/
def strtol (l : List Char) : Int :=
  let t := l.dropWhile isSpace
  if t.head? = some '-' then max (-2 ^ 63) (-(digitsVal t.tail : Int))
  else if t.head? = some '+' then min (2 ^ 63 - 1) (digitsVal t.tail)
  else min (2 ^ 63 - 1) (digitsVal t)

def decimal (n : Nat) : List Char := Nat.toDigits 10 n

/-- With `std::setw` and the fill character 0. -/
def decimalW (w n : Nat) : List Char := List.replicate (w - (decimal n).length) '0' ++ decimal n

/-! ## Substrings -/

variable {pat a b l : List Char} {q : Char}

theorem strstr_isSome_iff (pat l : List Char) : (strstr pat l).isSome ↔ pat <:+: l := by
  induction l with
  | nil =>
    rw [strstr, List.infix_nil]
    by_cases h : pat.isPrefixOf [] = true
    · rw [if_pos h]
      exact iff_of_true rfl (List.prefix_nil.mp (List.isPrefixOf_iff_prefix.mp h))
    · rw [if_neg h]
      refine iff_of_false Bool.false_ne_true ?_
      rintro rfl
      exact h rfl
  | cons c l ih =>
    rw [strstr, List.infix_cons_iff]
    by_cases h : pat.isPrefixOf (c :: l) = true
    · rw [if_pos h]
      exact iff_of_true rfl (.inl (List.isPrefixOf_iff_prefix.mp h))
    · rw [if_neg h, ih]
      rw [List.isPrefixOf_iff_prefix] at h
      exact (or_iff_right h).symm

theorem strstr_suffix (h : strstr pat l = some b) : b <:+ l ∧ pat <+: b := by
  induction l with
  | nil =>
    rw [strstr] at h
    split at h
    · cases h
      exact ⟨List.suffix_rfl, List.isPrefixOf_iff_prefix.mp ‹_›⟩
    · cases h
  | cons c l ih =>
    rw [strstr] at h
    split at h
    · cases h
      exact ⟨List.suffix_rfl, List.isPrefixOf_iff_prefix.mp ‹_›⟩
    · obtain ⟨hs, hp⟩ := ih h
      exact ⟨hs.trans (List.suffix_cons c l), hp⟩

theorem infix_append_cons_iff (hq : q ∉ pat) : pat <:+: a ++ q :: b ↔ pat <:+: a ∨ pat <:+: b := by
  constructor
  · rintro ⟨s, t, h⟩
    rw [List.append_assoc] at h
    rcases List.append_eq_append_iff.mp h with ⟨m, rfl, hm⟩ | ⟨m, rfl, hm⟩
    · -- the occurrence starts in `a`
      rcases List.append_eq_append_iff.mp hm with ⟨m', rfl, hm'⟩ | ⟨m', rfl, hm'⟩
      · left
        exact ⟨s, m', by rw [List.append_assoc]⟩
      · cases m' with
        | nil =>
          left
          exact ⟨s, [], by simp⟩
        | cons c m' =>
          rw [List.cons_append] at hm'
          cases hm'
          exact absurd (List.mem_append_right m List.mem_cons_self) hq
    · cases m with
      | nil =>
        cases pat with
        | nil => exact .inl (List.nil_infix)
        | cons c pat =>
          rw [List.nil_append, List.cons_append] at hm
          cases hm
          exact absurd List.mem_cons_self hq
      | cons c m =>
        rw [List.cons_append] at hm
        cases hm
        right
        exact ⟨m, t, by rw [List.append_assoc]⟩
  · rintro (h | h)
    · exact h.trans (List.prefix_append a _).isInfix
    · exact h.trans ((List.suffix_cons q b).trans (List.suffix_append a _)).isInfix

theorem strstr_of_prefix (h : pat <+: l) : strstr pat l = some l := by
  rw [← List.isPrefixOf_iff_prefix] at h
  cases l with
  | nil => rw [strstr, if_pos h]
  | cons c l => rw [strstr, if_pos h]

theorem strstr_append (ha : q ∉ a) (hp : q ∉ pat) :
    strstr (pat ++ [q]) (a ++ (pat ++ q :: b)) = some (pat ++ q :: b) := by
  induction a with
  | nil =>
    apply strstr_of_prefix
    rw [List.nil_append]
    exact ⟨b, by rw [List.append_assoc, List.singleton_append]⟩
  | cons c a ih =>
    have hne : ¬(pat ++ [q]).isPrefixOf (c :: (a ++ (pat ++ q :: b))) = true := by
      rw [List.isPrefixOf_iff_prefix]
      rintro ⟨t, ht⟩
      -- the first `q` stands behind `pat` on the left, later on the right
      have hidx := congrArg (List.idxOf q) ht
      have hl : List.idxOf q (pat ++ [q] ++ t) = pat.length := by
        rw [List.append_assoc, List.idxOf_append_of_notMem hp, List.singleton_append,
          List.idxOf_cons_self, Nat.add_zero]
      have hr : List.idxOf q (c :: (a ++ (pat ++ q :: b))) = (c :: a).length + pat.length := by
        rw [← List.cons_append, List.idxOf_append_of_notMem ha, List.idxOf_append_of_notMem hp,
          List.idxOf_cons_self, Nat.add_zero]
      rw [hl, hr, List.length_cons] at hidx
      omega
    rw [List.cons_append, strstr, if_neg hne]
    exact ih fun h => ha (List.mem_cons_of_mem c h)

/-- By the characters of the text, not by all characters. -/
instance decidableNoNul (l : List Char) : Decidable (∀ c ∈ l, c.toNat ≠ 0) := List.decidableBAll _ l

theorem cstr_eq (h : ∀ c ∈ l, c.toNat ≠ 0) : cstr l = l := by
  apply List.takeWhile_eq_self_iff.mpr
  intro c hc
  exact bne_iff_ne.mpr (h c hc)

theorem cstr_isStart (l : List Char) : cstr l <+: l := List.takeWhile_prefix _

theorem toNat_ne_of_mem_cstr {c : Char} (h : c ∈ cstr l) : c.toNat ≠ 0 := by
  have hc := List.mem_takeWhile_imp (p := fun c : Char => c.toNat != 0) h
  exact bne_iff_ne.mp hc

/-! ## Lines -/

section Lines

variable {lim : Nat} {cur : List Char}

theorem getLines_append (h : '\n' ∉ l) (hlen : (cur ++ l).length ≤ lim) (rest : List Char) :
    getLines lim cur (l ++ '\n' :: rest) = (cur ++ l) :: getLines lim [] rest := by
  induction l generalizing cur with
  | nil => rw [List.nil_append, getLines, if_pos rfl, List.append_nil]
  | cons c l ih =>
    have hc : c ≠ '\n' := fun he => h (he ▸ List.mem_cons_self)
    have hfull : cur.length ≠ lim := by
      rw [List.length_append, List.length_cons] at hlen
      omega
    rw [List.cons_append, getLines, if_neg hc, if_neg hfull, ih fun hm => h (List.mem_cons_of_mem c hm)]
    · rw [List.append_assoc, List.singleton_append]
    · rwa [List.append_assoc, List.singleton_append]

theorem getLines_long (h : '\n' ∉ l) (hcur : cur.length ≤ lim) (hlen : lim < (cur ++ l).length)
    (rest : List Char) : getLines lim cur (l ++ rest) = [(cur ++ l).take lim] := by
  induction l generalizing cur with
  | nil =>
    rw [List.append_nil] at hlen
    omega
  | cons c l ih =>
    have hc : c ≠ '\n' := fun he => h (he ▸ List.mem_cons_self)
    rw [List.cons_append, getLines, if_neg hc]
    by_cases hfull : cur.length = lim
    · rw [if_pos hfull, ← hfull, List.take_left]
    · rw [if_neg hfull, ih fun hm => h (List.mem_cons_of_mem c hm)]
      · rw [List.append_assoc, List.singleton_append]
      · rw [List.length_append, List.length_singleton]
        omega
      · rwa [List.append_assoc, List.singleton_append]

theorem newline_not_mem_getLines (hcur : '\n' ∉ cur) (h : b ∈ getLines lim cur l) : '\n' ∉ b := by
  induction l generalizing cur with
  | nil =>
    rw [getLines, List.mem_singleton] at h
    rwa [h]
  | cons c l ih =>
    rw [getLines] at h
    split at h
    · rcases List.mem_cons.mp h with rfl | h
      · exact hcur
      · exact ih List.not_mem_nil h
    · split at h
      · rw [List.mem_singleton] at h
        rwa [h]
      · apply ih _ h
        rw [List.mem_append, List.mem_singleton, not_or]
        exact ⟨hcur, fun he => ‹¬c = '\n'› he.symm⟩

def unlines (ls : List (List Char)) : List Char := ls.flatMap fun l => l ++ ['\n']

theorem unlines_cons (l : List Char) (ls : List (List Char)) :
    unlines (l :: ls) = l ++ '\n' :: unlines ls := by
  rw [unlines, List.flatMap_cons, List.append_assoc, List.singleton_append]
  rfl

theorem getLines_unlines {ls : List (List Char)} (h : ∀ l ∈ ls, '\n' ∉ l ∧ l.length ≤ lim)
    (rest : List Char) : getLines lim [] (unlines ls ++ rest) = ls ++ getLines lim [] rest := by
  induction ls with
  | nil => rfl
  | cons l ls ih =>
    obtain ⟨hnl, hlen⟩ := h l List.mem_cons_self
    rw [unlines_cons, List.append_assoc, List.cons_append, getLines_append hnl hlen, List.nil_append,
      ih fun m hm => h m (List.mem_cons_of_mem l hm), List.cons_append]

end Lines

/-! ## Numbers -/

theorem isDigit_of_mem_decimal {n : Nat} {c : Char} (h : c ∈ decimal n) : c.isDigit = true :=
  Nat.isDigit_of_mem_toDigits (by decide) (by decide) h

theorem digitsVal_decimal (n : Nat) : digitsVal (decimal n) = n := by
  have hall : (decimal n).takeWhile Char.isDigit = decimal n :=
    List.takeWhile_eq_self_iff.mpr fun c hc => isDigit_of_mem_decimal hc
  rw [digitsVal, hall, decimal, Nat.ofDigitChars_ten_toDigits]

theorem length_decimal_le {n k : Nat} (hk : 0 < k) (h : n < 10 ^ k) : (decimal n).length ≤ k :=
  (Nat.length_toDigits_le_iff (by decide) hk).mpr h

theorem strtol_decimal {n : Nat} (h : n < 2 ^ 63) : strtol (decimal n) = n := by
  have hhead : ∀ c ∈ (decimal n).head?, c.isDigit = true :=
    fun c hc => isDigit_of_mem_decimal (List.mem_of_mem_head? hc)
  have hspace : (decimal n).dropWhile isSpace = decimal n := by
    cases hd : decimal n with
    | nil => rfl
    | cons c l =>
      have hc := hhead c (by rw [hd]; rfl)
      rw [Char.isDigit_iff_toNat] at hc
      apply List.dropWhile_cons_of_neg
      have hlo : 48 ≤ c.toNat := hc.1
      simp only [isSpace, Bool.or_eq_true, beq_iff_eq, Bool.and_eq_true, decide_eq_true_eq]
      omega
  have hsign : ∀ c : Char, c.isDigit = false → ¬(decimal n).head? = some c := by
    intro c hc hd
    rw [hhead c hd] at hc
    cases hc
  rw [strtol, hspace, if_neg (hsign '-' rfl), if_neg (hsign '+' rfl), digitsVal_decimal]
  omega

end RhmStore
