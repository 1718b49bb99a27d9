import Mathlib.Data.List.Induction
import PatternQuery.Text.Digits

/-!
# Numerals

A numeral is one or more decimal digits for a number below a limit. It is the shortest numeral of its
number with zeros in front (`Text.IsNumeral.exists_zeros`), and every such text is one
(`Text.isNumeral_numeral`).
-/

namespace PatternQuery.Text

variable {s : List Char} {limit n : Nat}

/-- **A numeral:** one or more digits, for a number below a limit. -/
structure IsNumeral (limit n : Nat) (s : List Char) : Prop where
  ne_nil : s ≠ []
  digits : ∀ c ∈ s, c.isDigit = true
  value : natOfDigits s = n
  lt : n < limit

theorem IsNumeral.dot_not_mem (h : IsNumeral limit n s) : '.' ∉ s := by
  intro hmem
  exact absurd (h.digits _ hmem) (by decide)

theorem natOfDigits_eq (s : List Char) : natOfDigits s = Nat.ofDigitChars 10 s 0 := by
  rw [natOfDigits, Nat.ofDigitChars_eq_foldl]
  simp only [Nat.mul_comm]

theorem natOfDigits_concat (s : List Char) (c : Char) :
    natOfDigits (s ++ [c]) = 10 * natOfDigits s + (c.toNat - '0'.toNat) := by
  rw [natOfDigits_eq, natOfDigits_eq, Nat.ofDigitChars_append, Nat.ofDigitChars_cons,
    Nat.ofDigitChars_nil]

theorem natOfDigits_toDigits (n : Nat) : natOfDigits (Nat.toDigits 10 n) = n := by
  rw [natOfDigits_eq, Nat.ofDigitChars_ten_toDigits]

theorem natOfDigits_zeros_append (zeros : Nat) (s : List Char) :
    natOfDigits (List.replicate zeros '0' ++ s) = natOfDigits s := by
  rw [natOfDigits_eq, natOfDigits_eq, Nat.ofDigitChars_append, Nat.ofDigitChars_replicate_zero,
    Nat.mul_zero]

/-- The shortest numeral of a number with zeros in front. -/
def numeral (zeros n : Nat) : List Char := List.replicate zeros '0' ++ Nat.toDigits 10 n

theorem isNumeral_numeral (zeros : Nat) (h : n < limit) : IsNumeral limit n (numeral zeros n) where
  ne_nil := List.append_ne_nil_of_right_ne_nil _ Nat.toDigits_ne_nil
  digits c hc := by
    rcases List.mem_append.mp hc with hc | hc
    · rw [List.eq_of_mem_replicate hc]
      rfl
    · exact Nat.isDigit_of_mem_toDigits (by decide) (by decide) hc
  value := by rw [numeral, natOfDigits_zeros_append, natOfDigits_toDigits]
  lt := h

theorem exists_digitChar {c : Char} (h : c.isDigit = true) :
    ∃ d < 10, c = Nat.digitChar d ∧ c.toNat - '0'.toNat = d := by
  obtain ⟨hlow, hhigh⟩ := Char.isDigit_iff_toNat.mp h
  have h0 : '0'.toNat = 48 := rfl
  have h9 : '9'.toNat = 57 := rfl
  refine ⟨c.toNat - '0'.toNat, by omega, ?_, rfl⟩
  have hdigit := Nat.toNat_digitChar_of_lt_ten (n := c.toNat - '0'.toNat) (by omega)
  exact Char.toNat_inj.mp (by omega)

/-- Digits are the shortest numeral of what they stand for, with zeros in front. -/
theorem exists_zeros_of_digits (hne : s ≠ []) (hdigits : ∀ c ∈ s, c.isDigit = true) :
    ∃ zeros, s = numeral zeros (natOfDigits s) := by
  induction s using List.reverseRecOn with
  | nil => exact absurd rfl hne
  | append_singleton t c ih =>
    obtain ⟨d, hd, rfl, hvalue⟩ := exists_digitChar (hdigits c (by simp))
    have hlast : Nat.toDigits 10 d = [d.digitChar] := Nat.toDigits_of_lt_base hd
    rw [natOfDigits_concat, hvalue]
    by_cases ht : t = []
    · refine ⟨0, ?_⟩
      rw [ht, numeral, natOfDigits, List.foldl_nil, Nat.mul_zero, Nat.zero_add, hlast]
      rfl
    obtain ⟨zeros, hzeros⟩ := ih ht fun c' hc' => hdigits c' (List.mem_append_left _ hc')
    by_cases hm : natOfDigits t = 0
    · -- What stands before is zeros only, and the last of them is no digit of its own any more.
      refine ⟨zeros + 1, ?_⟩
      rw [hm, numeral, Nat.toDigits_zero] at hzeros
      rw [hm, numeral, Nat.mul_zero, Nat.zero_add, hlast, List.replicate_succ', ← hzeros]
    · refine ⟨zeros, ?_⟩
      have hdiv : (10 * natOfDigits t + d) / 10 = natOfDigits t := by omega
      have hmod : (10 * natOfDigits t + d) % 10 = d := by omega
      have hsplit := Nat.toDigits_of_base_le (b := 10) (n := 10 * natOfDigits t + d)
        (by decide) (by omega)
      rw [hdiv, hmod] at hsplit
      rw [numeral, hsplit, ← List.append_assoc]
      exact congrArg (· ++ [d.digitChar]) hzeros

theorem IsNumeral.exists_zeros (h : IsNumeral limit n s) : ∃ zeros, s = numeral zeros n := by
  obtain ⟨zeros, hs⟩ := exists_zeros_of_digits h.ne_nil h.digits
  rw [h.value] at hs
  exact ⟨zeros, hs⟩

/-- A number is written with its shortest numeral. -/
theorem toList_toString (n : Nat) : (toString n).toList = numeral 0 n := by
  show (String.ofList (Nat.toDigits 10 n)).toList = [] ++ Nat.toDigits 10 n
  rw [String.toList_ofList, List.nil_append]

end PatternQuery.Text
