import Mathlib.Data.List.Basic
import PatternQuery.Proofs.Text.Numeral
import PatternQuery.Proofs.Toml.Quoted
import PatternQuery.Toml.Reader

/-!
# Values are read back

The values that are written at the end of a line: truth values, whole numbers and strings
(`ReadsAs.readValue_eq`).
-/

namespace PatternQuery.Toml

variable {c : Char} {s word rest : List Char} {n fuel depth : Nat} {v : Toml}

/-! ### Numbers -/

/-- The shortest numeral of a number that is not zero starts with no zero. -/
theorem head?_toDigits_ne_zero (h : n ≠ 0) : (Nat.toDigits 10 n).head? ≠ some '0' := by
  induction n using Nat.strong_induction_on with
  | h n ih =>
    by_cases hlt : n < 10
    · have hdigit : ∀ d : Fin 10, d.1 ≠ 0 → Nat.digitChar d.1 ≠ '0' := by decide
      rw [Nat.toDigits_of_lt_base hlt, List.head?_cons]
      exact fun heq => hdigit ⟨n, hlt⟩ h (Option.some.inj heq)
    · have hne : Nat.toDigits 10 (n / 10) ≠ [] := Nat.toDigits_ne_nil
      rw [Nat.toDigits_of_base_le (by decide) (by omega), List.head?_append_of_ne_nil _ hne]
      exact ih (n / 10) (by omega) (by omega)

/-- Digits with nothing between them are their own digits. -/
theorem digitGroups_eq_self (hne : s ≠ []) (hs : ∀ c ∈ s, c.isDigit = true) :
    digitGroups Char.isDigit s = some s := by
  induction s with
  | nil => exact absurd rfl hne
  | cons c s ih =>
    have hc := hs c List.mem_cons_self
    cases s with
    | nil => rw [digitGroups, if_pos hc]
    | cons d s =>
      have hd := hs d (List.mem_cons_of_mem _ List.mem_cons_self)
      rw [digitGroups.eq_4, if_pos hc, ih (by simp) fun e he => hs e (List.mem_cons_of_mem _ he)]
      · rfl
      · rintro _ _ rfl _
        exact absurd hd (by decide)

theorem ne_of_isDigit {d : Char} (hc : c.isDigit = true) (hd : d.isDigit = false) : c ≠ d := by
  rintro rfl
  exact absurd hc (by simp [hd])

/-- **A number is read back,** if it fits. -/
theorem readInt_toDigits (h : n < 0x8000000000000000) :
    readInt (Nat.toDigits 10 n) = some (int n) := by
  have hs : ∀ c ∈ Nat.toDigits 10 n, c.isDigit = true := fun c hc =>
    Nat.isDigit_of_mem_toDigits (by decide) (by decide) hc
  have hnot (front : List Char) (d : Char) (hd : d.isDigit = false) (digits : List Char) :
      Nat.toDigits 10 n ≠ front ++ d :: digits := by
    intro heq
    rw [heq] at hs
    exact ne_of_isDigit (hs d (by simp)) hd rfl
  have hwhole : wholeDigits (Nat.toDigits 10 n) = some (Nat.toDigits 10 n) := by
    rw [wholeDigits, digitGroups_eq_self Nat.toDigits_ne_nil hs]
    by_cases hzero : n = 0
    · rw [hzero]
      rfl
    · simp [head?_toDigits_ne_zero hzero]
  rw [readInt.eq_4 _ (hnot ['0'] 'x' (by decide)) (hnot ['0'] 'o' (by decide))
    (hnot ['0'] 'b' (by decide)), splitSign.eq_3 _ (hnot [] '-' (by decide)) (hnot [] '+' (by decide))]
  dsimp only
  rw [hwhole]
  simp [wholeNumber?, Text.natOfDigits_toDigits, h]

/-! ### Words -/

theorem readWord_append (hw : ∀ c ∈ word, isWordChar c = true) :
    readWord (word ++ '\n' :: rest) = (word, '\n' :: rest) := by
  have htake : (word ++ '\n' :: rest).takeWhile isWordChar = word := by
    rw [List.takeWhile_append_of_pos hw, List.takeWhile_cons_of_neg (by decide), List.append_nil]
  rw [readWord, htake]
  dsimp only
  rw [List.drop_left' rfl]
  rfl

/-- **A text at the end of a line that is read as a value.** No blank stands in front of it. -/
structure ReadsAs (text : List Char) (v : Toml) : Prop where
  readValue_eq : ∀ depth fuel rest,
    readValue depth (fuel + 1) (text ++ '\n' :: rest) = some (v, '\n' :: rest)
  skipSpaces_eq : ∀ rest, skipSpaces (text ++ '\n' :: rest) = text ++ '\n' :: rest

theorem readValue_eq_match (hc : c ≠ '[') (hc' : c ≠ '\x7b') :
    readValue depth (fuel + 1) (c :: rest) =
      match readQuoted (c :: rest) with
      | some (text, rest) => some (str text, rest)
      | none => readScalar (c :: rest) := by
  have harr : ∀ t, c :: rest = '[' :: t → False := fun _ h => hc (List.cons.inj h).1
  have htable : ∀ t, c :: rest = '\x7b' :: t → False := fun _ h => hc' (List.cons.inj h).1
  exact readValue.eq_6 depth (c :: rest) fuel harr htable

theorem ne_of_isWordChar {d : Char} (hc : isWordChar c = true) (hd : isWordChar d = false) :
    c ≠ d := by
  rintro rfl
  exact absurd hc (by simp [hd])

theorem readsAs_word (hne : word ≠ []) (hw : ∀ c ∈ word, isWordChar c = true)
    (hv : ∀ rest, readScalar (word ++ '\n' :: rest) = some (v, '\n' :: rest)) : ReadsAs word v := by
  obtain ⟨c, t, rfl⟩ := List.exists_cons_of_ne_nil hne
  have hc : isWordChar c = true := hw c List.mem_cons_self
  have hnot {d : Char} (hd : isWordChar d = false) {l l' : List Char} : c :: l ≠ d :: l' :=
    fun heq => ne_of_isWordChar hc hd (List.cons.inj heq).1
  constructor
  · intro depth fuel rest
    have hquoted : readQuoted (c :: t ++ '\n' :: rest) = none := readQuoted.eq_5 _
      (fun _ => hnot (by decide)) (fun _ => hnot (by decide)) (fun _ => hnot (by decide))
      (fun _ => hnot (by decide))
    rw [List.cons_append, readValue_eq_match (ne_of_isWordChar hc (by decide))
      (ne_of_isWordChar hc (by decide)), ← List.cons_append, hquoted]
    exact hv rest
  · intro rest
    refine List.dropWhile_cons_of_neg fun hspace => ?_
    rcases (Bool.or_eq_true _ _).mp hspace with hspace | hspace
    · exact ne_of_isWordChar hc (by decide) (eq_of_beq hspace)
    · exact ne_of_isWordChar hc (by decide) (eq_of_beq hspace)

/-! ### The values that are written -/

theorem readsAs_true : ReadsAs "true".toList (bool true) := by
  have hw : ∀ c ∈ "true".toList, isWordChar c = true := List.all_eq_true.mp (by decide)
  refine readsAs_word (by decide) hw fun rest => ?_
  rw [readScalar, readWord_append hw]
  rfl

theorem readsAs_false : ReadsAs "false".toList (bool false) := by
  have hw : ∀ c ∈ "false".toList, isWordChar c = true := List.all_eq_true.mp (by decide)
  refine readsAs_word (by decide) hw fun rest => ?_
  rw [readScalar, readWord_append hw]
  rfl

theorem readsAs_nat (h : n < 0x8000000000000000) : ReadsAs (toString n).toList (int n) := by
  have htext : (toString n).toList = Nat.toDigits 10 n := Text.toList_toString n
  have hs : ∀ c ∈ Nat.toDigits 10 n, c.isDigit = true := fun c hc =>
    Nat.isDigit_of_mem_toDigits (by decide) (by decide) hc
  have hw : ∀ c ∈ Nat.toDigits 10 n, isWordChar c = true := fun c hc => by
    simp [isWordChar, Char.isAlphanum, hs c hc]
  rw [htext]
  refine readsAs_word Nat.toDigits_ne_nil hw fun rest => ?_
  -- A word that starts with a letter is no numeral.
  have hletter (d : Char) (t : List Char) (hd : d.isDigit = false) :
      (Nat.toDigits 10 n == d :: t) = false := by
    refine beq_false_of_ne fun heq => ?_
    rw [heq] at hs
    exact ne_of_isDigit (hs d List.mem_cons_self) hd rfl
  have htrue : (Nat.toDigits 10 n == "true".toList) = false := hletter 't' _ (by decide)
  have hfalse : (Nat.toDigits 10 n == "false".toList) = false := hletter 'f' _ (by decide)
  rw [readScalar, readWord_append hw]
  dsimp only
  rw [htrue, hfalse, if_neg Bool.false_ne_true, if_neg Bool.false_ne_true, readInt_toDigits h]
  rfl

theorem readsAs_quoted (text : String) : ReadsAs (quoted text).toList (str text) := by
  obtain ⟨c, t, ht, hc⟩ : ∃ c t, (quoted text).toList = c :: t ∧ (c = '"' ∨ c = '\x27') := by
    rw [quoted, toList_write]
    cases quoting text.toList with
    | basic => exact ⟨_, _, rfl, .inl rfl⟩
    | literal => exact ⟨_, _, rfl, .inr rfl⟩
    | multiBasic => exact ⟨_, _, rfl, .inl rfl⟩
    | multiLiteral => exact ⟨_, _, rfl, .inr rfl⟩
  have hread (rest : List Char) := readQuoted_quoted text rest
  rw [ht] at hread ⊢
  constructor
  · intro depth fuel rest
    rw [List.cons_append, readValue_eq_match, ← List.cons_append, hread]
    · rcases hc with rfl | rfl <;> decide
    · rcases hc with rfl | rfl <;> decide
  · intro rest
    rcases hc with rfl | rfl <;> rfl

end PatternQuery.Toml
