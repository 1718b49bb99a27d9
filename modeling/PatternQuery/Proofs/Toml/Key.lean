import Mathlib.Data.List.Basic
import PatternQuery.Proofs.Toml.Quoted

/-!
# Keys are read back

A key is read back in whatever form it is written (`readKeyPart_key`), and so are the keys of entries and
headers.
-/

namespace PatternQuery.Toml

variable {c : Char} {s rest : List Char} {name : String} {fuel : Nat}

theorem ne_of_isBareKeyChar {d : Char} (hc : isBareKeyChar c = true) (hd : isBareKeyChar d = false) :
    c ≠ d := by
  rintro rfl
  exact absurd hc (by simp [hd])

/-- A key without quotes is read up to a character that is not part of it. -/
theorem readKeyPart_bare {d : Char} (hne : s ≠ []) (hs : ∀ c ∈ s, isBareKeyChar c = true)
    (hd : isBareKeyChar d = false) :
    readKeyPart (s ++ d :: rest) = some (String.ofList s, d :: rest) := by
  have htake : (s ++ d :: rest).takeWhile isBareKeyChar = s := by
    rw [List.takeWhile_append_of_pos hs, List.takeWhile_cons_of_neg (by simp [hd]), List.append_nil]
  obtain ⟨c, s, rfl⟩ := List.exists_cons_of_ne_nil hne
  have hc : isBareKeyChar c = true := hs c List.mem_cons_self
  rw [readKeyPart.eq_3, htake, List.drop_left']
  · rfl
  · rfl
  · exact fun _ heq => ne_of_isBareKeyChar hc (by decide) (List.cons.inj heq).1
  · exact fun _ heq => ne_of_isBareKeyChar hc (by decide) (List.cons.inj heq).1

/-- The form of a key: without quotes, or on one line between quotes. -/
theorem key_cases (name : String) :
    (key name = name ∧ name.toList ≠ [] ∧ ∀ c ∈ name.toList, isBareKeyChar c = true) ∨
    key name = Quoting.basic.write name.toList ∨
    (key name = Quoting.literal.write name.toList ∧ fitsPlainly name.toList .literal = true) := by
  unfold key
  dsimp only
  split_ifs with hbare
  · simp only [Bool.and_eq_true, Bool.not_eq_true', List.isEmpty_eq_false_iff,
      List.all_eq_true] at hbare
    exact .inl ⟨rfl, hbare⟩
  · refine .inr ?_
    split
    · next q hq =>
      have hfits := List.find?_some hq
      have hmem := List.mem_of_find?_eq_some hq
      rcases List.mem_cons.mp hmem with rfl | hmem
      · exact .inl rfl
      · obtain rfl := List.mem_singleton.mp hmem
        exact .inr ⟨rfl, hfits⟩
    · exact .inl rfl

/-- **A key is read back,** up to a character that is not part of it. -/
theorem readKeyPart_key (name : String) {d : Char} (hd : isBareKeyChar d = false)
    (rest : List Char) : readKeyPart ((key name).toList ++ d :: rest) = some (name, d :: rest) := by
  have hread : readKeyPart ((key name).toList ++ d :: rest) =
      some (String.ofList name.toList, d :: rest) := by
    rcases key_cases name with ⟨hkey, hne, hs⟩ | hkey | ⟨hkey, hfits⟩ <;> rw [hkey]
    · exact readKeyPart_bare hne hs hd
    · rw [write_basic_append, readKeyPart.eq_1, readBasic_length]
    · rw [write_literal_append, readKeyPart.eq_2, readLiteral_append hfits, List.reverse_nil,
        List.nil_append]
  rwa [String.ofList_toList] at hread

/-! ### Where a key starts -/

theorem exists_cons_key (name : String) : ∃ c t, (key name).toList = c :: t ∧
    (isBareKeyChar c = true ∨ c = '"' ∨ c = '\x27') := by
  rcases key_cases name with ⟨hkey, hne, hs⟩ | hkey | ⟨hkey, -⟩ <;> rw [hkey]
  · obtain ⟨c, t, ht⟩ := List.exists_cons_of_ne_nil hne
    exact ⟨c, t, ht, .inl (hs c (ht ▸ List.mem_cons_self))⟩
  · rw [toList_write]
    exact ⟨_, _, rfl, .inr (.inl rfl)⟩
  · rw [toList_write]
    exact ⟨_, _, rfl, .inr (.inr rfl)⟩

/-- A key starts with no character that stands for something else at the start of a line. -/
theorem ne_of_key {t : List Char} {d : Char} (h : (key name).toList = c :: t)
    (hd : isBareKeyChar d = false) (hquote : d ≠ '"') (hquote' : d ≠ '\x27') : c ≠ d := by
  obtain ⟨c', t', ht, hc⟩ := exists_cons_key name
  obtain ⟨rfl, -⟩ := List.cons.inj (h.symm.trans ht)
  rcases hc with hc | rfl | rfl
  · exact ne_of_isBareKeyChar hc hd
  · exact hquote.symm
  · exact hquote'.symm

/-- No blank stands in front of a key. -/
theorem skipSpaces_key (name : String) (rest : List Char) :
    skipSpaces ((key name).toList ++ rest) = (key name).toList ++ rest := by
  obtain ⟨c, t, ht, -⟩ := exists_cons_key name
  rw [ht]
  refine List.dropWhile_cons_of_neg fun hspace => ?_
  rcases (Bool.or_eq_true _ _).mp hspace with hspace | hspace
  · exact ne_of_key ht (by decide) (by decide) (by decide) (eq_of_beq hspace)
  · exact ne_of_key ht (by decide) (by decide) (by decide) (eq_of_beq hspace)

/-! ### Keys with one part and with two -/

/-- The last part of a key, with the blanks behind it. -/
theorem readKeyParts_last {d e : Char} {rest' : List Char} (hd : isBareKeyChar d = false)
    (hskip : skipSpaces (d :: rest) = e :: rest') (he : e ≠ '.') :
    readKeyParts (fuel + 1) ((key name).toList ++ d :: rest) = some ([name], e :: rest') := by
  rw [readKeyParts, skipSpaces_key, readKeyPart_key name hd]
  simp only [Option.bind_eq_bind, Option.bind_some, hskip]
  split
  · next heq => exact absurd (List.cons.inj heq).1 he
  · next heq => rfl

/-- A part of a key with another one behind it. -/
theorem readKeyParts_dot : readKeyParts (fuel + 1) ((key name).toList ++ '.' :: rest) =
    (readKeyParts fuel rest).map fun (parts, rest) => (name :: parts, rest) := by
  rw [readKeyParts, skipSpaces_key, readKeyPart_key name (by decide)]
  change (readKeyParts fuel rest >>= fun entry => some (name :: entry.1, entry.2)) = _
  exact (Option.map_eq_bind ..).symm

/-- **The key of an entry is read back.** -/
theorem readKey_entry (name : String) (rest : List Char) :
    readKey ((key name).toList ++ ' ' :: '=' :: rest) = some ([name], '=' :: rest) := by
  rw [readKey, readKeyParts_last (by decide) rfl (by decide)]
  rfl

/-- **The key of a header is read back.** -/
theorem readKey_header (name : String) (rest : List Char) :
    readKey ((key name).toList ++ ']' :: rest) = some ([name], ']' :: rest) := by
  rw [readKey, readKeyParts_last (by decide) rfl (by decide)]
  rfl

/-- And so is one with two parts. -/
theorem readKey_header_dot (outer name : String) (rest : List Char) :
    readKey ((key outer).toList ++ '.' :: ((key name).toList ++ ']' :: rest)) =
      some ([outer, name], ']' :: rest) := by
  obtain ⟨fuel, hfuel⟩ : ∃ fuel,
      ((key outer).toList ++ '.' :: ((key name).toList ++ ']' :: rest)).length = fuel + 1 :=
    ⟨_, by rw [List.length_append, List.length_cons]; rfl⟩
  rw [readKey, hfuel, readKeyParts_dot, readKeyParts_last (by decide) rfl (by decide)]
  rfl

end PatternQuery.Toml
