import Mathlib.Data.String.Basic

/-!
# The order of texts is the order of their bytes

Texts are compared character by character, and a text is written down in UTF-8. There a greater character
has greater bytes, and the bytes of no character begin with those of another, so comparing the bytes comes
to the same (`Text.lt_iff_bytes_lt`).
-/

namespace PatternQuery.Text

/-- **The bytes of a text.** -/
def bytes (s : String) : List UInt8 := s.toUTF8.data.toList

/-- The bytes of a text are those of its characters. -/
theorem bytes_eq_flatMap (s : String) : bytes s = s.toList.flatMap String.utf8EncodeChar := by
  have hs : s.toUTF8 = s.toList.utf8Encode := by
    rw [String.toUTF8_eq_toByteArray, ← String.toByteArray_ofList, String.ofList_toList]
  rw [bytes, hs, List.utf8Encode, List.data_toByteArray]

/-! ### One character -/

/-- A greater character has greater bytes. -/
theorem utf8EncodeChar_lt {c d : Char} (h : c < d) :
    String.utf8EncodeChar c < String.utf8EncodeChar d := by
  have hlt : c.val.toNat < d.val.toNat := h
  have hd : d.val.toNat < 0x110000 := by
    obtain hd | ⟨-, hd⟩ := d.valid <;> omega
  -- The digits of a number to the base 64 are taken off one by one.
  have hdigit (n : Nat) : n / 4096 = n / 64 / 64 ∧ n / 262144 = n / 64 / 64 / 64 := by omega
  unfold String.utf8EncodeChar
  simp only [hdigit]
  split_ifs <;>
    simp only [List.cons_lt_cons_iff, UInt8.lt_iff_toNat_lt, ← UInt8.toNat_inj, UInt8.toNat_ofNat',
      List.not_lt_nil] <;>
    omega

/-- The bytes of no character begin with those of another. -/
theorem eq_of_utf8EncodeChar_begins {c d : Char}
    (h : String.utf8EncodeChar c <+: String.utf8EncodeChar d) : c = d := by
  obtain ⟨rest, hrest⟩ := h
  have hbegins : [c] <+: [d] := by
    refine List.isPrefix_of_utf8Encode_append_eq_utf8Encode rest.toByteArray ?_
    rw [List.utf8Encode_singleton, List.utf8Encode_singleton, ← hrest, List.toByteArray_append]
  simpa using hbegins

/-! ### Texts -/

/-- Where the lesser list is no beginning of the greater, what follows does not matter. -/
theorem append_lt_append {l m : List UInt8} (h : l < m) (hbegins : ¬ l <+: m) (s t : List UInt8) :
    l ++ s < m ++ t := by
  induction l generalizing m with
  | nil => exact absurd List.nil_prefix hbegins
  | cons a l ih =>
    cases m with
    | nil => exact absurd h (List.not_lt_nil _)
    | cons b m =>
      rw [List.cons_append, List.cons_append, List.cons_lt_cons_iff]
      obtain hab | ⟨rfl, hlm⟩ := List.cons_lt_cons_iff.mp h
      · exact .inl hab
      · refine .inr ⟨rfl, ih hlm fun hlm' => hbegins ?_⟩
        exact List.cons_prefix_cons.mpr ⟨rfl, hlm'⟩

theorem flatMap_utf8EncodeChar_lt {l m : List Char} (h : l < m) :
    l.flatMap String.utf8EncodeChar < m.flatMap String.utf8EncodeChar := by
  induction l generalizing m with
  | nil =>
    cases m with
    | nil => exact absurd h (List.not_lt_nil _)
    | cons d m =>
      rw [List.flatMap_nil, List.flatMap_cons]
      obtain ⟨b, rest, hb⟩ := List.exists_cons_of_ne_nil (String.utf8EncodeChar_ne_nil (c := d))
      rw [hb]
      exact List.nil_lt_cons _ _
  | cons c l ih =>
    cases m with
    | nil => exact absurd h (List.not_lt_nil _)
    | cons d m =>
      rw [List.flatMap_cons, List.flatMap_cons]
      obtain hcd | ⟨rfl, hlm⟩ := List.cons_lt_cons_iff.mp h
      · exact append_lt_append (utf8EncodeChar_lt hcd)
          (fun hbegins => hcd.ne (eq_of_utf8EncodeChar_begins hbegins)) _ _
      · exact List.append_left_lt (ih hlm)

/-- **Texts are in the order of their bytes.** -/
theorem lt_iff_bytes_lt {s t : String} : s < t ↔ bytes s < bytes t := by
  rw [bytes_eq_flatMap, bytes_eq_flatMap]
  constructor
  · exact flatMap_utf8EncodeChar_lt
  · intro h
    obtain hlt | heq | hgt := lt_trichotomy s t
    · exact hlt
    · rw [heq] at h
      exact absurd h (List.lt_irrefl _)
    · exact absurd h (List.lt_asymm (flatMap_utf8EncodeChar_lt hgt))

end PatternQuery.Text
