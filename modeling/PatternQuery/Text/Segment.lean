/-!
# Segments and substrings

Two small readings of a text as a list of characters: cutting it at its first dot, and asking
whether it contains another text.
-/

namespace PatternQuery.Text

/-- Cuts a text at its first dot: what stands before it, and what stands after it. A text without a
dot is all head, with nothing after it. -/
def cutAtDot : List Char → List Char × List Char
  | [] => ([], [])
  | c :: rest =>
    if c = '.' then ([], rest)
    else ((c :: (cutAtDot rest).1), (cutAtDot rest).2)

/-- The head holds no dot. -/
theorem dot_not_mem_cutAtDot_fst (s : List Char) : '.' ∉ (cutAtDot s).1 := by
  induction s with
  | nil => simp [cutAtDot]
  | cons c rest ih =>
    by_cases h : c = '.'
    · simp [cutAtDot, h]
    · simp only [cutAtDot, h, if_false, List.mem_cons, not_or]
      exact ⟨fun e => h e.symm, ih⟩

/-- Head and tail do not exceed the text. -/
theorem length_cutAtDot_le (s : List Char) :
    (cutAtDot s).1.length + (cutAtDot s).2.length ≤ s.length := by
  induction s with
  | nil => simp [cutAtDot]
  | cons c rest ih =>
    by_cases h : c = '.'
    · simp [cutAtDot, h]
    · simp only [cutAtDot, h, if_false, List.length_cons]
      omega

/-- What follows the head is no longer than the text. -/
theorem length_cutAtDot_snd_le (s : List Char) : (cutAtDot s).2.length ≤ s.length := by
  have := length_cutAtDot_le s
  omega

/-- A dotted text is cut where its head ends. -/
theorem cutAtDot_append_dot {s : List Char} (h : '.' ∉ s) (t : List Char) :
    cutAtDot (s ++ '.' :: t) = (s, t) := by
  induction s with
  | nil => simp [cutAtDot]
  | cons c rest ih =>
    simp only [List.mem_cons, not_or] at h
    simp [cutAtDot, Ne.symm h.1, ih h.2]

/-- A text without a dot is all head. -/
theorem cutAtDot_of_not_mem {s : List Char} (h : '.' ∉ s) : cutAtDot s = (s, []) := by
  induction s with
  | nil => simp [cutAtDot]
  | cons c rest ih =>
    simp only [List.mem_cons, not_or] at h
    simp [cutAtDot, Ne.symm h.1, ih h.2]

/-- Whether `part` stands somewhere inside a text. The empty text stands in every text. -/
def contains (part : List Char) : List Char → Bool
  | [] => part.isEmpty
  | c :: rest => part.isPrefixOf (c :: rest) || contains part rest

/-- Containment is the infix relation of lists. -/
theorem contains_iff {part s : List Char} : contains part s = true ↔ part <:+: s := by
  induction s with
  | nil => simp [contains]
  | cons c rest ih =>
    simp only [contains, Bool.or_eq_true, List.isPrefixOf_iff_prefix, ih, List.infix_cons_iff]

end PatternQuery.Text
