import PatternQuery.Text.Segment

/-!
# Texts cut at dots

A text is cut where its parts were put together with dots, as long as the parts hold none
(`Text.append_dot_inj`). Cutting cannot tell the end of a text from a dot at its end
(`Text.cutAtDot_eq_nil_iff`): in both cases nothing stands behind the first segment.
-/

namespace PatternQuery.Text

variable {s t a b : List Char}

/-- Where something follows the head, there is a dot between them. -/
theorem eq_append_of_cutAtDot (h : (cutAtDot s).2 ≠ []) :
    s = (cutAtDot s).1 ++ '.' :: (cutAtDot s).2 := by
  induction s with
  | nil => exact absurd rfl h
  | cons c rest ih =>
    by_cases hc : c = '.'
    · simp [cutAtDot, hc]
    · rw [cutAtDot, if_neg hc] at h ⊢
      rw [List.cons_append, ← ih h]

theorem ne_nil_of_cutAtDot (h : (cutAtDot s).2 ≠ []) : s ≠ [] := by
  rintro rfl
  exact h rfl

/-- A text has a segment for its head iff it is this segment, or goes on with a dot behind it. -/
theorem cutAtDot_fst_eq_iff (hs : '.' ∉ s) : (cutAtDot t).1 = s ↔ t = s ∨ s ++ ['.'] <+: t := by
  constructor
  · rintro rfl
    induction t with
    | nil => exact .inl rfl
    | cons c rest ih =>
      by_cases hc : c = '.'
      · rw [cutAtDot, if_pos hc, hc]
        exact .inr ⟨rest, rfl⟩
      · rw [cutAtDot, if_neg hc]
        obtain heq | hprefix := ih (dot_not_mem_cutAtDot_fst rest)
        · exact .inl (congrArg (List.cons c) heq)
        · exact .inr (List.cons_prefix_cons.mpr ⟨rfl, hprefix⟩)
  · rintro (rfl | ⟨rest, rfl⟩)
    · rw [cutAtDot_of_not_mem hs]
    · rw [List.append_assoc]
      exact congrArg Prod.fst (cutAtDot_append_dot hs rest)

/-- What stands before the first dot and what stands behind it are given by the whole. -/
theorem append_dot_inj (hs : '.' ∉ s) (ht : '.' ∉ t) :
    s ++ '.' :: a = t ++ '.' :: b ↔ s = t ∧ a = b := by
  constructor
  · intro h
    have hcut := congrArg cutAtDot h
    rw [cutAtDot_append_dot hs, cutAtDot_append_dot ht] at hcut
    exact Prod.mk.inj hcut
  · rintro ⟨rfl, rfl⟩
    rfl

/-- Nothing stands behind the first segment iff the text ends with it, or with one dot behind it. -/
theorem cutAtDot_eq_nil_iff (hs : '.' ∉ s) : cutAtDot t = (s, []) ↔ t = s ∨ t = s ++ ['.'] := by
  constructor
  · intro h
    have hhead : (cutAtDot t).1 = s := congrArg Prod.fst h
    rcases (cutAtDot_fst_eq_iff hs).mp hhead with heq | ⟨rest, rfl⟩
    · exact .inl heq
    · rw [List.append_assoc, List.singleton_append, cutAtDot_append_dot hs] at h
      obtain rfl : rest = [] := congrArg Prod.snd h
      exact .inr (List.append_nil _)
  · rintro (rfl | rfl)
    · exact cutAtDot_of_not_mem hs
    · exact cutAtDot_append_dot hs []

end PatternQuery.Text
