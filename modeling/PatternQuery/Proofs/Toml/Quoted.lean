import Mathlib.Data.List.TakeWhile
import PatternQuery.Toml.Printer
import PatternQuery.Toml.Quoted

/-!
# Strings are read back

Whatever the form in which a string is written, it is read back (`readQuoted_quoted`). Between double
quotes a character is written in one of three ways, which `Spelling` lists; both readers take one
spelling in one step.

Between three quotes a reader has to tell the quotes that end the string from those that belong to it.
Up to two of those may stand right before the end, so what it does at a quote depends on whether nothing
but quotes is left (`closeMulti_of_all`, `closeMulti_eq_none`).
-/

namespace PatternQuery.Toml

variable {c q : Char} {s t rest read : List Char} {multi : Bool} {run fuel : Nat}

/-! ### Escapes -/

theorem hexValue_digit (n : Nat) :
    Text.hexValue (Nat.digitChar (n % 16)).toUpper = some (n % 16) := by
  have h : ∀ d : Fin 16, Text.hexValue (Nat.digitChar d).toUpper = some d.1 := by decide
  exact h ⟨n % 16, Nat.mod_lt _ (by decide)⟩

theorem toNat_lt_of_isControl (h : isControl c = true) : c.toNat < 128 := by
  unfold isControl at h
  simp only [Bool.or_eq_true, Bool.and_eq_true, decide_eq_true_eq, beq_iff_eq] at h
  omega

/-- What is written behind a backslash for a character. It does not start with a blank. -/
structure Escapes (c : Char) (e : List Char) : Prop where
  readEscape_eq : ∀ rest, readEscape (e ++ rest) = some (c, rest)
  afterLineBreak_eq : ∀ rest, afterLineBreak (skipSpaces (e ++ rest)) = none

theorem exists_controlEscape (h : isControl c = true ∨ c = '\t') :
    ∃ e, controlEscape c = '\\' :: e ∧ Escapes c e := by
  unfold controlEscape
  split_ifs with hb ht hn hf hr
  · exact ⟨_, rfl, by rw [hb]; exact ⟨fun _ => rfl, fun _ => rfl⟩⟩
  · exact ⟨_, rfl, by rw [ht]; exact ⟨fun _ => rfl, fun _ => rfl⟩⟩
  · exact ⟨_, rfl, by rw [hn]; exact ⟨fun _ => rfl, fun _ => rfl⟩⟩
  · exact ⟨_, rfl, by rw [hf]; exact ⟨fun _ => rfl, fun _ => rfl⟩⟩
  · exact ⟨_, rfl, by rw [hr]; exact ⟨fun _ => rfl, fun _ => rfl⟩⟩
  · refine ⟨_, rfl, fun rest => ?_, fun _ => rfl⟩
    -- Two hexadecimal digits are enough.
    have hlt : c.toNat < 128 := toNat_lt_of_isControl (h.resolve_right ht)
    have hvalue : c.toNat / 16 % 16 * 16 + c.toNat % 16 = c.toNat := by omega
    have hread : Text.readHex 0 4 ('0' :: '0' :: (Nat.digitChar (c.toNat / 16 % 16)).toUpper ::
        (Nat.digitChar (c.toNat % 16)).toUpper :: rest) = some (c.toNat, rest) := by
      have hzero : Text.hexValue '0' = some 0 := rfl
      simp only [Text.readHex, hzero, hexValue_digit, Option.bind_eq_bind, Option.bind_some,
        Nat.zero_mul, Nat.zero_add, hvalue]
    have hvalid : c.toNat.isValidChar := c.valid
    rw [List.cons_append, readEscape]
    simp only [List.cons_append, List.nil_append, hread, Option.bind_eq_bind, Option.bind_some,
      if_pos hvalid, Char.ofNat_toNat]

/-! ### One character between double quotes -/

/-- **How a character is written between double quotes,** where `run` double quotes have just been
written, and how many there are behind it. -/
inductive Spelling (multi : Bool) (run : Nat) (c : Char) : List Char → Nat → Prop
  /-- A double quote is left as it is, if no more than one stands before it. -/
  | quote (hc : c = '"') (hmulti : multi = true) (hrun : run < 2) : Spelling multi run c ['"'] (run + 1)
  | escape {e : List Char} (h : Escapes c e) : Spelling multi run c ('\\' :: e) 0
  /-- Any other character is left as it is, if it has a place there. -/
  | plain (hquote : c ≠ '"') (hslash : c ≠ '\\')
    (hcontrol : isControl c = false ∨ c = '\n' ∧ multi = true) : Spelling multi run c [c] 0

theorem exists_spelling (multi : Bool) (run : Nat) (c : Char) :
    ∃ w run', Spelling multi run c w run' ∧
      ∀ s, escaped multi run (c :: s) = w ++ escaped multi run' s := by
  simp only [escaped]
  split_ifs with hquote hrun hslash hbreak hcontrol
  · obtain ⟨hmulti, hrun⟩ := (Bool.and_eq_true _ _).mp hrun
    exact ⟨_, _, .quote hquote hmulti (of_decide_eq_true hrun), fun s => by rw [hquote]; rfl⟩
  · refine ⟨['\\', '"'], 0, .escape ⟨fun _ => ?_, fun _ => rfl⟩, fun s => by rw [hquote]; rfl⟩
    rw [hquote]
    rfl
  · refine ⟨['\\', '\\'], 0, .escape ⟨fun _ => ?_, fun _ => rfl⟩, fun s => rfl⟩
    rw [hslash]
    rfl
  · exact ⟨_, _, .plain hquote hslash (.inr hbreak), fun s => rfl⟩
  · obtain ⟨e, he, hescapes⟩ := exists_controlEscape (c := c) (by simpa using hcontrol)
    exact ⟨_, _, .escape hescapes, fun s => by rw [he]⟩
  · have hcontrol : isControl c = false := by
      simp only [Bool.or_eq_true, not_or, Bool.not_eq_true] at hcontrol
      exact hcontrol.1
    exact ⟨_, _, .plain hquote hslash (.inl hcontrol), fun s => rfl⟩

/-! ### One line -/

theorem readBasic_escape {e : List Char} (h : Escapes c e) :
    readBasic (fuel + 1) read ('\\' :: e ++ rest) = readBasic fuel (c :: read) rest := by
  rw [List.cons_append, readBasic, h.readEscape_eq]
  rfl

theorem readBasic_plain (hquote : c ≠ '"') (hslash : c ≠ '\\') (hcontrol : isControl c = false) :
    readBasic (fuel + 1) read (c :: rest) = readBasic fuel (c :: read) rest := by
  rw [readBasic.eq_5 _ _ _ _ hquote hslash, hcontrol]
  rfl

/-- **A text with escapes is read back.** -/
theorem readBasic_escaped (h : s.length < fuel) :
    readBasic fuel read (escaped false run s ++ '"' :: rest) =
      some (String.ofList (read.reverse ++ s), rest) := by
  induction s generalizing fuel read run with
  | nil =>
    obtain ⟨fuel, rfl⟩ := Nat.exists_eq_succ_of_ne_zero (Nat.ne_of_gt h)
    rw [List.append_nil]
    rfl
  | cons c s ih =>
    obtain ⟨fuel, rfl⟩ := Nat.exists_eq_succ_of_ne_zero (Nat.ne_of_gt (Nat.zero_lt_of_lt h))
    obtain ⟨w, run', hw, hs⟩ := exists_spelling false run c
    have ih := @ih (c :: read) run' fuel (Nat.lt_of_succ_lt_succ h)
    rw [List.reverse_cons, List.append_assoc, List.singleton_append] at ih
    rw [hs, List.append_assoc, ← ih]
    cases hw with
    | quote _ hmulti _ => cases hmulti
    | escape h => exact readBasic_escape h
    | plain hquote hslash hcontrol =>
      exact readBasic_plain hquote hslash (hcontrol.resolve_right (by simp))

/-- **A text as it is** is read back between single quotes, if it has none and no control
characters. -/
theorem readLiteral_append (h : fitsPlainly s .literal = true) :
    readLiteral read (s ++ '\x27' :: rest) = some (String.ofList (read.reverse ++ s), rest) := by
  induction s generalizing read with
  | nil =>
    rw [List.append_nil]
    rfl
  | cons c s ih =>
    simp only [fitsPlainly, List.any_cons, Bool.not_or, Bool.and_eq_true, Bool.not_eq_true',
      beq_eq_false_iff_ne] at h ih
    obtain ⟨⟨hcontrol, hquote⟩, hs⟩ := h
    rw [List.cons_append, readLiteral, if_neg hquote, hcontrol, if_neg Bool.false_ne_true, ih hs,
      List.reverse_cons, List.append_assoc]
    rfl

/-! ### Several lines -/

/-- Three quotes end a string where nothing but quotes, and few of them, stands before them. -/
theorem closeMulti_append (ht : (t.takeWhile (· == q)).length ≤ 2) (hrest : rest.head? ≠ some q) :
    closeMulti q (t ++ q :: q :: q :: rest) =
      if t.all (· == q) then some (t.reverse, rest) else none := by
  by_cases hall : t.all (· == q) = true
  · have htake : t.takeWhile (· == q) = t := List.takeWhile_eq_self_iff.mpr (List.all_eq_true.mp hall)
    rw [htake] at ht
    obtain ⟨k, rfl⟩ : ∃ k, t = List.replicate k q :=
      ⟨_, List.eq_replicate_iff.mpr ⟨rfl, fun c hc => by simpa using List.all_eq_true.mp hall c hc⟩⟩
    rw [List.length_replicate] at ht
    have hrun : List.replicate k q ++ q :: q :: q :: rest = List.replicate (k + 3) q ++ rest := by
      rw [← List.replicate_append_replicate, List.append_assoc]
      rfl
    have hstop : rest.takeWhile (· == q) = [] := by
      cases rest with
      | nil => rfl
      | cons d rest => exact List.takeWhile_cons_of_neg (by simpa using hrest)
    have hlength : ((List.replicate (k + 3) q ++ rest).takeWhile (· == q)).length = k + 3 := by
      rw [List.takeWhile_append_of_pos (by simp), hstop, List.append_nil, List.length_replicate]
    rw [if_pos hall, hrun, closeMulti, hlength, if_neg (by omega), Nat.add_sub_cancel,
      Nat.min_eq_left ht, List.reverse_replicate]
    dsimp only
    rw [List.drop_left' List.length_replicate]
  · have hne : (t.takeWhile (· == q)).length ≠ t.length := fun hlen => by
      have := (List.takeWhile_prefix _).eq_of_length hlen
      exact hall (List.all_eq_true.mpr (List.takeWhile_eq_self_iff.mp this))
    rw [if_neg hall, closeMulti, List.takeWhile_append, if_neg hne, if_pos (by omega)]

theorem afterLineBreak_eq_none (hbreak : c ≠ '\n') (hreturn : c ≠ '\r') :
    afterLineBreak (c :: rest) = none :=
  afterLineBreak.eq_3 _ (fun _ h => hbreak (List.cons.inj h).1)
    fun _ h => hreturn (List.cons.inj h).1

/-- A character that is no line break and no control character starts no line break. -/
theorem afterLineBreak_of_isControl (h : isControl c = false) : afterLineBreak (c :: rest) = none := by
  refine afterLineBreak_eq_none ?_ ?_
  · rintro rfl
    exact absurd h (by decide)
  · rintro rfl
    exact absurd h (by decide)

/-- What is written starts with no more quotes than may still stand in a row. -/
theorem length_takeWhile_escaped (hrun : run ≤ 2) :
    ((escaped true run s).takeWhile (· == '"')).length + run ≤ 2 := by
  induction s generalizing run with
  | nil => simpa [escaped] using hrun
  | cons c s ih =>
    obtain ⟨w, run', hw, hs⟩ := exists_spelling true run c
    rw [hs]
    cases hw with
    | quote _ _ hlt =>
      have := @ih (run + 1) hlt
      rw [List.singleton_append, List.takeWhile_cons_of_pos rfl, List.length_cons]
      omega
    | escape _ => simpa using hrun
    | plain hquote _ _ =>
      rw [List.singleton_append, List.takeWhile_cons_of_neg (by simpa using hquote)]
      simpa using hrun

/-- Where nothing but quotes is written, they are the text. -/
theorem escaped_eq_self_of_all (h : (escaped true run s).all (· == '"') = true) :
    escaped true run s = s := by
  induction s generalizing run with
  | nil => rfl
  | cons c s ih =>
    obtain ⟨w, run', hw, hs⟩ := exists_spelling true run c
    rw [hs] at h ⊢
    cases hw with
    | quote hc _ _ => rw [ih (by simpa using h), hc]; rfl
    | escape _ => exact absurd h (by simp)
    | plain hquote _ _ => exact absurd h (by simp [hquote])

theorem readMultiBasic_escape {e : List Char} (h : Escapes c e) :
    readMultiBasic (fuel + 1) read ('\\' :: e ++ rest) = readMultiBasic fuel (c :: read) rest := by
  rw [List.cons_append, readMultiBasic, h.afterLineBreak_eq, h.readEscape_eq]
  rfl

theorem readMultiBasic_plain (hclose : closeMulti '"' (c :: rest) = none) (hslash : c ≠ '\\')
    (hcontrol : isControl c = false ∨ c = '\n') :
    readMultiBasic (fuel + 1) read (c :: rest) = readMultiBasic fuel (c :: read) rest := by
  rw [readMultiBasic.eq_4 _ _ _ _ hslash, hclose]
  dsimp only
  rcases hcontrol with hcontrol | rfl
  · rw [afterLineBreak_of_isControl hcontrol, hcontrol]
    rfl
  · rfl

/-- The end, where nothing but quotes is left. -/
theorem readMultiBasic_of_all (hall : t.all (· == '"') = true)
    (ht : (t.takeWhile (· == '"')).length ≤ 2) (hrest : rest.head? ≠ some '"') :
    readMultiBasic (fuel + 1) read (t ++ '"' :: '"' :: '"' :: rest) =
      some (String.ofList (read.reverse ++ t), rest) := by
  obtain ⟨r, hr⟩ : ∃ r, t ++ '"' :: '"' :: '"' :: rest = '"' :: r := by
    cases t with
    | nil => exact ⟨_, rfl⟩
    | cons d t =>
      obtain rfl : d = '"' := by simpa using List.all_eq_true.mp hall d List.mem_cons_self
      exact ⟨_, rfl⟩
  rw [hr, readMultiBasic.eq_4 _ _ _ _ (by decide), ← hr, closeMulti_append ht hrest, if_pos hall]
  dsimp only
  rw [List.reverse_append, List.reverse_reverse]

/-- **A text of several lines with escapes is read back.** -/
theorem readMultiBasic_escaped (hrun : run ≤ 2) (h : s.length < fuel) (hrest : rest.head? ≠ some '"') :
    readMultiBasic fuel read (escaped true run s ++ '"' :: '"' :: '"' :: rest) =
      some (String.ofList (read.reverse ++ s), rest) := by
  induction s generalizing fuel read run with
  | nil =>
    obtain ⟨fuel, rfl⟩ := Nat.exists_eq_succ_of_ne_zero (Nat.ne_of_gt h)
    exact readMultiBasic_of_all rfl (by simp [escaped]) hrest
  | cons c s ih =>
    obtain ⟨fuel, rfl⟩ := Nat.exists_eq_succ_of_ne_zero (Nat.ne_of_gt (Nat.zero_lt_of_lt h))
    have hquotes := Nat.le_of_add_right_le (length_takeWhile_escaped (s := c :: s) hrun)
    by_cases hall : (escaped true run (c :: s)).all (· == '"') = true
    · rw [readMultiBasic_of_all hall hquotes hrest, escaped_eq_self_of_all hall]
    · have hclose := closeMulti_append hquotes hrest
      rw [if_neg hall] at hclose
      obtain ⟨w, run', hw, hs⟩ := exists_spelling true run c
      have ih := fun hrun' => @ih (c :: read) run' fuel hrun' (Nat.lt_of_succ_lt_succ h)
      simp only [List.reverse_cons, List.append_assoc, List.singleton_append] at ih
      rw [hs, List.append_assoc] at hclose ⊢
      cases hw with
      | quote hc _ hlt =>
        rw [← ih hlt, hc]
        exact readMultiBasic_plain hclose (by decide) (.inl rfl)
      | escape h =>
        rw [← ih (by decide)]
        exact readMultiBasic_escape h
      | plain _ hslash hcontrol =>
        rw [← ih (by decide)]
        exact readMultiBasic_plain hclose hslash (hcontrol.imp_right And.left)

/-! ### Several lines as they are -/

theorem readMultiLiteral_plain (hclose : closeMulti '\x27' (c :: rest) = none)
    (hcontrol : isControl c = false ∨ c = '\n') :
    readMultiLiteral (fuel + 1) read (c :: rest) = readMultiLiteral fuel (c :: read) rest := by
  rw [readMultiLiteral, hclose]
  dsimp only
  rcases hcontrol with hcontrol | rfl
  · rw [afterLineBreak_of_isControl hcontrol, hcontrol]
    rfl
  · rfl

theorem readMultiLiteral_of_all (hall : t.all (· == '\x27') = true)
    (ht : (t.takeWhile (· == '\x27')).length ≤ 2) (hrest : rest.head? ≠ some '\x27') :
    readMultiLiteral (fuel + 1) read (t ++ '\x27' :: '\x27' :: '\x27' :: rest) =
      some (String.ofList (read.reverse ++ t), rest) := by
  obtain ⟨d, r, hr⟩ : ∃ d r, t ++ '\x27' :: '\x27' :: '\x27' :: rest = d :: r := by
    cases t with
    | nil => exact ⟨_, _, rfl⟩
    | cons d t => exact ⟨_, _, rfl⟩
  rw [hr, readMultiLiteral, ← hr, closeMulti_append ht hrest, if_pos hall]
  dsimp only
  rw [List.reverse_append, List.reverse_reverse]

theorem length_takeWhile_le_longestRun (q : Char) (s : List Char) (run : Nat) :
    (s.takeWhile (· == q)).length + run ≤ longestRun q run s := by
  induction s generalizing run with
  | nil => simp [longestRun]
  | cons c s ih =>
    rw [longestRun]
    by_cases hc : c = q
    · have := ih (run + 1)
      rw [List.takeWhile_cons_of_pos (by simpa using hc), List.length_cons, if_pos hc]
      omega
    · rw [List.takeWhile_cons_of_neg (by simpa using hc), if_neg hc, List.length_nil, Nat.zero_add]
      exact Nat.le_max_left _ _

theorem longestRun_mono (q : Char) (s : List Char) {m n : Nat} (h : m ≤ n) :
    longestRun q m s ≤ longestRun q n s := by
  induction s generalizing m n with
  | nil => simpa [longestRun] using h
  | cons c s ih =>
    rw [longestRun, longestRun]
    by_cases hc : c = q
    · rw [if_pos hc, if_pos hc]
      exact ih (Nat.succ_le_succ h)
    · rw [if_neg hc, if_neg hc]
      omega

theorem longestRun_le_cons (q c : Char) (s : List Char) :
    longestRun q 0 s ≤ longestRun q 0 (c :: s) := by
  rw [longestRun]
  by_cases hc : c = q
  · rw [if_pos hc]
    exact longestRun_mono q s (Nat.zero_le _)
  · rw [if_neg hc]
    exact Nat.le_max_right _ _

/-- **A text of several lines as it is** is read back between single quotes, if it has no more than
two of them in a row. -/
theorem readMultiLiteral_append (hs : fitsPlainly s .multiLiteral = true) (h : s.length < fuel)
    (hrest : rest.head? ≠ some '\x27') :
    readMultiLiteral fuel read (s ++ '\x27' :: '\x27' :: '\x27' :: rest) =
      some (String.ofList (read.reverse ++ s), rest) := by
  simp only [fitsPlainly, Bool.and_eq_true, Bool.not_eq_true', decide_eq_true_eq] at hs
  obtain ⟨hcontrols, hlongest⟩ := hs
  induction s generalizing fuel read with
  | nil =>
    obtain ⟨fuel, rfl⟩ := Nat.exists_eq_succ_of_ne_zero (Nat.ne_of_gt h)
    exact readMultiLiteral_of_all rfl (by simp) hrest
  | cons c s ih =>
    obtain ⟨fuel, rfl⟩ := Nat.exists_eq_succ_of_ne_zero (Nat.ne_of_gt (Nat.zero_lt_of_lt h))
    have hquotes : ((c :: s).takeWhile (· == '\x27')).length ≤ 2 :=
      (length_takeWhile_le_longestRun _ _ 0).trans hlongest
    by_cases hall : (c :: s).all (· == '\x27') = true
    · exact readMultiLiteral_of_all hall hquotes hrest
    · have hclose := closeMulti_append hquotes hrest
      rw [if_neg hall, List.cons_append] at hclose
      rw [List.any_cons, Bool.or_eq_false_iff] at hcontrols
      obtain ⟨hcontrol, hcontrols⟩ := hcontrols
      have hcontrol : isControl c = false ∨ c = '\n' := by
        rw [Bool.and_eq_false_iff, bne_eq_false_iff_eq] at hcontrol
        exact hcontrol
      rw [List.cons_append, readMultiLiteral_plain hclose hcontrol,
        ih (Nat.lt_of_succ_lt_succ h) hcontrols ((longestRun_le_cons _ c s).trans hlongest),
        List.reverse_cons, List.append_assoc, List.singleton_append]

/-! ### Strings -/

theorem length_le_length_escaped (multi : Bool) (run : Nat) (s : List Char) :
    s.length ≤ (escaped multi run s).length := by
  induction s generalizing run with
  | nil => exact Nat.zero_le _
  | cons c s ih =>
    obtain ⟨w, run', hw, hs⟩ := exists_spelling multi run c
    have hpos : 0 < w.length := by
      cases hw with
      | quote => exact Nat.one_pos
      | escape => exact Nat.succ_pos _
      | plain => exact Nat.one_pos
    have := ih run'
    rw [hs, List.length_append, List.length_cons]
    omega

/-- On one line nothing that is written starts with a double quote. -/
theorem escaped_ne_quote_cons : escaped false run s ≠ '"' :: t := by
  cases s with
  | nil => simp [escaped]
  | cons c s =>
    obtain ⟨w, run', hw, hs⟩ := exists_spelling false run c
    rw [hs]
    cases hw with
    | quote _ hmulti _ => cases hmulti
    | escape => simp
    | plain hquote _ _ => simpa using fun h => absurd h hquote

/-- A text without line breaks starts with none. -/
theorem afterLineBreak_escaped (h : '\n' ∉ s) :
    afterLineBreak (escaped multi run s ++ '"' :: rest) = none := by
  cases s with
  | nil => rfl
  | cons c s =>
    obtain ⟨w, run', hw, hs⟩ := exists_spelling multi run c
    rw [hs]
    cases hw with
    | quote => rfl
    | escape => rfl
    | plain _ _ hcontrol =>
      have hne : c ≠ '\n' := fun hc => h (hc ▸ List.mem_cons_self)
      exact afterLineBreak_of_isControl (hcontrol.resolve_right fun hc => hne hc.1)

theorem toList_write (q : Quoting) (s : List Char) : (q.write s).toList =
    q.delimiter.toList ++ (if q.isMulti && s.contains '\n' then ['\n'] else []) ++
      (if q.hasEscapes then escaped q.isMulti 0 s else s) ++ q.delimiter.toList := by
  rw [Quoting.write, String.toList_append, String.toList_append, String.toList_append,
    String.toList_ofList]
  split_ifs <;> rfl

/-- Behind the quotes that open a text of several lines, the text starts in the first line or, if it
has several lines, in the next. -/
theorem skipFirstBreak_append (h : '\n' ∉ s → afterLineBreak t = none) :
    skipFirstBreak ((if s.contains '\n' then ['\n'] else []) ++ t) = t := by
  by_cases hbreak : s.contains '\n' = true
  · rw [if_pos hbreak]
    rfl
  · rw [if_neg hbreak, List.nil_append, skipFirstBreak, h (by simpa using hbreak)]
    rfl

theorem write_basic_append (s rest : List Char) :
    (Quoting.basic.write s).toList ++ rest = '"' :: (escaped false 0 s ++ '"' :: rest) := by
  rw [toList_write]
  simp [Quoting.delimiter, Quoting.isMulti, Quoting.hasEscapes]

theorem write_literal_append (s rest : List Char) :
    (Quoting.literal.write s).toList ++ rest = '\x27' :: (s ++ '\x27' :: rest) := by
  rw [toList_write]
  simp [Quoting.delimiter, Quoting.isMulti, Quoting.hasEscapes]

/-- The text itself is fuel enough. -/
theorem readBasic_length (s rest : List Char) :
    readBasic ((escaped false 0 s ++ '"' :: rest).length + 1) [] (escaped false 0 s ++ '"' :: rest) =
      some (String.ofList s, rest) := by
  have hlength := length_le_length_escaped false 0 s
  rw [readBasic_escaped, List.reverse_nil, List.nil_append]
  rw [List.length_append]
  omega

theorem readQuoted_write_basic (s rest : List Char) :
    readQuoted ((Quoting.basic.write s).toList ++ '\n' :: rest) =
      some (String.ofList s, '\n' :: rest) := by
  rw [write_basic_append, readQuoted.eq_2, readBasic_length]
  intro rest' heq
  cases ht : escaped false 0 s with
  | nil =>
    rw [ht] at heq
    exact absurd heq (by simp)
  | cons d t =>
    rw [ht] at heq
    rw [(List.cons.inj heq).1] at ht
    exact escaped_ne_quote_cons ht

theorem readQuoted_write_literal (h : fitsPlainly s .literal = true) (rest : List Char) :
    readQuoted ((Quoting.literal.write s).toList ++ '\n' :: rest) =
      some (String.ofList s, '\n' :: rest) := by
  rw [write_literal_append, readQuoted.eq_4, readLiteral_append h, List.reverse_nil, List.nil_append]
  intro rest' heq
  cases s with
  | nil => exact absurd heq (by simp)
  | cons c s =>
    obtain rfl : c = '\x27' := (List.cons.inj heq).1
    exact absurd h (by simp [fitsPlainly])

theorem readQuoted_write_multiBasic (s rest : List Char) :
    readQuoted ((Quoting.multiBasic.write s).toList ++ '\n' :: rest) =
      some (String.ofList s, '\n' :: rest) := by
  set t := escaped true 0 s ++ '"' :: '"' :: '"' :: '\n' :: rest with ht
  set lines := if s.contains '\n' then ['\n'] else [] with hlines
  have htext : (Quoting.multiBasic.write s).toList ++ '\n' :: rest =
      '"' :: '"' :: '"' :: (lines ++ t) := by
    rw [toList_write, hlines, ht]
    simp [Quoting.delimiter, Quoting.isMulti, Quoting.hasEscapes]
  have hlength : s.length < (lines ++ t).length + 1 := by
    have := length_le_length_escaped true 0 s
    rw [ht, List.length_append, List.length_append]
    omega
  rw [htext, readQuoted.eq_1, skipFirstBreak_append afterLineBreak_escaped,
    readMultiBasic_escaped (Nat.zero_le _) hlength (by simp), List.reverse_nil, List.nil_append]

theorem readQuoted_write_multiLiteral (h : fitsPlainly s .multiLiteral = true) (rest : List Char) :
    readQuoted ((Quoting.multiLiteral.write s).toList ++ '\n' :: rest) =
      some (String.ofList s, '\n' :: rest) := by
  set t := s ++ '\x27' :: '\x27' :: '\x27' :: '\n' :: rest with ht
  set lines := if s.contains '\n' then ['\n'] else [] with hlines
  have htext : (Quoting.multiLiteral.write s).toList ++ '\n' :: rest =
      '\x27' :: '\x27' :: '\x27' :: (lines ++ t) := by
    rw [toList_write, hlines, ht]
    simp [Quoting.delimiter, Quoting.isMulti, Quoting.hasEscapes]
  have hlength : s.length < (lines ++ t).length + 1 := by
    rw [ht, List.length_append, List.length_append]
    omega
  have hfirst (hs : '\n' ∉ s) : afterLineBreak t = none := by
    cases s with
    | nil => rfl
    | cons c s =>
      refine afterLineBreak_of_isControl ?_
      have hne : c ≠ '\n' := fun hc => hs (hc ▸ List.mem_cons_self)
      simp only [fitsPlainly, List.any_cons, Bool.and_eq_true, Bool.not_eq_true',
        Bool.or_eq_false_iff, Bool.and_eq_false_iff, bne_eq_false_iff_eq] at h
      exact h.1.1.resolve_right hne
  rw [htext, readQuoted.eq_3, skipFirstBreak_append hfirst,
    readMultiLiteral_append h hlength (by simp), List.reverse_nil, List.nil_append]

/-- The form that is chosen. -/
theorem quoting_cases (s : List Char) :
    quoting s = .basic ∨ (quoting s = .literal ∧ fitsPlainly s .literal = true) ∨
    quoting s = .multiBasic ∨ (quoting s = .multiLiteral ∧ fitsPlainly s .multiLiteral = true) := by
  unfold quoting
  split
  · next q hq =>
    have hfits := List.find?_some hq
    cases q with
    | basic => exact .inl rfl
    | literal => exact .inr (.inl ⟨rfl, hfits⟩)
    | multiBasic => exact .inr (.inr (.inl rfl))
    | multiLiteral => exact .inr (.inr (.inr ⟨rfl, hfits⟩))
  · split_ifs
    · exact .inr (.inr (.inl rfl))
    · exact .inl rfl

/-- **A string is read back,** in whatever form it is written. -/
theorem readQuoted_quoted (text : String) (rest : List Char) :
    readQuoted ((quoted text).toList ++ '\n' :: rest) = some (text, '\n' :: rest) := by
  have hread : readQuoted ((quoted text).toList ++ '\n' :: rest) =
      some (String.ofList text.toList, '\n' :: rest) := by
    unfold quoted
    rcases quoting_cases text.toList with hq | ⟨hq, hfits⟩ | hq | ⟨hq, hfits⟩ <;> rw [hq]
    · exact readQuoted_write_basic _ _
    · exact readQuoted_write_literal hfits _
    · exact readQuoted_write_multiBasic _ _
    · exact readQuoted_write_multiLiteral hfits _
  rwa [String.ofList_toList] at hread

end PatternQuery.Toml
