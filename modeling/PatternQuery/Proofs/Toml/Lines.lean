import PatternQuery.Proofs.Toml.Key
import PatternQuery.Proofs.Toml.Scalar

/-!
# Lines are read back

The two kinds of lines that are written are an entry with its value and the header of a table. Reading
one of them changes the document as the line says (`reads_entryLine`, `reads_headerLine`), and goes on
behind it. Lines that are written change the last table only, which is what `Entries.within_concat` is for.
-/

namespace PatternQuery.Toml

variable {fuel : Nat} {document : Entries} {path : List String} {text rest : List Char} {v : Toml}

/-- The line of an entry. -/
def entryLine (name : String) (text : List Char) : List Char :=
  (key name).toList ++ ' ' :: '=' :: ' ' :: (text ++ ['\n'])

/-- The line of the header of a table in another one. -/
def headerLine (outer name : String) : List Char :=
  '[' :: ((key outer).toList ++ '.' :: ((key name).toList ++ [']', '\n']))

/-- The line of the header of a table. -/
def topHeaderLine (name : String) : List Char := '[' :: ((key name).toList ++ [']', '\n'])

/-! ### What a line says -/

/-- An empty line makes no difference. -/
theorem readLines_break : readLines (fuel + 1) document path ('\n' :: rest) =
    readLines (fuel + 1) document path rest := rfl

theorem readLines_done : readLines (fuel + 1) document path [] = some document := rfl

/-- No blank and no line break stands in front of a key. -/
theorem skipBlankLines_key (name : String) (rest : List Char) :
    skipBlankLines ((key name).toList ++ rest) = (key name).toList ++ rest := by
  obtain ⟨c, t, ht, -⟩ := exists_cons_key name
  have hne {d : Char} (hd : isBareKeyChar d = false) (hquote : d ≠ '"') (hquote' : d ≠ '\x27') :
      c ≠ d := ne_of_key ht hd hquote hquote'
  have hblank : (isSpace c || c == '\n') = false := by
    unfold isSpace
    rw [beq_false_of_ne (hne (d := ' ') (by decide) (by decide) (by decide)),
      beq_false_of_ne (hne (d := '\t') (by decide) (by decide) (by decide)),
      beq_false_of_ne (hne (d := '\n') (by decide) (by decide) (by decide))]
    rfl
  rw [ht, List.cons_append, skipBlankLines, hblank]
  · rfl
  · rintro _ rfl _
    exact hne (d := '\r') (by decide) (by decide) (by decide) rfl

theorem readEntry_key (document : Entries) (path : List String) (name : String)
    (h : ReadsAs text v) (rest : List Char) :
    readEntry document path ((key name).toList ++ ' ' :: '=' :: ' ' :: (text ++ '\n' :: rest)) =
      (Entries.within (Entries.addPath [name] v) path document).map (·, rest) := by
  have hskip : skipSpaces (' ' :: (text ++ '\n' :: rest)) = text ++ '\n' :: rest :=
    h.skipSpaces_eq rest
  rw [readEntry, readKey_entry]
  simp only [Option.bind_eq_bind, Option.bind_some, hskip, h.readValue_eq]
  rw [Option.map_eq_bind]
  rfl

/-- **An entry is read back.** -/
theorem readLines_entryLine (name : String) (h : ReadsAs text v) (rest : List Char) :
    readLines (fuel + 1) document path (entryLine name text ++ rest) =
      (Entries.within (Entries.addPath [name] v) path document).bind fun document =>
        readLines fuel document path rest := by
  have hline : entryLine name text ++ rest =
      (key name).toList ++ ' ' :: '=' :: ' ' :: (text ++ '\n' :: rest) := by simp [entryLine]
  have hread := readEntry_key document path name h rest
  obtain ⟨c, t, ht, -⟩ := exists_cons_key name
  rw [hline, readLines, skipBlankLines_key]
  rw [ht, List.cons_append] at hread ⊢
  split
  · next heq => exact absurd heq (by simp)
  · next heq =>
    exact absurd (List.cons.inj heq).1 (ne_of_key ht (by decide) (by decide) (by decide))
  · next heq =>
    exact absurd (List.cons.inj heq).1 (ne_of_key ht (by decide) (by decide) (by decide))
  · rw [hread, Option.bind_eq_bind, Option.bind_map]
    rfl

theorem readLines_bracket : readLines (fuel + 1) document path ('[' :: rest) =
    (readHeader document rest).bind fun (document, path, rest) =>
      readLines fuel document path rest := rfl

/-- A header is read by its key, if it is no header of an item. -/
theorem readHeader_of_readKey (outer : List String) (name : String) {s : List Char}
    (hitem : ∀ t, s ≠ '[' :: t) (hkey : readKey s = some (outer ++ [name], ']' :: '\n' :: rest)) :
    readHeader document s = (Entries.within (Entries.openTable name) outer document).map
      (·, outer ++ [name], rest) := by
  have hmark : readMark ']' (']' :: '\n' :: rest) = some ('\n' :: rest) := rfl
  rw [readHeader]
  · simp only [Option.bind_eq_bind, hkey, Option.bind_some, hmark, Bool.false_eq_true, if_false,
      List.getLast?_concat, List.dropLast_concat]
    rw [Option.map_eq_bind]
    rfl
  · exact hitem

theorem key_append_ne_bracket (name : String) (s t : List Char) :
    (key name).toList ++ s ≠ '[' :: t := by
  obtain ⟨c, r, hr, -⟩ := exists_cons_key name
  rw [hr]
  exact fun heq => ne_of_key hr (by decide) (by decide) (by decide) (List.cons.inj heq).1

/-- **A header is read back.** -/
theorem readLines_headerLine (outer name : String) (rest : List Char) :
    readLines (fuel + 1) document path (headerLine outer name ++ rest) =
      (Entries.within (Entries.openTable name) [outer] document).bind fun document =>
        readLines fuel document [outer, name] rest := by
  have hline : headerLine outer name ++ rest =
      '[' :: ((key outer).toList ++ '.' :: ((key name).toList ++ ']' :: '\n' :: rest)) := by
    simp [headerLine]
  rw [hline, readLines_bracket, readHeader_of_readKey [outer] name (key_append_ne_bracket _ _)
    (readKey_header_dot outer name _), Option.bind_map]
  rfl

theorem readLines_topHeaderLine (name : String) (rest : List Char) :
    readLines (fuel + 1) document path (topHeaderLine name ++ rest) =
      (Entries.openTable name document).bind fun document =>
        readLines fuel document [name] rest := by
  have hline : topHeaderLine name ++ rest = '[' :: ((key name).toList ++ ']' :: '\n' :: rest) := by
    simp [topHeaderLine]
  rw [hline, readLines_bracket, readHeader_of_readKey [] name (key_append_ne_bracket _ _)
    (readKey_header name _), Option.bind_map]
  rfl

/-! ### Runs of lines -/

/-- **What is left is read,** with as much fuel as it has characters, and the document is complete. -/
def Reads (document : Entries) (path : List String) (s : List Char) (result : Entries) : Prop :=
  ∀ fuel, s.length < fuel → readLines fuel document path s = some result

variable {document' result : Entries}

theorem reads_nil : Reads document path [] document := by
  intro fuel hfuel
  obtain ⟨fuel, rfl⟩ := Nat.exists_eq_succ_of_ne_zero (Nat.ne_of_gt hfuel)
  exact readLines_done

theorem reads_break (h : Reads document path rest result) :
    Reads document path ('\n' :: rest) result := by
  intro fuel hfuel
  obtain ⟨fuel, rfl⟩ := Nat.exists_eq_succ_of_ne_zero (Nat.ne_of_gt (Nat.zero_lt_of_lt hfuel))
  rw [readLines_break]
  exact h (fuel + 1) (Nat.lt_of_succ_lt hfuel)

/-- A line is one step of the reading, and takes at least one character. -/
theorem Reads.step {path' : List String} {s : List Char} (h : Reads document' path' rest result)
    (hline : ∀ fuel, readLines (fuel + 1) document path s = readLines fuel document' path' rest)
    (hlength : rest.length < s.length) : Reads document path s result := by
  intro fuel hfuel
  obtain ⟨fuel, rfl⟩ := Nat.exists_eq_succ_of_ne_zero (Nat.ne_of_gt (Nat.zero_lt_of_lt hfuel))
  rw [hline]
  exact h fuel (by omega)

theorem reads_entryLine {name : String} (hv : ReadsAs text v)
    (hwithin : Entries.within (Entries.addPath [name] v) path document = some document')
    (h : Reads document' path rest result) :
    Reads document path (entryLine name text ++ rest) result := by
  refine h.step (fun fuel => ?_) ?_
  · rw [readLines_entryLine name hv, hwithin, Option.bind_some]
  · simp only [entryLine, List.length_append, List.length_cons]
    omega

theorem reads_headerLine {outer name : String}
    (hwithin : Entries.within (Entries.openTable name) [outer] document = some document')
    (h : Reads document' [outer, name] rest result) :
    Reads document path (headerLine outer name ++ rest) result := by
  refine h.step (fun fuel => ?_) ?_
  · rw [readLines_headerLine, hwithin, Option.bind_some]
  · simp only [headerLine, List.length_append, List.length_cons]
    omega

theorem reads_topHeaderLine {name : String}
    (hopen : Entries.openTable name document = some document')
    (h : Reads document' [name] rest result) :
    Reads document path (topHeaderLine name ++ rest) result := by
  refine h.step (fun fuel => ?_) ?_
  · rw [readLines_topHeaderLine, hopen, Option.bind_some]
  · simp only [topHeaderLine, List.length_append, List.length_cons]
    omega

/-- **A document is read,** if its lines are. -/
theorem ofText?_of_reads {text : String} (hmark : text.toList.head? ≠ some '\uFEFF')
    (h : Reads [] [] text.toList result) : ofText? text = some (finishEntries result) := by
  rw [ofText?]
  generalize text.toList = s at hmark h
  split
  · exact absurd rfl hmark
  · rw [h _ (Nat.lt_succ_self _)]
    rfl

/-! ### What a line changes -/

namespace Entries

variable {key : String} {keys : List String} {d d' : Draft} {entries inner : Entries}
  {change : Entries → Option Entries} {origin : Origin}

theorem lookup_eq_none (h : key ∉ entries.map (·.1)) : entries.lookup key = none :=
  List.lookup_eq_none_iff.mpr fun _ he => bne_iff_ne.mpr fun heq =>
    h (heq ▸ List.mem_map_of_mem he)

theorem lookup_concat (h : key ∉ entries.map (·.1)) :
    (entries ++ [(key, d)]).lookup key = some d := by
  rw [List.lookup_append, lookup_eq_none h, Option.none_or, List.lookup_cons_self]

theorem replace_concat (h : key ∉ entries.map (·.1)) :
    replace (entries ++ [(key, d)]) key d' = entries ++ [(key, d')] := by
  have hfront : entries.map (fun e => if e.1 == key then (key, d') else e) = entries := by
    refine (List.map_congr_left fun e he => if_neg ?_).trans (List.map_id' entries)
    simp only [beq_iff_eq]
    exact fun heq => h (heq ▸ List.mem_map_of_mem he)
  rw [replace, List.map_append, hfront, List.map_singleton, beq_self_eq_true]
  rfl

/-- A change inside the last table. -/
theorem within_concat (h : key ∉ entries.map (·.1)) :
    within change (key :: keys) (entries ++ [(key, .table origin inner)]) =
      (within change keys inner).map fun inner => entries ++ [(key, .table origin inner)] := by
  rw [within, lookup_concat h, Option.map_eq_bind]
  simp only [replace_concat h]
  rfl

/-- A change inside a table that is not there yet. -/
theorem within_new (h : key ∉ entries.map (·.1)) :
    within change (key :: keys) entries =
      (within change keys []).map fun inner => entries ++ [(key, .table .implied inner)] := by
  rw [within, lookup_eq_none h, Option.map_eq_bind]
  rfl

theorem openTable_new (h : key ∉ entries.map (·.1)) :
    openTable key entries = some (entries ++ [(key, .table .header [])]) := by
  rw [openTable, lookup_eq_none h]

theorem addPath_new (h : key ∉ entries.map (·.1)) :
    addPath [key] v entries = some (entries ++ [(key, .value v)]) := by
  show add key v [] entries = _
  rw [add, lookup_eq_none h]

end Entries

theorem finishEntries_eq_map (entries : Entries) :
    finishEntries entries = entries.map fun e => (e.1, e.2.finish) := by
  induction entries with
  | nil => rfl
  | cons e entries ih =>
    rw [finishEntries, ih]
    rfl

theorem finishEntries_append (entries entries' : Entries) :
    finishEntries (entries ++ entries') = finishEntries entries ++ finishEntries entries' := by
  rw [finishEntries_eq_map, finishEntries_eq_map, finishEntries_eq_map, List.map_append]

end PatternQuery.Toml
