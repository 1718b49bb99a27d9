import PatternQuery.Decimal.Numeral
import PatternQuery.Text.Digits
import PatternQuery.Toml.Basic

/-!
# TOML values without quotes

Truth values, numbers, and dates and times. Such a value is one word, apart from a date and a time of
day with a blank between them, so these readers look at a whole word and tell which kind it is of.
-/

namespace PatternQuery.Toml

/-! ### Numbers -/

/-- Digits with single underscores between them, without the underscores. -/
def digitGroups (isDigit : Char → Bool) : List Char → Option (List Char)
  | [] => none
  | [c] => if isDigit c then some [c] else none
  | c :: '_' :: d :: rest =>
    if isDigit c then (digitGroups isDigit (d :: rest)).map (c :: ·) else none
  | c :: d :: rest =>
    if isDigit c then (digitGroups isDigit (d :: rest)).map (c :: ·) else none

/-- A sign and what follows it; a sign may be missing. -/
def splitSign : List Char → Bool × List Char
  | '-' :: rest => (true, rest)
  | '+' :: rest => (false, rest)
  | s => (false, s)

/-- The digits of a whole number without a sign, which starts with a zero only when it is zero. -/
def wholeDigits (s : List Char) : Option (List Char) := do
  let digits ← digitGroups Char.isDigit s
  if digits.head? == some '0' && digits.length != 1 then none else some digits

/-- A whole number, if it fits in 64 bits with its sign. -/
def wholeNumber? (negative : Bool) (n : Nat) : Option Toml :=
  if negative then (if n ≤ 0x8000000000000000 then some (int (-n)) else none)
  else if n < 0x8000000000000000 then some (int n)
  else none

/-- The number written in digits to a base. -/
def natToBase (base : Nat) (digits : List Char) : Nat :=
  digits.foldl (fun n c => n * base + (Text.hexValue c).getD 0) 0

/-- Reads a whole number, decimal with a sign or to another base without one. -/
def readInt : List Char → Option Toml
  | '0' :: 'x' :: digits => do
    wholeNumber? false (natToBase 16 (← digitGroups (fun c => (Text.hexValue c).isSome) digits))
  | '0' :: 'o' :: digits => do
    wholeNumber? false (natToBase 8 (← digitGroups (fun c => '0' ≤ c && c ≤ '7') digits))
  | '0' :: 'b' :: digits => do
    wholeNumber? false (natToBase 2 (← digitGroups (fun c => c == '0' || c == '1') digits))
  | s => do
    let (negative, digits) := splitSign s
    wholeNumber? negative (Text.natOfDigits (← wholeDigits digits))

/-- Whether a text is the exponent of a number, without its mark. -/
def isExponent (s : List Char) : Bool :=
  (digitGroups Char.isDigit (splitSign s).2).isSome

/-- Whether a character marks an exponent. -/
def isExponentMark (c : Char) : Bool := c == 'e' || c == 'E'

/-- Whether a text is a floating-point number without its sign: a whole number with a fraction or an
exponent or both. -/
def isUnsignedFloat (s : List Char) : Bool :=
  let whole := s.takeWhile fun c => c != '.' && !isExponentMark c
  (wholeDigits whole).isSome &&
    match s.drop whole.length with
    | '.' :: rest =>
      let fraction := rest.takeWhile fun c => !isExponentMark c
      (digitGroups Char.isDigit fraction).isSome &&
        match rest.drop fraction.length with
        | [] => true
        | _ :: exponent => isExponent exponent
    | _ :: exponent => isExponent exponent
    | [] => false

/-- Whether a number written in digits is above all finite doubles. -/
def isTooLarge (s : List Char) : Bool :=
  match Decimal.ofText? (String.ofList (s.filter (· != '_'))) with
  | some x => x.isInf && x > 0
  | none => false

/-- Reads a floating-point number. One above all finite doubles is refused, while one below all of
them stands for minus infinity. -/
def readFloat (s : List Char) : Option Toml :=
  let size := (splitSign s).2
  if size == "inf".toList || size == "nan".toList || (isUnsignedFloat size && !isTooLarge s) then
    some (float (String.ofList s))
  else none

/-! ### Dates and times -/

/-- Reads a number of `count` decimal digits. -/
def readFixed (count : Nat) (s : List Char) : Option (Nat × List Char) :=
  let digits := s.take count
  if digits.length == count && digits.all Char.isDigit then
    some (Text.natOfDigits digits, s.drop count)
  else none

/-- Reads one character that has to be there. -/
def readMark (mark : Char) : List Char → Option (List Char)
  | c :: rest => if c = mark then some rest else none
  | [] => none

/-- The number of days of a month. -/
def daysInMonth (year month : Nat) : Nat :=
  if month = 2 then (if year % 4 = 0 ∧ (year % 100 ≠ 0 ∨ year % 400 = 0) then 29 else 28)
  else if month = 4 ∨ month = 6 ∨ month = 9 ∨ month = 11 then 30
  else 31

/-- Reads a date: what follows it. -/
def afterDate (s : List Char) : Option (List Char) := do
  let (year, rest) ← readFixed 4 s
  let (month, rest) ← readFixed 2 (← readMark '-' rest)
  let (day, rest) ← readFixed 2 (← readMark '-' rest)
  if 1 ≤ month ∧ month ≤ 12 ∧ 1 ≤ day ∧ day ≤ daysInMonth year month then some rest else none

/-- Reads a time of day: what follows it. A leap second is allowed. -/
def afterTime (s : List Char) : Option (List Char) := do
  let (hour, rest) ← readFixed 2 s
  let (minute, rest) ← readFixed 2 (← readMark ':' rest)
  let (second, rest) ← readFixed 2 (← readMark ':' rest)
  if hour ≤ 23 ∧ minute ≤ 59 ∧ second ≤ 60 then
    match rest with
    | '.' :: fraction =>
      let (digits, rest) := Text.spanDigits fraction
      if digits.isEmpty then none else some rest
    | rest => some rest
  else none

/-- Whether a text is the offset of a time zone, or empty. -/
def isOffset : List Char → Bool
  | [] => true
  | [c] => c == 'Z' || c == 'z'
  | c :: rest =>
    (c == '+' || c == '-') &&
      match (do
        let (hour, rest) ← readFixed 2 rest
        let (minute, rest) ← readFixed 2 (← readMark ':' rest)
        return (hour ≤ 23 && minute ≤ 59 && rest.isEmpty)) with
      | some valid => valid
      | none => false

/-- Whether a text is a time of day, possibly in a time zone. -/
def isZonedTime (s : List Char) : Bool :=
  match afterTime s with
  | some rest => isOffset rest
  | none => false

/-- Reads a date, a time of day, or both with a letter between them. -/
def readMoment (s : List Char) : Option Toml :=
  let valid :=
    match afterDate s with
    | some [] => true
    | some (c :: time) => (c == 'T' || c == 't') && isZonedTime time
    | none => afterTime s == some []
  if valid then some (moment (String.ofList s)) else none

/-! ### Words -/

/-- A character of a value without quotes. -/
def isWordChar (c : Char) : Bool :=
  c.isAlphanum || c == '+' || c == '-' || c == '.' || c == '_' || c == ':'

/-- The word at the start of a text, and what follows it. A date goes on behind a blank when a time
of day stands there. -/
def readWord (s : List Char) : List Char × List Char :=
  let word := s.takeWhile isWordChar
  match s.drop word.length with
  | ' ' :: more =>
    let time := more.takeWhile isWordChar
    if afterDate word == some [] && isZonedTime time then
      (word ++ 'T' :: time, more.drop time.length)
    else (word, ' ' :: more)
  | rest => (word, rest)

/-- **Reads a value without quotes.** -/
def readScalar (s : List Char) : Option (Toml × List Char) := do
  let (word, rest) := readWord s
  let v ←
    if word == "true".toList then some (bool true)
    else if word == "false".toList then some (bool false)
    else (readInt word) <|> (readFloat word) <|> readMoment word
  return (v, rest)

end PatternQuery.Toml
