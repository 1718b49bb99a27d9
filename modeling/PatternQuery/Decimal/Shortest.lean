/-!
# The shortest decimal of a double

A finite double is `m · 2 ^ q` with `m` a natural number. The reals that round to it form an
interval around it, and the text of the number is the shortest decimal inside that interval: the
fewest digits that read back to the same double, and among decimals with that many digits the
nearest one. Everything here is exact arithmetic on natural numbers; no step rounds.

For one digit, two digits, and so on up to seventeen, `shortest` looks at the value's two neighbours
on the decimal grid of that many digits. The first grid of which a neighbour lies in the interval
wins, the nearer neighbour is taken, and `Tie` settles what happens when both are equally near.
-/

namespace PatternQuery.Decimal

/-- The size of a finite double, without its sign: `mantissa · 2 ^ exponent`. -/
structure Binary where
  /-- The integer part of the representation, below `2 ^ 53`. -/
  mantissa : Nat
  /-- The power of two that scales it. -/
  exponent : Int
  /-- Whether the next smaller double is only half as far away as the next larger one, which happens
  at the powers of two. -/
  narrowBelow : Bool
  deriving Repr, DecidableEq

/-- Reads the size of a finite double off its bits. -/
def Binary.ofBits (bits : UInt64) : Binary :=
  let biased := (bits >>> 52).toNat % 2048
  let fraction := bits.toNat % 0x10000000000000
  if biased = 0 then ⟨fraction, -1074, false⟩
  else ⟨0x10000000000000 + fraction, (biased : Int) - 1075, fraction == 0 && biased != 1⟩

/-- A decimal: `digits · 10 ^ exponent`. -/
structure Scaled where
  digits : Nat
  exponent : Int
  deriving Repr, DecidableEq

/-- Which of two equally near neighbours is taken. -/
inductive Tie where
  /-- The one whose last digit is even. -/
  | toEven
  /-- The larger one. -/
  | up
  deriving Repr, DecidableEq

/-- The interval of the reals that round to a double, measured in quarters of the unit
`2 ^ exponent`, with the double itself in between. The ends belong to it when the mantissa is even,
because a real half way between two doubles rounds to the even one. -/
structure Interval where
  low : Nat
  value : Nat
  high : Nat
  closed : Bool

/-- The reals that round to a double. -/
def Binary.interval (b : Binary) : Interval :=
  ⟨4 * b.mantissa - (if b.narrowBelow then 1 else 2), 4 * b.mantissa, 4 * b.mantissa + 2,
    b.mantissa % 2 == 0⟩

/-- Whether a point, measured like the interval but with a common factor `unit`, lies inside. -/
def Interval.holds (i : Interval) (unit point : Nat) : Bool :=
  if i.closed then i.low * unit ≤ point && point ≤ i.high * unit
  else i.low * unit < point && point < i.high * unit

/-- The neighbour of the value on the grid of multiples of `10 ^ grid` that lies in the interval, if
there is one; of two, the nearer. -/
def Binary.neighbour? (b : Binary) (tie : Tie) (grid : Int) : Option Nat :=
  let quarters := b.exponent - 2
  -- One quarter of the unit and one step of the grid, brought to a common denominator.
  let unit := Nat.pow 2 quarters.toNat * Nat.pow 10 (-grid).toNat
  let step := Nat.pow 2 (-quarters).toNat * Nat.pow 10 grid.toNat
  let i := b.interval
  let below := i.value * unit / step
  let lowFits := i.holds unit (below * step)
  let highFits := i.holds unit ((below + 1) * step)
  match lowFits, highFits with
  | false, false => none
  | true, false => some below
  | false, true => some (below + 1)
  | true, true =>
    let twice := 2 * (i.value * unit)
    let middle := (2 * below + 1) * step
    if twice < middle then some below
    else if middle < twice then some (below + 1)
    else match tie with
      | .toEven => some (if below % 2 = 0 then below else below + 1)
      | .up => some (below + 1)

/-- The decimal exponent `k` of a positive double, for which `10 ^ (k - 1) ≤ value < 10 ^ k`. -/
def Binary.magnitude (b : Binary) : Int :=
  let above := b.mantissa * Nat.pow 2 b.exponent.toNat
  let under := Nat.pow 2 (-b.exponent).toNat
  let whole := above / under
  if whole ≠ 0 then (Nat.toDigits 10 whole).length
  else
    let shift := (Nat.toDigits 10 under).length - (Nat.toDigits 10 above).length
    if under ≤ above * Nat.pow 10 shift then 1 - (shift : Int) else -(shift : Int)

/-- Tries the grids of `count + 1`, `count + 2`, … digits, `fuel` of them at most. -/
def Binary.search (b : Binary) (tie : Tie) (magnitude : Int) : Nat → Nat → Scaled
  | 0, _ => ⟨b.mantissa, b.exponent⟩
  | fuel + 1, count =>
    let grid := magnitude - (count + 1 : Nat)
    match b.neighbour? tie grid with
    | some digits => ⟨digits, grid⟩
    | none => b.search tie magnitude fuel (count + 1)

/-- Moves the zeros at the end of the digits into the exponent, at most `fuel` of them. -/
def Scaled.trim : Nat → Scaled → Scaled
  | 0, d => d
  | fuel + 1, d =>
    if d.digits ≠ 0 ∧ d.digits % 10 = 0 then trim fuel ⟨d.digits / 10, d.exponent + 1⟩ else d

/-- **The shortest decimal of a double.** Seventeen digits always suffice, so the search ends on a
grid. Zero has the decimal `0 · 10 ^ 0`. -/
def Binary.shortest (b : Binary) (tie : Tie) : Scaled :=
  if b.mantissa = 0 then ⟨0, 0⟩
  else (b.search tie b.magnitude 17 0).trim 20

end PatternQuery.Decimal
