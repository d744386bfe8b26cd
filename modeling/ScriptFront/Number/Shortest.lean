/-! The shortest decimal of a binary number: of the decimals that round to the number, one with the
fewest digits and, among those, the closest; of two equally close ones the greater. Every step is
exact arithmetic on naturals. -/
namespace ScriptFront.Number

def twoTo (n : Nat) : Nat := Nat.pow 2 n
def tenTo (n : Nat) : Nat := Nat.pow 10 n

/-- The number `mantissa * 2 ^ exponent`. It is `narrow` when the gap to the number below is half
the gap to the number above. -/
structure Binary where
  mantissa : Nat
  exponent : Int
  narrow : Bool

/-- The number `digits * 10 ^ exponent`. -/
structure Decimal where
  digits : Nat
  exponent : Int

/-- The magnitude that the bits of a finite number stand for. -/
def Binary.ofBits (bits : UInt64) : Binary :=
  let fraction := bits.toNat % twoTo 52
  let scale := bits.toNat / twoTo 52 % twoTo 11
  if scale = 0 then ⟨fraction, -1074, false⟩
  else ⟨twoTo 52 + fraction, (scale : Int) - 1075, fraction == 0 && scale > 1⟩

/-! The decimals that round to a number lie between its two ends, which are counted in quarters of
its last place; they are included when the mantissa is even. -/

def Binary.quarters (b : Binary) : Nat := 4 * b.mantissa
def Binary.lowEnd (b : Binary) : Nat := b.quarters - if b.narrow then 1 else 2
def Binary.highEnd (b : Binary) : Nat := b.quarters + 2

/-- A quarter of the last place over a step of the grid `10 ^ grid`, as a fraction. -/
def Binary.quarterPerStep (b : Binary) (grid : Int) : Nat × Nat :=
  (twoTo (b.exponent - 2).toNat * tenTo (-grid).toNat,
    twoTo (2 - b.exponent).toNat * tenTo grid.toNat)

/-- Whether `steps * 10 ^ grid` rounds to the number. -/
def Binary.readsBack (b : Binary) (grid : Int) (steps : Nat) : Bool :=
  let (up, down) := b.quarterPerStep grid
  if b.mantissa % 2 = 0 then b.lowEnd * up ≤ steps * down && steps * down ≤ b.highEnd * up
  else b.lowEnd * up < steps * down && steps * down < b.highEnd * up

/-- The steps of the grid point that rounds to the number and is closest to it, if one does. -/
def Binary.onGrid? (b : Binary) (grid : Int) : Option Nat :=
  let (up, down) := b.quarterPerStep grid
  let below := b.quarters * up / down
  match b.readsBack grid below, b.readsBack grid (below + 1) with
  | true, true =>
    some (if 2 * (b.quarters * up) < (2 * below + 1) * down then below else below + 1)
  | true, false => some below
  | false, true => some (below + 1)
  | false, false => none

def digitCount (n : Nat) : Nat := (Nat.toDigits 10 n).length

/-- For a positive number, the least `k` with the number below `10 ^ k`. -/
def Binary.scale (b : Binary) : Int :=
  let up := b.mantissa * twoTo b.exponent.toNat
  let down := twoTo (-b.exponent).toNat
  if down ≤ up then digitCount (up / down) else 1 - (digitCount ((down - 1) / up) : Int)

/-- The number itself: no decimal is closer. -/
def Binary.exact (b : Binary) : Decimal :=
  if 0 ≤ b.exponent then ⟨b.mantissa * twoTo b.exponent.toNat, 0⟩
  else ⟨b.mantissa * Nat.pow 5 (-b.exponent).toNat, b.exponent⟩

/-- The same number without zeros at the end of its digits. -/
def Decimal.trim (d : Decimal) : Decimal :=
  if h : d.digits ≠ 0 ∧ d.digits % 10 = 0 then Decimal.trim ⟨d.digits / 10, d.exponent + 1⟩ else d
termination_by d.digits
decreasing_by all_goals omega

/-- Seventeen digits are enough for every number. -/
def Binary.shortest (b : Binary) : Decimal :=
  let found := (List.range 17).findSome? fun (n : Nat) =>
    let grid := b.scale - (n + 1)
    (b.onGrid? grid).map fun steps => Decimal.mk steps grid
  (found.getD b.exact).trim

end ScriptFront.Number
