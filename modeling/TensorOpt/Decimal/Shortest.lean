namespace TensorOpt

/-- The number `digits * 10 ^ exponent`. -/
structure Decimal where
  digits : Nat
  exponent : Int
deriving DecidableEq, Repr

namespace Decimal

/-- A positive number `value / scale` with the ends of the interval that reads back as it. The ends
themselves belong to the interval if `closed`. -/
structure Interval where
  lower : Nat
  value : Nat
  upper : Nat
  scale : Nat
  closed : Bool
deriving Repr

namespace Interval

/-- The interval of `significand * 2 ^ exponent`, whose neighbours are one unit away, or half a unit
below if `narrow`. -/
def ofBinary (significand : Nat) (exponent : Int) (narrow : Bool) : Interval where
  lower := (4 * significand - if narrow then 1 else 2) * Nat.pow 2 (exponent - 2).toNat
  value := 4 * significand * Nat.pow 2 (exponent - 2).toNat
  upper := (4 * significand + 2) * Nat.pow 2 (exponent - 2).toNat
  scale := Nat.pow 2 (2 - exponent).toNat
  closed := significand % 2 = 0

def digitCount (n : Nat) : Nat := (Nat.toDigits 10 n).length

def magnitude (v : Interval) : Int :=
  if v.scale ≤ v.value then digitCount (v.value / v.scale) - 1
  else -digitCount ((v.scale + v.value - 1) / v.value - 1)

def contains (v : Interval) (d : Decimal) : Bool :=
  let point := d.digits * Nat.pow 10 d.exponent.toNat * v.scale
  let shift := Nat.pow 10 (-d.exponent).toNat
  if v.closed then v.lower * shift ≤ point && point ≤ v.upper * shift
  else v.lower * shift < point && point < v.upper * shift

/-- The decimal next to the value on the grid of `10 ^ exponent`, if one of its two neighbours there
lies in the interval. A value midway between two of them goes up. -/
def nearest? (v : Interval) (exponent : Int) : Option Decimal :=
  let unit := Nat.pow 10 exponent.toNat * v.scale
  let point := v.value * Nat.pow 10 (-exponent).toNat
  let below : Decimal := ⟨point / unit, exponent⟩
  let above : Decimal := ⟨point / unit + 1, exponent⟩
  match v.contains below, v.contains above with
  | true, true => some (if unit ≤ 2 * (point % unit) then above else below)
  | true, false => some below
  | false, true => some above
  | false, false => none

/-- The shortest decimal in the interval; seventeen digits always suffice. -/
def shortest (v : Interval) : Decimal :=
  match (List.range 17).findSome? fun (i : Nat) ↦ v.nearest? (v.magnitude - i) with
  | some ⟨10, e⟩ => ⟨1, e + 1⟩
  | some d => d
  | none => ⟨0, 0⟩

end Interval

end Decimal

end TensorOpt
