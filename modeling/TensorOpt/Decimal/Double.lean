import TensorOpt.Decimal.Shortest

namespace TensorOpt

namespace Decimal

/-- The exponents of the leading digit for which a number is written without an exponent. -/
structure Style where
  least : Int
  most : Int

def zeros (n : Nat) : String := "".pushn '0' n

def positional (d : Decimal) : String :=
  let digits := toString d.digits
  if 0 ≤ d.exponent then digits ++ zeros d.exponent.toNat ++ ".0"
  else
    let places := (-d.exponent).toNat
    if digits.length ≤ places then "0." ++ zeros (places - digits.length) ++ digits
    else
      let whole := digits.length - places
      String.ofList (digits.toList.take whole) ++ "." ++ String.ofList (digits.toList.drop whole)

def scientific (d : Decimal) : String :=
  let digits := (toString d.digits).toList
  let exponent := d.exponent + digits.length - 1
  let mantissa := match digits with
    | d :: e :: rest => d :: '.' :: e :: rest
    | _ => digits
  String.ofList mantissa ++ "e" ++ toString exponent

def render (style : Style) (d : Decimal) : String :=
  let leading := d.exponent + (toString d.digits).length - 1
  if style.least ≤ leading ∧ leading ≤ style.most then positional d else scientific d

end Decimal

/-- What the bits of a 64-bit floating-point value stand for. -/
inductive Double
  | nan
  | infinite (negative : Bool)
  | zero (negative : Bool)
  | finite (negative : Bool) (interval : Decimal.Interval)

namespace Double

def ofBits (bits : UInt64) : Double :=
  let n := bits.toNat
  let negative := Nat.pow 2 63 ≤ n
  let exponent : Nat := n / Nat.pow 2 52 % Nat.pow 2 11
  let fraction : Nat := n % Nat.pow 2 52
  if exponent = 2047 then if fraction = 0 then infinite negative else nan
  else if exponent = 0 then
    if fraction = 0 then zero negative else finite negative (.ofBinary fraction (-1074) false)
  else
    finite negative (.ofBinary (Nat.pow 2 52 + fraction) ((exponent : Int) - 1075) (fraction = 0))

def style : Decimal.Style := ⟨-4, 15⟩

def sign (negative : Bool) : String := if negative then "-" else ""

def render : Double → String
  | nan => "NaN"
  | infinite negative => sign negative ++ "inf"
  | zero negative => sign negative ++ "0.0"
  | finite negative v => sign negative ++ Decimal.render style v.shortest

end Double

end TensorOpt
