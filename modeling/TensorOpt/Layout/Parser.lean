import TensorOpt.Layout.Basic

namespace TensorOpt.Layout

def factorBound : Nat := UInt32.size

/-- Reads axes from left to right, `pending` being the block size read so far for the next one. -/
def readAxes : (pending : Option Nat) → List Char → Except Fault (List Axis)
  | none, [] => .ok []
  | some _, [] => .error .danglingFactor
  | pending, c :: cs =>
    if c.isDigit then
      let factor := pending.getD 0 * 10 + (c.toNat - '0'.toNat)
      if factor < factorBound then readAxes (some factor) cs else .error (.factorOverflow c)
    else if c.isUpper then
      match pending with
      | some _ => .error (.primalFactor c)
      | none => return ⟨none, c⟩ :: (← readAxes none cs)
    else if c.isLower then
      match pending with
      | some factor =>
        if 0 < factor then return ⟨some factor, c⟩ :: (← readAxes none cs)
        else .error (.missingFactor c)
      | none => .error (.missingFactor c)
    else .error (.unexpected c)

def repeated? : (seen : List Char) → List Axis → Option Char
  | _, [] => none
  | seen, a :: rest =>
    if a.letter ∈ seen then some a.letter else repeated? (a.letter :: seen) rest

def parse (text : String) : Except Invalid Layout :=
  match readAxes none text.toList with
  | .error fault => .error ⟨text, fault⟩
  | .ok axes =>
    match repeated? [] axes with
    | some c => .error ⟨text, .repeated c⟩
    | none => .ok ⟨text, axes⟩

end TensorOpt.Layout
