namespace TensorOpt

/-- The signed 64-bit integers in which extents, attributes and addresses are held. -/
abbrev Word := Int64

namespace Word

/-- The word with value `n`, if there is one. -/
def ofInt? (n : Int) : Option Word :=
  if Int64.minValue.toInt ≤ n ∧ n ≤ Int64.maxValue.toInt then some (Int64.ofInt n) else none

theorem ofInt?_eq_some_iff {n : Int} {w : Word} : ofInt? n = some w ↔ w.toInt = n := by
  unfold ofInt?
  constructor
  · intro h
    split at h
    · next hn =>
      cases h
      rw [Int64.toInt_minValue, Int64.toInt_maxValue] at hn
      exact Int64.toInt_ofInt_of_le hn.1 (Int.lt_of_le_sub_one hn.2)
    · cases h
  · rintro rfl
    rw [if_pos ⟨w.minValue_le_toInt, w.toInt_le⟩, Int64.ofInt_toInt]

def add? (a b : Word) : Option Word := ofInt? (a.toInt + b.toInt)

def sub? (a b : Word) : Option Word := ofInt? (a.toInt - b.toInt)

def mul? (a b : Word) : Option Word := ofInt? (a.toInt * b.toInt)

def div? (a b : Word) : Option Word :=
  if b = 0 then none else ofInt? (a.toInt.tdiv b.toInt)

/-- The remainder of the division that rounds towards zero; it is missing where the quotient is. -/
def rem? (a b : Word) : Option Word := (a.div? b).map fun _ ↦ a % b

/-- The remainder is on the wrong side of zero for a division by `b` that rounds down. -/
def Misaligned (r b : Word) : Prop := r ≠ 0 ∧ (r < 0 ↔ ¬ b < 0)

instance (r b : Word) : Decidable (Misaligned r b) :=
  inferInstanceAs (Decidable (_ ∧ (_ ↔ _)))

/-- The quotient rounded down: the truncated quotient, one less where truncation rounded up. -/
def floorDiv? (a b : Word) : Option Word := do
  let q ← a.div? b
  let r ← a.rem? b
  if Misaligned r b then q.sub? 1 else some q

/-- The remainder of the division that rounds down; it has the sign of `b`. -/
def floorMod? (a b : Word) : Option Word := do
  let r ← a.rem? b
  if Misaligned r b then r.add? b else some r

def render (a : Word) : String := toString a.toInt

end Word

end TensorOpt
