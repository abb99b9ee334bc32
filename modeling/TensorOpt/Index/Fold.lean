import TensorOpt.Index.Basic

namespace TensorOpt.Index

/-- The constant, or the plain node where the arithmetic has no answer. -/
def intOr (node : Index) : Option Word → Index
  | some v => int v
  | none => node

def mkAdd (a b : Index) : Index :=
  match a.int?, b.int? with
  | some x, some y => intOr (add a b) (x.add? y)
  | some x, none => if x = 0 then b else add a b
  | none, some y => if y = 0 then a else add a b
  | none, none => add a b

def mkSub (a b : Index) : Index :=
  match a.int?, b.int? with
  | some x, some y => intOr (sub a b) (x.sub? y)
  | some _, none => sub a b
  | none, some y => if y = 0 then a else sub a b
  | none, none => if a = b then int 0 else sub a b

def mkMul (a b : Index) : Index :=
  match a.int?, b.int? with
  | some x, some y => intOr (mul a b) (x.mul? y)
  | some x, none => if x = 1 then b else if x = 0 then a else mul a b
  | none, some y => if y = 1 then a else if y = 0 then b else mul a b
  | none, none => mul a b

def mkFloorDiv (a b : Index) : Index :=
  match a.int?, b.int? with
  | some x, some y => intOr (floorDiv a b) (x.floorDiv? y)
  | some x, none => if x = 0 then a else floorDiv a b
  | none, some y => if y = 1 then a else floorDiv a b
  | none, none => floorDiv a b

def mkFloorMod (a b : Index) : Index :=
  match a.int?, b.int? with
  | some x, some y => intOr (floorMod a b) (x.floorMod? y)
  | some x, none => if x = 0 then a else floorMod a b
  | none, some y => if y = 1 then int 0 else floorMod a b
  | none, none => floorMod a b

def mkRamp (base stride : Index) (lanes : UInt16) : Index :=
  if lanes = 1 then base else ramp base stride lanes

def mkAddTo : Option Index → Index → Index
  | none, e => e
  | some s, e => mkAdd s e

/-- Rebuilds an expression bottom up through the folding constructors. -/
def fold : Index → Index
  | int v => int v
  | var x => var x
  | add a b => mkAdd a.fold b.fold
  | sub a b => mkSub a.fold b.fold
  | mul a b => mkMul a.fold b.fold
  | floorDiv a b => mkFloorDiv a.fold b.fold
  | floorMod a b => mkFloorMod a.fold b.fold
  | ramp a b n => mkRamp a.fold b.fold n

theorem one_le_size (e : Index) : 1 ≤ e.size := by cases e <;> simp [size]

theorem size_intOr_le {node : Index} {v : Option Word} : (intOr node v).size ≤ node.size := by
  cases v with
  | none => exact Nat.le_refl _
  | some w => exact one_le_size node

theorem size_mkAdd_le (a b : Index) : (mkAdd a b).size ≤ a.size + b.size + 1 := by
  unfold mkAdd
  split
  · exact size_intOr_le
  all_goals grind [size]

theorem size_mkMul_le (a b : Index) : (mkMul a b).size ≤ a.size + b.size + 1 := by
  unfold mkMul
  split
  · exact size_intOr_le
  all_goals grind [size]

end TensorOpt.Index
