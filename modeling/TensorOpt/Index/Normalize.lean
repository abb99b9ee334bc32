import TensorOpt.Index.Cancel

namespace TensorOpt.Index

abbrev Simplifier := Index → Index

structure Terms where
  rest : Option Index := none
  products : List Product := []
  mods : List Remainder := []

namespace Terms

def weight (t : Terms) : Nat :=
  totalSize Product.size t.products + totalSize Remainder.size t.mods

def insert (t : Terms) : Index → Terms
  | mul a b => { t with products := t.products ++ [⟨a, b⟩] }
  | floorMod a b => { t with mods := t.mods ++ [⟨a, b⟩] }
  | e => { t with rest := some (mkAddTo t.rest e) }

def insertAll (t : Terms) (es : List Index) : Terms := es.foldl insert t

def ofIndex (e : Index) : Terms := insertAll {} e.addends

def toIndex (t : Terms) : Index :=
  let terms := t.products.map Product.toIndex ++
    t.mods.map fun m ↦ mkFloorMod m.dividend m.divisor
  match terms.foldl (fun sum e ↦ some (mkAddTo sum e)) t.rest with
  | some sum => sum
  | none => int 0

theorem weight_insert_le (t : Terms) (e : Index) : (t.insert e).weight ≤ t.weight + e.size := by
  cases e
  case mul => simp [insert, weight, Product.size, Product.toIndex]; omega
  case floorMod => simp [insert, weight, Remainder.size, Remainder.toIndex]; omega
  all_goals simp [insert, weight]

theorem weight_insertAll_le (t : Terms) (es : List Index) :
    (t.insertAll es).weight ≤ t.weight + totalSize size es := by
  induction es generalizing t with
  | nil => exact Nat.le_refl _
  | cons e es ih =>
    have h₁ := ih (t.insert e)
    have h₂ := weight_insert_le t e
    simp only [insertAll, List.foldl_cons, totalSize_cons] at *
    omega

end Terms

theorem totalSize_addends_le (e : Index) : totalSize size e.addends ≤ e.size := by
  fun_induction addends e with
  | case1 a b iha ihb => simp only [totalSize_append, size]; omega
  | case2 => simp

def isProduct : Index → Bool
  | mul .. => true
  | _ => false

namespace Terms

/-- Tries the remainders of `t` in turn, those in `tried` having found no partner. What a pair
becomes is taken apart and joins the terms; only if that brings a new product do the remainders
tried before get another chance. -/
def cancelAll (t : Terms) (tried : List Remainder) : Terms :=
  match _mods : t.mods with
  | [] => { t with mods := tried }
  | m :: pending =>
    match _absorbed : m.absorb? t.products with
    | none => cancelAll { t with mods := pending } (tried ++ [m])
    | some (e, products) =>
      if e.addends.any isProduct then
        cancelAll (insertAll { t with products, mods := tried ++ pending } e.addends) []
      else
        cancelAll (insertAll { t with products, mods := pending } e.addends) tried
termination_by (t.weight + totalSize Remainder.size tried, t.mods.length)
decreasing_by
  · apply Prod.Lex.right'
    · simp only [weight, _mods, totalSize_append, totalSize_cons, totalSize_nil]
      omega
    · simp [_mods]
  all_goals
    apply Prod.Lex.left
    have h₁ := Remainder.size_absorb?_lt _absorbed
    have h₂ := totalSize_addends_le e
  · have h₃ := weight_insertAll_le { t with products, mods := tried ++ pending } e.addends
    simp only [weight, _mods, totalSize_append, totalSize_cons, totalSize_nil] at *
    omega
  · have h₃ := weight_insertAll_le { t with products, mods := pending } e.addends
    simp only [weight, _mods, totalSize_cons] at *
    omega

def Cancels (t : Terms) : Prop := ∃ p ∈ t.products, ∃ m ∈ t.mods, (cancel? p m).isSome

instance (t : Terms) : Decidable t.Cancels :=
  inferInstanceAs (Decidable (∃ p ∈ t.products, ∃ m ∈ t.mods, (cancel? p m).isSome))

end Terms

/-- Prepares `e` and cancels all products against remainders. An expression in which nothing
cancels keeps its form. -/
def normalize (prepare : Simplifier) (e : Index) : Index :=
  let prepared := prepare e
  let terms := Terms.ofIndex prepared
  if terms.Cancels then (terms.cancelAll []).toIndex else prepared

end TensorOpt.Index
