import Std.Data.TreeSet

namespace TensorOpt

variable {α : Type} {cmp : α → α → Ordering}

def unseen (items : List α) (seen : Std.TreeSet α cmp) : Nat :=
  items.countP fun a ↦ !seen.contains a

theorem unseen_cons (b : α) (items : List α) (seen : Std.TreeSet α cmp) :
    unseen (b :: items) seen = unseen items seen + if seen.contains b then 0 else 1 := by
  rw [unseen, unseen, List.countP_cons]
  cases seen.contains b <;> rfl

variable [Std.TransCmp cmp] {items : List α} {seen : Std.TreeSet α cmp} {a : α}

theorem unseen_insert_le : unseen items (seen.insert a) ≤ unseen items seen := by
  refine List.countP_mono_left fun c _ hc ↦ ?_
  rw [Std.TreeSet.contains_insert] at hc
  cases h : seen.contains c
  · rfl
  · rw [h, Bool.or_true] at hc
    cases hc

theorem unseen_insert_lt [Std.LawfulEqCmp cmp] (ha : a ∈ items) (hs : a ∉ seen) :
    unseen items (seen.insert a) < unseen items seen := by
  induction items with
  | nil => cases ha
  | cons b rest ih =>
    rw [unseen_cons, unseen_cons, Std.TreeSet.contains_insert]
    have hle : unseen rest (seen.insert a) ≤ unseen rest seen := unseen_insert_le
    by_cases hab : a = b
    · subst hab
      have hc : seen.contains a = false := by
        rw [← Bool.not_eq_true]
        exact hs
      have hself : cmp a a = .eq := Std.ReflCmp.compare_self
      rw [hc, hself]
      exact Nat.lt_succ_of_le hle
    · have hlt := ih ((List.mem_cons.1 ha).resolve_left hab)
      have hne : (cmp a b == .eq) = false :=
        beq_false_of_ne fun h ↦ hab (Std.LawfulEqCmp.compare_eq_iff_eq.1 h)
      rw [hne, Bool.false_or]
      exact Nat.add_lt_add_right hlt _

end TensorOpt
