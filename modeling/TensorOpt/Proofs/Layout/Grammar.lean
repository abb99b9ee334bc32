import Mathlib.Algebra.Group.Nat.Defs
import Mathlib.Data.List.Nodup
import TensorOpt.Layout.Parser
import TensorOpt.Proofs.Except

namespace TensorOpt.Layout

variable {text : String} {l : Layout} {axes : List Axis} {cs digits : List Char}

def decimal (digits : List Char) : Nat := Nat.ofDigitChars 10 digits 0

/-- What an axis is written as: an upper-case letter for an axis of the tensor itself, and the block
size with a lower-case letter for a block. -/
inductive Token
  | primal (letter : Char) (isUpper : letter.isUpper)
  | block (digits : List Char) (letter : Char) (ne_nil : digits ≠ [])
    (isDigit : ∀ d ∈ digits, d.isDigit) (isLower : letter.isLower)
    (positive : 0 < decimal digits) (bounded : decimal digits < 2 ^ 32)

namespace Token

def chars : Token → List Char
  | primal c _ => [c]
  | block digits c .. => digits ++ [c]

def axis : Token → Axis
  | primal c _ => ⟨none, c⟩
  | block digits c .. => ⟨some (decimal digits), c⟩

def letter (t : Token) : Char := t.axis.letter

end Token

section Classes

variable {c : Char}

theorem not_isDigit_of_isUpper (hc : c.isUpper) : ¬ c.isDigit := by
  unfold Char.isUpper at hc
  unfold Char.isDigit
  simp only [Bool.and_eq_true, decide_eq_true_eq, ge_iff_le, UInt32.le_iff_toNat_le] at hc ⊢
  have hA : 'A'.val.toNat = 65 := rfl
  have h9 : '9'.val.toNat = 57 := rfl
  omega

theorem not_isDigit_of_isLower (hc : c.isLower) : ¬ c.isDigit := by
  unfold Char.isLower at hc
  unfold Char.isDigit
  simp only [Bool.and_eq_true, decide_eq_true_eq, ge_iff_le, UInt32.le_iff_toNat_le] at hc ⊢
  have ha : 'a'.val.toNat = 97 := rfl
  have h9 : '9'.val.toNat = 57 := rfl
  omega

theorem not_isUpper_of_isLower (hc : c.isLower) : ¬ c.isUpper := by
  unfold Char.isLower at hc
  unfold Char.isUpper
  simp only [Bool.and_eq_true, decide_eq_true_eq, ge_iff_le, UInt32.le_iff_toNat_le] at hc ⊢
  have ha : 'a'.val.toNat = 97 := rfl
  have hZ : 'Z'.val.toNat = 90 := rfl
  omega

end Classes

section Reads

theorem le_ofDigitChars (digits : List Char) (n : Nat) : n ≤ Nat.ofDigitChars 10 digits n := by
  induction digits generalizing n with
  | nil => exact Nat.le_of_eq Nat.ofDigitChars_nil.symm
  | cons d ds ih =>
    rw [Nat.ofDigitChars_cons]
    refine Nat.le_trans ?_ (ih _)
    omega

/-- Digits are collected into the block size of the next axis. No digit makes it smaller, so that it
has stayed in range if it is in range by the end. -/
theorem readAxes_digits (hdigits : ∀ d ∈ digits, d.isDigit) {n : Nat}
    (hn : Nat.ofDigitChars 10 digits n < factorBound) :
    readAxes (some n) (digits ++ cs) = readAxes (some (Nat.ofDigitChars 10 digits n)) cs := by
  induction digits generalizing n with
  | nil => rw [Nat.ofDigitChars_nil, List.nil_append]
  | cons d ds ih =>
    have hd : d.isDigit := hdigits d List.mem_cons_self
    rw [Nat.ofDigitChars_cons, Nat.mul_comm] at hn ⊢
    have hlt : n * 10 + (d.toNat - '0'.toNat) < factorBound :=
      Nat.lt_of_le_of_lt (le_ofDigitChars ds _) hn
    rw [List.cons_append, readAxes, if_pos hd]
    simp only [Option.getD_some, if_pos hlt]
    exact ih (fun d' hd' ↦ hdigits d' (List.mem_cons_of_mem d hd')) hn

theorem readAxes_decimal (hne : digits ≠ []) (hdigits : ∀ d ∈ digits, d.isDigit)
    (hbound : decimal digits < factorBound) :
    readAxes none (digits ++ cs) = readAxes (some (decimal digits)) cs := by
  obtain ⟨d, ds, rfl⟩ := List.exists_cons_of_ne_nil hne
  -- nothing collected yet counts as zero
  have hfirst : readAxes none (d :: ds ++ cs) = readAxes (some 0) (d :: ds ++ cs) := by
    have hd : d.isDigit := hdigits d List.mem_cons_self
    rw [List.cons_append, readAxes, readAxes, if_pos hd, if_pos hd]
    rfl
  rw [hfirst, readAxes_digits hdigits hbound, decimal]

theorem readAxes_token (t : Token) (cs : List Char) :
    readAxes none (t.chars ++ cs) = (readAxes none cs).map (t.axis :: ·) := by
  cases t with
  | primal c hc =>
    rw [Token.chars, List.singleton_append, readAxes, if_neg (not_isDigit_of_isUpper hc),
      if_pos hc]
    cases readAxes none cs <;> rfl
  | block digits c hne hdigits hc hpos hbound =>
    rw [Token.chars, List.append_assoc, readAxes_decimal hne hdigits hbound,
      List.singleton_append, readAxes, if_neg (not_isDigit_of_isLower hc),
      if_neg (not_isUpper_of_isLower hc), if_pos hc]
    simp only [if_pos hpos]
    cases readAxes none cs <;> rfl

theorem readAxes_tokens (ts : List Token) :
    readAxes none (ts.flatMap Token.chars) = .ok (ts.map Token.axis) := by
  induction ts with
  | nil => rfl
  | cons t rest ih =>
    rw [List.flatMap_cons, readAxes_token, ih]
    rfl

end Reads

section Accepts

structure Collected (digits : List Char) (pending : Option Nat) : Prop where
  isDigit : ∀ d ∈ digits, d.isDigit
  pending_eq : pending = if digits = [] then none else some (decimal digits)
  bounded : decimal digits < factorBound

theorem decimal_concat (digits : List Char) (c : Char) :
    decimal (digits ++ [c]) = decimal digits * 10 + (c.toNat - '0'.toNat) := by
  rw [decimal, Nat.ofDigitChars_append, Nat.ofDigitChars_cons, Nat.ofDigitChars_nil, Nat.mul_comm]
  rfl

namespace Collected

variable {pending : Option Nat} {n : Nat} {c : Char}

theorem nil : Collected [] none := ⟨nofun, rfl, by decide⟩

theorem eq_nil (h : Collected digits none) : digits = [] := by
  have hpending := h.pending_eq
  split at hpending
  next hnil => exact hnil
  next => cases hpending

theorem eq_some (h : Collected digits (some n)) : digits ≠ [] ∧ n = decimal digits := by
  have hpending := h.pending_eq
  split at hpending
  next => cases hpending
  next hne => exact ⟨hne, Option.some.inj hpending⟩

theorem getD_eq (h : Collected digits pending) : pending.getD 0 = decimal digits := by
  cases pending with
  | none => rw [h.eq_nil]; rfl
  | some n => exact h.eq_some.2

theorem concat (h : Collected digits pending) (hc : c.isDigit)
    (hbound : pending.getD 0 * 10 + (c.toNat - '0'.toNat) < factorBound) :
    Collected (digits ++ [c]) (some (pending.getD 0 * 10 + (c.toNat - '0'.toNat))) := by
  rw [h.getD_eq, ← decimal_concat] at hbound ⊢
  refine ⟨List.forall_mem_append.2 ⟨h.isDigit, List.forall_mem_singleton.2 hc⟩, ?_, hbound⟩
  rw [if_neg (List.concat_ne_nil _ _)]

end Collected

/-- Whatever the reader accepts, together with the digits it has collected before, is a sequence of
tokens. -/
theorem exists_tokens {pending : Option Nat} (hdigits : Collected digits pending)
    (h : readAxes pending cs = .ok axes) :
    ∃ ts : List Token, digits ++ cs = ts.flatMap Token.chars ∧ axes = ts.map Token.axis := by
  fun_induction readAxes pending cs generalizing digits axes with
  | case1 =>
    cases h
    exact ⟨[], by rw [hdigits.eq_nil]; rfl, rfl⟩
  | case2 => cases h
  | case3 pending c cs hc factor hfactor =>
    rename_i ih
    obtain ⟨ts, hts, haxes⟩ := ih (hdigits.concat hc hfactor) h
    rw [List.append_assoc] at hts
    exact ⟨ts, hts, haxes⟩
  | case4 => cases h
  | case5 => cases h
  | case6 c cs hc hupper ih =>
    obtain ⟨rest, hrest, h⟩ := Except.bind_eq_ok.1 h
    cases h
    obtain ⟨ts, hts, rfl⟩ := ih .nil hrest
    refine ⟨.primal c hupper :: ts, ?_, rfl⟩
    rw [hdigits.eq_nil, List.flatMap_cons, ← hts]
    rfl
  | case7 c cs hc hupper hlower factor hfactor ih =>
    obtain ⟨rest, hrest, h⟩ := Except.bind_eq_ok.1 h
    cases h
    obtain ⟨ts, hts, rfl⟩ := ih .nil hrest
    obtain ⟨hne, rfl⟩ := hdigits.eq_some
    refine ⟨.block digits c hne hdigits.isDigit hlower hfactor hdigits.bounded :: ts, ?_, rfl⟩
    rw [List.flatMap_cons, ← hts]
    exact (List.append_assoc digits [c] cs).symm
  | case8 => cases h
  | case9 => cases h
  | case10 => cases h

theorem readAxes_eq_ok_iff : readAxes none cs = .ok axes ↔
    ∃ ts : List Token, cs = ts.flatMap Token.chars ∧ axes = ts.map Token.axis := by
  constructor
  · exact exists_tokens .nil
  · rintro ⟨ts, rfl, rfl⟩
    exact readAxes_tokens ts

theorem repeated?_eq_none {seen : List Char} :
    repeated? seen axes = none ↔ (axes.map Axis.letter).Nodup ∧ ∀ a ∈ axes, a.letter ∉ seen := by
  fun_induction repeated? seen axes with
  | case1 => simp
  | case2 seen a rest ha => simp [ha]
  | case3 seen a rest ha ih =>
    rw [ih, List.forall_mem_cons, List.map_cons, List.nodup_cons, List.mem_map]
    simp only [List.mem_cons, not_or]
    constructor
    · rintro ⟨hnodup, hrest⟩
      refine ⟨⟨?_, hnodup⟩, ha, fun b hb ↦ (hrest b hb).2⟩
      rintro ⟨b, hb, hab⟩
      exact (hrest b hb).1 hab
    · rintro ⟨⟨hfirst, hnodup⟩, -, hrest⟩
      exact ⟨hnodup, fun b hb ↦ ⟨fun hab ↦ hfirst ⟨b, hb, hab⟩, hrest b hb⟩⟩

theorem parse_eq_ok_iff_readAxes : parse text = .ok l ↔ ∃ axes,
    readAxes none text.toList = .ok axes ∧ (axes.map Axis.letter).Nodup ∧ l = ⟨text, axes⟩ := by
  have hnone (axes : List Axis) : repeated? [] axes = none ↔ (axes.map Axis.letter).Nodup := by
    rw [repeated?_eq_none]
    exact and_iff_left fun _ _ ↦ List.not_mem_nil
  simp only [← hnone, parse]
  constructor
  · intro h
    split at h
    next => cases h
    next axes hread =>
      split at h
      next => cases h
      next hrepeated =>
        cases h
        exact ⟨axes, hread, hrepeated, rfl⟩
  · rintro ⟨axes, hread, hrepeated, rfl⟩
    simp only [hread, hrepeated]

theorem parse_eq_ok_iff : parse text = .ok l ↔ ∃ ts : List Token,
    text.toList = ts.flatMap Token.chars ∧ (ts.map Token.letter).Nodup ∧
      l = ⟨text, ts.map Token.axis⟩ := by
  have hletters (ts : List Token) : (ts.map Token.axis).map Axis.letter = ts.map Token.letter :=
    List.map_map
  simp only [parse_eq_ok_iff_readAxes, readAxes_eq_ok_iff]
  constructor
  · rintro ⟨_, ⟨ts, hts, rfl⟩, hnodup, rfl⟩
    exact ⟨ts, hts, hletters ts ▸ hnodup, rfl⟩
  · rintro ⟨ts, hts, hnodup, rfl⟩
    exact ⟨_, ⟨ts, hts, rfl⟩, (hletters ts).symm ▸ hnodup, rfl⟩

end Accepts

section Positions

theorem eq_of_letter_eq (hl : (l.axes.map Axis.letter).Nodup) {a b : Axis} (ha : a ∈ l.axes)
    (hb : b ∈ l.axes) (hab : a.letter = b.letter) : a = b :=
  List.inj_on_of_nodup_map hl ha hb hab

/-- Looking up an axis of the layout by its letter finds the axis itself. -/
theorem indexOf?_eq_some {a : Axis} {j : Nat} (hl : (l.axes.map Axis.letter).Nodup)
    (ha : a ∈ l.axes) : l.indexOf? a = some j ↔ l.axes[j]? = some a := by
  rw [indexOf?, List.findIdx?_eq_some_iff_getElem]
  constructor
  · rintro ⟨hj, hletter, -⟩
    have heq : l.axes[j] = a :=
      eq_of_letter_eq hl (List.getElem_mem hj) ha (by simpa using hletter)
    rw [List.getElem?_eq_getElem hj, heq]
  · intro h
    obtain ⟨hj, rfl⟩ := List.getElem?_eq_some_iff.1 h
    refine ⟨hj, beq_self_eq_true _, fun k hk hletter ↦ Nat.ne_of_lt hk ?_⟩
    have heq : l.axes[k] = l.axes[j] :=
      eq_of_letter_eq hl (List.getElem_mem _) ha (by simpa using hletter)
    exact (List.Nodup.of_map _ hl).getElem_inj_iff.1 heq

end Positions

/-- A text is read as a layout exactly if it is a sequence of tokens, of which there may be none,
and their letters all differ. The layout has the text as its name and the axes of the tokens in
their order, and each of these is found at its own position. -/
theorem parse_accepts_tokens (text : String) :
    (∀ l, parse text = .ok l ↔ ∃ ts : List Token, text.toList = ts.flatMap Token.chars ∧
      (ts.map Token.letter).Nodup ∧ l = ⟨text, ts.map Token.axis⟩) ∧
    ∀ l, parse text = .ok l →
      l.name = text ∧ ∀ i (hi : i < l.axes.length), l.indexOf? l.axes[i] = some i := by
  refine ⟨fun l ↦ parse_eq_ok_iff, fun l h ↦ ?_⟩
  obtain ⟨axes, -, hnodup, rfl⟩ := parse_eq_ok_iff_readAxes.1 h
  refine ⟨rfl, fun i hi ↦ ?_⟩
  exact (indexOf?_eq_some hnodup (List.getElem_mem hi)).2 (List.getElem?_eq_getElem hi)

theorem parse_accepts_tokens_leadingZeros :
    let l : Layout := ⟨"N008cH", [⟨none, 'N'⟩, ⟨some 8, 'c'⟩, ⟨none, 'H'⟩]⟩
    parse "N008cH" = .ok l ∧ l.indexOf? ⟨some 8, 'c'⟩ = some 1 := by
  intro l
  obtain ⟨hiff, hindex⟩ := parse_accepts_tokens "N008cH"
  let ts : List Token := [.primal 'N' (by decide),
    .block ['0', '0', '8'] 'c' (by decide) (List.all_eq_true.1 rfl) (by decide) (by decide)
      (by decide),
    .primal 'H' (by decide)]
  have hparse : parse "N008cH" = .ok l := (hiff l).2 ⟨ts, by decide, by decide, by decide⟩
  exact ⟨hparse, (hindex l hparse).2 1 (by decide)⟩

-- the last digit takes the size of the block out of range
example : parse "N4294967296c" = .error ⟨"N4294967296c", .factorOverflow '6'⟩ := by decide

end TensorOpt.Layout
