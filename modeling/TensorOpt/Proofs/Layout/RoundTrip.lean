import TensorOpt.Proofs.Layout.Grammar

namespace TensorOpt

open Layout (factorBound Token)

inductive Axis.Readable : Axis → Prop
  | primal {c : Char} (hc : c.isUpper) : Readable ⟨none, c⟩
  | block {n : Nat} {c : Char} (hpos : 0 < n) (hn : n < factorBound) (hc : c.isLower) :
    Readable ⟨some n, c⟩

namespace Layout

variable {text : String} {l : Layout} {axes : List Axis}

structure WellFormed (l : Layout) : Prop where
  readable : ∀ a ∈ l.axes, a.Readable
  letters : (l.axes.map Axis.letter).Nodup

theorem Token.readable (t : Token) : t.axis.Readable := by
  cases t with
  | primal c hc => exact .primal hc
  | block digits c _ _ hc hpos hbound => exact .block hpos hbound hc

/-- The written form of an axis is a token for it, which has no zeros in front. -/
theorem exists_token {a : Axis} (ha : a.Readable) :
    ∃ t : Token, t.axis = a ∧ t.chars = a.render.toList := by
  cases ha with
  | @primal c hc =>
    refine ⟨.primal c hc, rfl, ?_⟩
    simp [Token.chars, Axis.render]
  | @block n c hpos hn hc =>
    have hdigits : ∀ d ∈ Nat.toDigits 10 n, d.isDigit := fun d hd ↦
      Nat.isDigit_of_mem_toDigits (by decide) (by decide) hd
    have hvalue : decimal (Nat.toDigits 10 n) = n := Nat.ofDigitChars_ten_toDigits
    refine ⟨.block (Nat.toDigits 10 n) c Nat.toDigits_ne_nil hdigits hc (hvalue.symm ▸ hpos)
      (hvalue.symm ▸ hn), ?_, ?_⟩
    · rw [Token.axis, hvalue]
    · simp [Token.chars, Axis.render, toString, Nat.repr]

theorem exists_tokens_ofAxes (haxes : ∀ a ∈ axes, a.Readable) : ∃ ts : List Token,
    (ofAxes axes).name.toList = ts.flatMap Token.chars ∧ ts.map Token.axis = axes := by
  rw [ofAxes, String.toList_join, List.flatMap_map]
  induction axes with
  | nil => exact ⟨[], rfl, rfl⟩
  | cons a rest ih =>
    obtain ⟨ha, hrest⟩ := List.forall_mem_cons.1 haxes
    obtain ⟨t, rfl, ht⟩ := exists_token ha
    obtain ⟨ts, hts, rfl⟩ := ih hrest
    exact ⟨t :: ts, by rw [List.flatMap_cons, List.flatMap_cons, ht, hts], rfl⟩

theorem wellFormed_of_parse (h : parse text = .ok l) : l.name = text ∧ l.WellFormed := by
  obtain ⟨axes, hread, hnodup, rfl⟩ := parse_eq_ok_iff_readAxes.1 h
  obtain ⟨ts, -, rfl⟩ := readAxes_eq_ok_iff.1 hread
  refine ⟨rfl, fun a ha ↦ ?_, hnodup⟩
  obtain ⟨t, -, rfl⟩ := List.mem_map.1 ha
  exact t.readable

/-- A layout that has been read is read again as itself. -/
theorem parse_name (h : parse text = .ok l) : parse l.name = .ok l := by
  rwa [(wellFormed_of_parse h).1]

theorem parse_ofAxes (h : (ofAxes axes).WellFormed) :
    parse (ofAxes axes).name = .ok (ofAxes axes) := by
  obtain ⟨ts, hts, haxes⟩ := exists_tokens_ofAxes h.readable
  have hread := readAxes_eq_ok_iff.2 ⟨ts, hts, haxes.symm⟩
  exact parse_eq_ok_iff_readAxes.2 ⟨axes, hread, h.letters, rfl⟩

end Layout

end TensorOpt
