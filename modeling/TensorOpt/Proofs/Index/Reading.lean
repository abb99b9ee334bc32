import TensorOpt.Proofs.Index.Tokens

namespace TensorOpt.Index

/-- What is read next. At `terms a` and `factors a`, the sum or the product `a` has been read, and
more may follow. -/
inductive Stage
  | sum
  | terms (a : Index)
  | product
  | factors (a : Index)
  | factor

/-- `Reads s ts e rest` if `e` is read from the front of `ts` and `rest` is left. -/
inductive Reads : Stage → List Token → Index → List Token → Prop
  | sum {ts m rest : List Token} {a e : Index} (first : Reads .product ts a m)
    (more : Reads (.terms a) m e rest) : Reads .sum ts e rest
  | plus {ts m rest : List Token} {a b e : Index} (next : Reads .product ts b m)
    (more : Reads (.terms (a.add b)) m e rest) : Reads (.terms a) (.sign .plus :: ts) e rest
  | minus {ts m rest : List Token} {a b e : Index} (next : Reads .product ts b m)
    (more : Reads (.terms (a.sub b)) m e rest) : Reads (.terms a) (.sign .minus :: ts) e rest
  | lastTerm {rest : List Token} {a : Index} (last : ∀ s, rest.head? ≠ some (.sign s)) :
    Reads (.terms a) rest a rest
  | product {ts m rest : List Token} {a e : Index} (first : Reads .factor ts a m)
    (more : Reads (.factors a) m e rest) : Reads .product ts e rest
  | times {ts m rest : List Token} {a b e : Index} (next : Reads .factor ts b m)
    (more : Reads (.factors (a.mul b)) m e rest) : Reads (.factors a) (.sign .times :: ts) e rest
  | lastFactor {rest : List Token} {a : Index} (last : rest.head? ≠ some (.sign .times)) :
    Reads (.factors a) rest a rest
  | int {text : String} {rest : List Token} {v : Word} (htext : v.render = text) :
    Reads .factor (.word text :: rest) (int v) rest
  | var {x : String} {rest : List Token} (hx : Identifier x) :
    Reads .factor (.word x :: rest) (var x) rest
  | group {ts rest : List Token} {e : Index} (inner : Reads .sum ts e (.closing :: rest)) :
    Reads .factor (.opening .group :: ts) e rest
  | floorDiv {ts m rest : List Token} {a b : Index} (first : Reads .sum ts a (.comma :: m))
    (second : Reads .sum m b (.closing :: rest)) :
    Reads .factor (.opening .floorDiv :: ts) (a.floorDiv b) rest
  | floorMod {ts m rest : List Token} {a b : Index} (first : Reads .sum ts a (.comma :: m))
    (second : Reads .sum m b (.closing :: rest)) :
    Reads .factor (.opening .floorMod :: ts) (a.floorMod b) rest
  | ramp {ts m rest : List Token} {a b : Index} {text : String} {n : UInt16}
    (first : Reads .sum ts a (.comma :: m))
    (second : Reads .sum m b (.comma :: .word text :: .closing :: rest))
    (htext : toString n.toNat = text) : Reads .factor (.opening .ramp :: ts) (a.ramp b n) rest

variable {s : Stage} {m ts rest rest' : List Token} {a b e e' : Index}

theorem Reads.unique (h : Reads s ts e rest) (h' : Reads s ts e' rest') :
    e = e' ∧ rest = rest' := by
  induction h generalizing e' rest' with
  | sum _ _ ihfirst ihmore | product _ _ ihfirst ihmore =>
    cases h'
    next first' more' =>
      obtain ⟨rfl, rfl⟩ := ihfirst first'
      exact ihmore more'
  | plus _ _ ihnext ihmore | minus _ _ ihnext ihmore =>
    cases h'
    case lastTerm last => exact absurd rfl (last _)
    next next' more' =>
      obtain ⟨rfl, rfl⟩ := ihnext next'
      exact ihmore more'
  | lastTerm last =>
    cases h' with
    | plus | minus => exact absurd rfl (last _)
    | lastTerm => exact ⟨rfl, rfl⟩
  | times _ _ ihnext ihmore =>
    cases h' with
    | times next' more' =>
      obtain ⟨rfl, rfl⟩ := ihnext next'
      exact ihmore more'
    | lastFactor last => exact absurd rfl last
  | lastFactor last =>
    cases h' with
    | times => exact absurd rfl last
    | lastFactor => exact ⟨rfl, rfl⟩
  | int htext =>
    cases h' with
    | int htext' =>
      have hvalue := Int.repr_injective (htext.trans htext'.symm)
      exact ⟨congrArg Index.int (Int64.toInt_inj.1 hvalue), rfl⟩
    | var hx => exact absurd (htext ▸ hx) (not_identifier_numeral _)
  | var hx =>
    cases h' with
    | int htext => exact absurd (htext ▸ hx) (not_identifier_numeral _)
    | var => exact ⟨rfl, rfl⟩
  | group _ ih =>
    cases h' with
    | group inner' =>
      obtain ⟨rfl, hrest⟩ := ih inner'
      exact ⟨rfl, (List.cons.inj hrest).2⟩
  | floorDiv _ _ ihfirst ihsecond | floorMod _ _ ihfirst ihsecond =>
    cases h'
    next first' second' =>
      obtain ⟨rfl, hm⟩ := ihfirst first'
      cases hm
      obtain ⟨rfl, hrest⟩ := ihsecond second'
      exact ⟨rfl, (List.cons.inj hrest).2⟩
  | ramp _ _ htext ihfirst ihsecond =>
    cases h' with
    | ramp first' second' htext' =>
      obtain ⟨rfl, hm⟩ := ihfirst first'
      cases hm
      obtain ⟨rfl, hrest⟩ := ihsecond second'
      cases hrest
      have hlanes := Nat.repr_injective (htext.trans htext'.symm)
      exact ⟨congrArg _ (UInt16.toNat_inj.1 hlanes), rfl⟩

/-- Where a sum may go on, the product before is complete. -/
theorem Reads.lastFactor_of_terms (h : Reads (.terms a) m e rest) : Reads (.factors b) m b m := by
  cases h with
  | plus | minus => exact .lastFactor nofun
  | lastTerm last => exact .lastFactor (last .times)

/-- An expression is read as itself where a sum, a product or a factor is expected, with brackets if
the place requires them. What comes after a sum or a product may continue it. -/
structure ReadsBack (e : Index) : Prop where
  sum {m rest : List Token} {e' : Index} (more : Reads (.terms e) m e' rest) :
    Reads .sum (e.tokens ++ m) e' rest
  product {m rest : List Token} {e' : Index} (more : Reads (.factors e) m e' rest) :
    Reads .product (bracketedTokens 2 e e.tokens ++ m) e' rest
  factor (m : List Token) : Reads .factor (bracketedTokens 3 e e.tokens ++ m) e m

namespace ReadsBack

theorem alone (h : ReadsBack e) (last : ∀ s, m.head? ≠ some (.sign s)) :
    Reads .sum (e.tokens ++ m) e m := h.sum (.lastTerm last)

theorem before_comma (h : ReadsBack e) : Reads .sum (e.tokens ++ .comma :: m) e (.comma :: m) :=
  h.alone nofun

theorem before_closing (h : ReadsBack e) :
    Reads .sum (e.tokens ++ .closing :: m) e (.closing :: m) := h.alone nofun

theorem of_factor (hstrength : e.strength = 3)
    (hfactor : ∀ m, Reads .factor (e.tokens ++ m) e m) : ReadsBack e where
  sum more := .sum (.product (hfactor _) more.lastFactor_of_terms) more
  product more := by
    rw [bracketedTokens_of_le (by omega)]
    exact .product (hfactor _) more
  factor m := by
    rw [bracketedTokens_of_le (by omega)]
    exact hfactor m

/-- In brackets, every expression is a factor. -/
theorem factor_of_sum {needed : Nat} (hstrength : e.strength < needed)
    (hsum : ∀ m, Reads .sum (e.tokens ++ .closing :: m) e (.closing :: m)) (m : List Token) :
    Reads .factor (bracketedTokens needed e e.tokens ++ m) e m := by
  rw [bracketedTokens_of_lt hstrength, List.cons_append, List.append_assoc]
  exact .group (hsum m)

theorem of_product (hstrength : e.strength = 2)
    (hproduct : ∀ {m rest : List Token} {e' : Index}, Reads (.factors e) m e' rest →
      Reads .product (e.tokens ++ m) e' rest) : ReadsBack e where
  sum more := .sum (hproduct more.lastFactor_of_terms) more
  product more := by
    rw [bracketedTokens_of_le (by omega)]
    exact hproduct more
  factor :=
    factor_of_sum (by omega) fun _ ↦ .sum (hproduct (.lastFactor nofun)) (.lastTerm nofun)

theorem of_sum (hstrength : e.strength = 1)
    (hsum : ∀ {m rest : List Token} {e' : Index}, Reads (.terms e) m e' rest →
      Reads .sum (e.tokens ++ m) e' rest) : ReadsBack e where
  sum := hsum
  product more := .product (factor_of_sum (by omega) (fun _ ↦ hsum (.lastTerm nofun)) _) more
  factor := factor_of_sum (by omega) fun _ ↦ hsum (.lastTerm nofun)

end ReadsBack

theorem readsBack (h : e.Named) : ReadsBack e := by
  induction e with
  | int v => exact .of_factor rfl fun m ↦ .int rfl
  | var x => exact .of_factor rfl fun m ↦ .var (h x (List.mem_singleton_self x))
  | add a b iha ihb =>
    obtain ⟨ha, hb⟩ := List.forall_mem_append.1 h
    refine .of_sum rfl fun more ↦ ?_
    rw [tokens, bracketedTokens_one, List.append_assoc, List.cons_append]
    exact (iha ha).sum (.plus ((ihb hb).product more.lastFactor_of_terms) more)
  | sub a b iha ihb =>
    obtain ⟨ha, hb⟩ := List.forall_mem_append.1 h
    refine .of_sum rfl fun more ↦ ?_
    rw [tokens, bracketedTokens_one, List.append_assoc, List.cons_append]
    exact (iha ha).sum (.minus ((ihb hb).product more.lastFactor_of_terms) more)
  | mul a b iha ihb =>
    obtain ⟨ha, hb⟩ := List.forall_mem_append.1 h
    refine .of_product rfl fun more ↦ ?_
    rw [tokens, List.append_assoc, List.cons_append]
    exact (iha ha).product (.times ((ihb hb).factor _) more)
  | floorDiv a b iha ihb =>
    obtain ⟨ha, hb⟩ := List.forall_mem_append.1 h
    refine .of_factor rfl fun m ↦ ?_
    simp only [tokens, List.cons_append, List.append_assoc]
    exact .floorDiv (iha ha).before_comma (ihb hb).before_closing
  | floorMod a b iha ihb =>
    obtain ⟨ha, hb⟩ := List.forall_mem_append.1 h
    refine .of_factor rfl fun m ↦ ?_
    simp only [tokens, List.cons_append, List.append_assoc]
    exact .floorMod (iha ha).before_comma (ihb hb).before_closing
  | ramp a b n iha ihb =>
    obtain ⟨ha, hb⟩ := List.forall_mem_append.1 h
    refine .of_factor rfl fun m ↦ ?_
    simp only [tokens, List.cons_append, List.append_assoc]
    exact .ramp (iha ha).before_comma (ihb hb).before_comma rfl

theorem reads_tokens (h : e.Named) : Reads .sum e.tokens e [] := by
  have hreads := (readsBack h).alone (m := []) nofun
  rwa [List.append_nil] at hreads

/-- Expressions whose variables are identifiers are written alike only if they are the same. -/
theorem render_determines (h : e.Named) (h' : e'.Named) : e.render = e'.render ↔ e = e' := by
  refine ⟨fun heq ↦ ?_, congrArg render⟩
  have hreads := reads_tokens h
  rw [tokens_eq_of_render_eq h h' heq] at hreads
  exact (hreads.unique (reads_tokens h')).1

-- A name that is not an identifier can look like an expression.
example : (var "i - 1").render = ((var "i").sub (int 1)).render := by decide

-- The two are written `i - j - -1` and `i - (j - -1)`.
theorem render_determines_differences :
    let difference := ((var "i").sub (var "j")).sub (int (-1))
    let grouped := (var "i").sub ((var "j").sub (int (-1)))
    difference.Named ∧ grouped.Named ∧ difference.render ≠ grouped.render := by
  intro difference grouped
  have hdifference : difference.Named := by decide
  have hgrouped : grouped.Named := by decide
  exact ⟨hdifference, hgrouped,
    fun h ↦ absurd ((render_determines hdifference hgrouped).1 h) (by decide)⟩

end TensorOpt.Index
