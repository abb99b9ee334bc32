import TensorOpt.Proofs.Index.Terms
import TensorOpt.Proofs.Index.Value
import Mathlib.Tactic.Ring

namespace TensorOpt.Index

variable {ρ : Valuation}

def total (ρ : Valuation) : List Index → Option Int
  | [] => some 0
  | e :: es => do return (← e.value ρ) + (← total ρ es)

theorem total_cons {e : Index} {es : List Index} {v : Int} : total ρ (e :: es) = some v ↔
    ∃ x y, e.value ρ = some x ∧ total ρ es = some y ∧ x + y = v := by
  simp [total, Option.bind_eq_some_iff]

theorem total_append {es fs : List Index} {v : Int} : total ρ (es ++ fs) = some v ↔
    ∃ x y, total ρ es = some x ∧ total ρ fs = some y ∧ x + y = v := by
  induction es generalizing v with
  | nil => simp [total]
  | cons e es ih =>
    constructor
    · intro h
      obtain ⟨x, y, he, hes, rfl⟩ := total_cons.1 h
      obtain ⟨y, z, hy, hz, rfl⟩ := ih.1 hes
      exact ⟨x + y, z, total_cons.2 ⟨x, y, he, hy, rfl⟩, hz, by ring⟩
    · rintro ⟨w, z, hw, hz, rfl⟩
      obtain ⟨x, y, he, hy, rfl⟩ := total_cons.1 hw
      exact total_cons.2 ⟨x, y + z, he, ih.2 ⟨y, z, hy, hz, rfl⟩, by ring⟩

theorem total_singleton {e : Index} {v : Int} : total ρ [e] = some v ↔ e.value ρ = some v := by
  simp [total]

theorem total_addends {e : Index} {v : Int} (h : e.value ρ = some v) :
    total ρ e.addends = some v := by
  fun_induction addends e generalizing v with
  | case1 a b iha ihb =>
    obtain ⟨x, y, ha, hb, hv⟩ := value_add.1 h
    exact total_append.2 ⟨x, y, iha ha, ihb hb, hv⟩
  | case2 e => exact total_singleton.2 h

theorem value_mkAddTo {s : Option Index} {e : Index} {x y : Int}
    (hs : total ρ s.toList = some x) (he : e.value ρ = some y) :
    (mkAddTo s e).value ρ = some (x + y) := by
  cases s with
  | none =>
    cases hs
    simpa [mkAddTo] using he
  | some s => exact value_mkAdd (total_singleton.1 hs) he

theorem value_stripFactors {factor e : Index} {x y : Int} (he : e.value ρ = some x)
    (hf : factor.value ρ = some y) : ∃ c o, (stripFactors factor e).1.value ρ = some c ∧
      (stripFactors factor e).2.value ρ = some o ∧ c * o = x * y := by
  fun_induction stripFactors factor e generalizing x y with
  | case1 factor a b ih =>
    obtain ⟨u, w, ha, hb, rfl⟩ := value_mul.1 he
    obtain ⟨c, o, hc, ho, hco⟩ := ih ha (value_mkMul hb hf)
    exact ⟨c, o, hc, ho, by rw [hco]; ring⟩
  | case2 factor e => exact ⟨x, y, he, hf, rfl⟩

section Cancellation

variable {m : Remainder} {outer : Index} {inner skipped : Option Index} {o f s c d : Int}

theorem value_overall (hf : inner.elim (some 1) (value ρ) = some f)
    (ho : outer.value ρ = some o) :
    (match inner with | some g => mkMul g outer | none => outer).value ρ = some (f * o) := by
  cases inner with
  | none =>
    cases hf
    simpa using ho
  | some g => exact value_mkMul hf ho

theorem value_inner {b : Index} {y : Int} (hf : inner.elim (some 1) (value ρ) = some f)
    (hb : b.value ρ = some y) :
    (match inner with | some g => mkMul b g | none => b).value ρ = some (y * f) := by
  cases inner with
  | none =>
    cases hf
    simpa using hb
  | some g => exact value_mkMul hb hf

/-- The quotient found at the end of the search, multiplied back by the divisor, and the remainder
make up the dividend. -/
theorem quotient_add_remainder {a b overall : Index} {x : Int}
    (hoverall : overall = b ∧ overall = m.divisor ∧ a = m.dividend)
    (hvalue : overall.value ρ = some (f * o)) (he : (floorDiv a b).value ρ = some x)
    (hc : m.dividend.value ρ = some c) (hd : m.divisor.value ρ = some d) :
    (s + x * f) * o + c.fmod d = s * o + c := by
  obtain ⟨rfl, hdivisor, rfl⟩ := hoverall
  obtain ⟨u, w, hu, hw, -, rfl⟩ := value_floorDiv.1 he
  obtain rfl : c = u := Option.some.inj (hc.symm.trans hu)
  obtain rfl : w = f * o := Option.some.inj (hw.symm.trans hvalue)
  obtain rfl : d = f * o := Option.some.inj (hd.symm.trans (hdivisor ▸ hvalue))
  have hsplit : f * o * c.fdiv (f * o) + c.fmod (f * o) = c := Int.mul_fdiv_add_fmod c (f * o)
  calc (s + c.fdiv (f * o) * f) * o + c.fmod (f * o)
      = s * o + (f * o * c.fdiv (f * o) + c.fmod (f * o)) := by ring
    _ = s * o + c := by rw [hsplit]

theorem value_complete? {e r : Index} {x : Int} (h : complete? m outer inner skipped e = some r)
    (ho : outer.value ρ = some o) (hf : inner.elim (some 1) (value ρ) = some f)
    (hs : total ρ skipped.toList = some s) (he : e.value ρ = some x)
    (hc : m.dividend.value ρ = some c) (hd : m.divisor.value ρ = some d) :
    r.value ρ = some ((s + x * f) * o + c.fmod d) := by
  -- what is skipped, what is still looked at and the remainder add up to the same all the way
  fun_induction complete? m outer inner skipped e generalizing f s x with
  | case1 inner a b overall hoverall =>
    cases h
    rw [quotient_add_remainder hoverall (value_overall hf ho) he hc hd]
    exact value_mkAdd (value_mkMul (total_singleton.1 hs) ho) hc
  | case2 inner a b overall =>
    rename_i hoverall
    cases h
    cases hs
    rw [quotient_add_remainder hoverall (value_overall hf ho) he hc hd]
    simpa using hc
  | case3 => cases h
  | case4 inner skipped a b ih =>
    obtain ⟨u, w, ha, hb, rfl⟩ := value_mul.1 he
    rw [ih h (value_inner hf hb) hs ha]
    congr 1
    ring
  | case5 skipped a b ih =>
    obtain ⟨u, w, ha, hb, rfl⟩ := value_add.1 he
    cases hf
    rw [ih h rfl (total_singleton.2 (value_mkAddTo hs ha)) hb]
    congr 1
    ring
  | case6 => cases h

end Cancellation

theorem value_cancel? {p : Product} {m : Remainder} {r : Index} {x y : Int}
    (h : cancel? p m = some r) (hp : p.toIndex.value ρ = some x)
    (hm : m.toIndex.value ρ = some y) : r.value ρ = some (x + y) := by
  obtain ⟨a, b, ha, hb, rfl⟩ := value_mul.1 hp
  obtain ⟨c, d, hc, hd, -, rfl⟩ := value_floorMod.1 hm
  obtain ⟨core, outer, hcore, houter, hprod⟩ := value_stripFactors ha hb
  rw [value_complete? h houter rfl rfl hcore hc hd, ← hprod]
  congr 1
  ring

theorem Remainder.total_absorb? {m : Remainder} {ps rest : List Product} {e : Index} {x y : Int}
    (h : m.absorb? ps = some (e, rest)) (hps : total ρ (ps.map Product.toIndex) = some x)
    (hm : m.toIndex.value ρ = some y) :
    ∃ u w, e.value ρ = some u ∧ total ρ (rest.map Product.toIndex) = some w ∧
      u + w = x + y := by
  fun_induction absorb? m ps generalizing rest x with
  | case1 => cases h
  | case2 p ps r hr =>
    cases h
    obtain ⟨u, w, hp, hrest, rfl⟩ := total_cons.1 hps
    exact ⟨u + y, w, value_cancel? hr hp hm, hrest, by ring⟩
  | case3 p ps _ ih =>
    obtain ⟨⟨e', rest'⟩, hr, heq⟩ := Option.map_eq_some_iff.1 h
    cases heq
    obtain ⟨v, w, hp, hothers, rfl⟩ := total_cons.1 hps
    obtain ⟨u, z, he, hrest, hsum⟩ := ih hr hothers
    exact ⟨u, v + z, he, total_cons.2 ⟨v, z, hp, hrest, rfl⟩, by linarith⟩

namespace Terms

def value (ρ : Valuation) (t : Terms) : Option Int :=
  total ρ (t.rest.toList ++ (t.products.map Product.toIndex ++ t.mods.map Remainder.toIndex))

theorem value_iff {t : Terms} {v : Int} : t.value ρ = some v ↔
    ∃ x y z, total ρ t.rest.toList = some x ∧ total ρ (t.products.map Product.toIndex) = some y ∧
      total ρ (t.mods.map Remainder.toIndex) = some z ∧ x + y + z = v := by
  unfold value
  constructor
  · intro h
    obtain ⟨x, w, hx, hw, rfl⟩ := total_append.1 h
    obtain ⟨y, z, hy, hz, rfl⟩ := total_append.1 hw
    exact ⟨x, y, z, hx, hy, hz, by ring⟩
  · rintro ⟨x, y, z, hx, hy, hz, rfl⟩
    exact total_append.2 ⟨x, y + z, hx, total_append.2 ⟨y, z, hy, hz, rfl⟩, by ring⟩

theorem value_insert {t : Terms} {e : Index} {v x : Int} (ht : t.value ρ = some v)
    (he : e.value ρ = some x) : (t.insert e).value ρ = some (v + x) := by
  obtain ⟨r, p, m, hr, hp, hm, rfl⟩ := value_iff.1 ht
  have hrest : total ρ (some (mkAddTo t.rest e)).toList = some (r + x) :=
    total_singleton.2 (value_mkAddTo hr he)
  cases e with
  | mul a b =>
    refine value_iff.2 ⟨r, p + x, m, hr, ?_, hm, by ring⟩
    rw [insert, List.map_append]
    exact total_append.2 ⟨p, x, hp, total_singleton.2 he, rfl⟩
  | floorMod a b =>
    refine value_iff.2 ⟨r, p, m + x, hr, hp, ?_, by ring⟩
    rw [insert, List.map_append]
    exact total_append.2 ⟨m, x, hm, total_singleton.2 he, rfl⟩
  | _ => exact value_iff.2 ⟨r + x, p, m, hrest, hp, hm, by ring⟩

theorem value_insertAll {t : Terms} {es : List Index} {v x : Int} (ht : t.value ρ = some v)
    (hes : total ρ es = some x) : (t.insertAll es).value ρ = some (v + x) := by
  induction es generalizing t v x with
  | nil =>
    cases hes
    simpa [insertAll] using ht
  | cons e es ih =>
    obtain ⟨y, z, he, hrest, rfl⟩ := total_cons.1 hes
    rw [← add_assoc]
    exact ih (value_insert ht he) hrest

theorem value_ofIndex {e : Index} {v : Int} (h : e.value ρ = some v) :
    (ofIndex e).value ρ = some v := by
  have hempty : ({} : Terms).value ρ = some 0 := rfl
  have hall := value_insertAll hempty (total_addends h)
  rwa [zero_add] at hall

/-- What a pair becomes and the terms that are left have the sum of all terms before. -/
theorem value_absorb {t : Terms} {m : Remainder} {before after : List Remainder}
    {products : List Product} {e : Index} {v : Int} (hmods : t.mods = before ++ m :: after)
    (habsorbed : m.absorb? t.products = some (e, products)) (ht : t.value ρ = some v) :
    ∃ x y, ({ t with products, mods := before ++ after } : Terms).value ρ = some x ∧
      e.value ρ = some y ∧ x + y = v := by
  obtain ⟨r, p, w, hr, hp, hw, rfl⟩ := value_iff.1 ht
  rw [hmods, List.map_append, List.map_cons] at hw
  obtain ⟨x, z, hbefore, htail, rfl⟩ := total_append.1 hw
  obtain ⟨y, z, hm, hafter, rfl⟩ := total_cons.1 htail
  obtain ⟨a, b, he, hproducts, hsum⟩ := Remainder.total_absorb? habsorbed hp hm
  have hothers : total ρ ((before ++ after).map Remainder.toIndex) = some (x + z) := by
    rw [List.map_append]
    exact total_append.2 ⟨x, z, hbefore, hafter, rfl⟩
  exact ⟨r + b + (x + z), a, value_iff.2 ⟨r, b, x + z, hr, hproducts, hothers, rfl⟩, he,
    by linarith⟩

theorem value_step {t t' : Terms} {v : Int} (h : Step t t') (ht : t.value ρ = some v) :
    t'.value ρ = some v := by
  cases h with
  | @absorb m before after products e hmods habsorbed =>
    obtain ⟨x, y, hleft, he, rfl⟩ := value_absorb hmods habsorbed ht
    exact value_insertAll hleft (total_addends he)

theorem value_cancelAll {t : Terms} {v : Int} (h : t.value ρ = some v) :
    (t.cancelAll []).value ρ = some v :=
  cancelAll_preserves (fun _ _ ↦ value_step) h

theorem value_foldl {es : List Index} {s r : Option Index} {x y : Int}
    (hs : total ρ s.toList = some x) (hes : total ρ es = some y)
    (hr : es.foldl (fun sum e ↦ some (mkAddTo sum e)) s = r) :
    total ρ r.toList = some (x + y) := by
  induction es generalizing s x y with
  | nil =>
    cases hes
    cases hr
    simpa using hs
  | cons e es ih =>
    obtain ⟨z, w, he, hrest, rfl⟩ := total_cons.1 hes
    have hnext : total ρ (some (mkAddTo s e)).toList = some (x + z) :=
      total_singleton.2 (value_mkAddTo hs he)
    rw [← add_assoc]
    exact ih hnext hrest hr

theorem total_mkFloorMod {ms : List Remainder} {x : Int}
    (h : total ρ (ms.map Remainder.toIndex) = some x) :
    total ρ (ms.map fun m ↦ mkFloorMod m.dividend m.divisor) = some x := by
  induction ms generalizing x with
  | nil => exact h
  | cons m ms ih =>
    obtain ⟨y, z, hm, hms, rfl⟩ := total_cons.1 h
    obtain ⟨c, d, hc, hd, hne, rfl⟩ := value_floorMod.1 hm
    exact total_cons.2 ⟨_, z, value_mkFloorMod hc hd hne, ih hms, rfl⟩

theorem value_toIndex {t : Terms} {v : Int} (h : t.value ρ = some v) :
    t.toIndex.value ρ = some v := by
  obtain ⟨x, y, z, hrest, hproducts, hmods, rfl⟩ := value_iff.1 h
  have hterms := total_append.2 ⟨y, z, hproducts, total_mkFloorMod hmods, rfl⟩
  have hsum := value_foldl hrest hterms rfl
  rw [← add_assoc] at hsum
  simp only [toIndex]
  split
  · next s hs =>
    rw [hs] at hsum
    exact total_singleton.1 hsum
  · next hs =>
    rw [hs] at hsum
    exact hsum

end Terms

theorem value_normalize {prepare : Simplifier} {e : Index} {v : Int} (hp : Preserves ρ prepare)
    (h : e.value ρ = some v) : (normalize prepare e).value ρ = some v := by
  have hprepared := hp e v h
  simp only [normalize]
  split
  · apply Terms.value_toIndex
    exact Terms.value_cancelAll (Terms.value_ofIndex hprepared)
  · exact hprepared

/-- Normalisation after a preparation that keeps exact values keeps them too, as the two stock
preparations do. Where both sides evaluate over words they therefore evaluate to the same. -/
theorem normalize_sound :
    (∀ (prepare : Simplifier) (ρ : Valuation), Preserves ρ prepare →
      ∀ e v, e.value ρ = some v → (normalize prepare e).value ρ = some v) ∧
    (∀ ρ, Preserves ρ fold) ∧ (∀ ρ, Preserves ρ id) ∧
    (∀ (prepare : Simplifier) (env : Env), Preserves env.exact prepare → ∀ e w u,
      eval env e = .ok w → eval env (normalize prepare e) = .ok u → w = u) := by
  refine ⟨fun _ _ hp _ _ ↦ value_normalize hp, fun _ ↦ preserves_fold, fun _ ↦ preserves_id, ?_⟩
  intro prepare env hp e w u hw hu
  have hexact := value_normalize hp (value_of_eval hw)
  exact Int64.toInt_inj.1 (Option.some.inj (hexact.symm.trans (value_of_eval hu)))

/-- An index split by a negative divisor and put together again behind another term. -/
theorem normalize_sound_split :
    (normalize fold (add (mul (add (var "a") (floorDiv (var "c") (int (-3)))) (int (-3)))
      (floorMod (var "c") (int (-3))))).value (fun x ↦ some (if x = "a" then 5 else 7)) =
    some (-8) :=
  normalize_sound.1 fold _ (normalize_sound.2.1 _) _ _ rfl

end TensorOpt.Index
