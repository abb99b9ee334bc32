import TensorOpt.Proofs.Index.Normalize
import TensorOpt.Proofs.Index.Range
import TensorOpt.Proofs.Index.Saturated

namespace TensorOpt.Index

variable {ρ : Valuation} {env : Env} {a b e f r s : Index} {es : List Index} {x y v : Int}
  {w : Word}

section Natural

theorem natural_int (h : Small w.toInt) : Natural ρ (int w) :=
  List.forall_mem_singleton.2 ⟨w.toInt, rfl, h⟩

theorem total_nonneg (h : ∀ e ∈ es, Natural ρ e) (hv : total ρ es = some v) : 0 ≤ v := by
  induction es generalizing v with
  | nil =>
    cases hv
    exact le_rfl
  | cons e es ih =>
    obtain ⟨x, y, hx, hy, rfl⟩ := total_cons.1 hv
    obtain ⟨he, hes⟩ := List.forall_mem_cons.1 h
    have hxnonneg := (he.small hx).1
    have hynonneg := ih hes hy
    omega

/-- A sum of natural numbers is one as long as it is a word. -/
theorem natural_mkAddTo {s : Option Index} (hs : ∀ r ∈ s.toList, Natural ρ r) (he : Natural ρ e)
    (hx : total ρ s.toList = some x) (hy : e.value ρ = some y) (hsum : x + y < 2 ^ 63) :
    Natural ρ (mkAddTo s e) := by
  have hvalue := value_mkAddTo hx hy
  have hxnonneg := total_nonneg hs hx
  have hynonneg := (he.small hy).1
  have hsmall : Small (x + y) := ⟨by omega, hsum⟩
  cases s with
  | none => exact he
  | some s => exact .folding (folding_mkAdd s e) rfl (hs s List.mem_cons_self) he hvalue hsmall

/-- A product is folded to less than a node only if the right factor is a constant, or the product
is that factor, or it is zero. -/
theorem mkMul_cases (a b : Index) :
    mkMul a b = mul a b ∨ mkMul a b = b ∨ (∃ w, b = .int w) ∨ a = .int 0 := by
  unfold mkMul
  split
  · next hb => exact .inr (.inr (.inl ⟨_, eq_int_of_int? hb⟩))
  · next ha _ =>
    split
    · exact .inr (.inl rfl)
    · split
      · next hzero => exact .inr (.inr (.inr (hzero ▸ eq_int_of_int? ha)))
      · exact .inl rfl
  · next hb => exact .inr (.inr (.inl ⟨_, eq_int_of_int? hb⟩))
  · exact .inl rfl

/-- The right factor of a natural number other than zero is one. -/
theorem natural_of_mkMul (h : Natural ρ (mkMul a b)) (ha : a.value ρ = some x)
    (hb : b.value ρ = some y) (hx : 0 ≤ x) (hne : x * y ≠ 0) : Natural ρ b := by
  rcases mkMul_cases a b with hnode | hright | ⟨w, rfl⟩ | rfl
  · rw [hnode] at h
    exact (h.operands rfl).2
  · rwa [hright] at h
  · cases hb
    have hnonneg := (h.small (value_mkMul ha rfl)).1
    have hpos := lt_of_le_of_ne hnonneg hne.symm
    refine natural_int ⟨(pos_of_mul_pos_right hpos hx).le, ?_⟩
    exact Int64.toInt_lt w
  · cases ha
    exact absurd (Int.zero_mul y) hne

theorem natural_fold_node {node mk : Index → Index → Index}
    (hparts : ∀ a b, (node a b).parts = node a b :: (a.parts ++ b.parts))
    (hmk : ∀ a b, Folding (node a b) a b (mk a b)) (hfold : (node a b).fold = mk a.fold b.fold)
    (iha : Natural ρ a → Natural ρ a.fold) (ihb : Natural ρ b → Natural ρ b.fold)
    (h : Natural ρ (node a b)) : Natural ρ (node a b).fold := by
  obtain ⟨v, hv, hsmall⟩ := h.value
  have hvalue := preserves_fold _ v hv
  rw [hfold] at hvalue ⊢
  obtain ⟨ha, hb⟩ := h.operands (hparts a b)
  exact .folding (hmk _ _) (hparts _ _) (iha ha) (ihb hb) hvalue hsmall

theorem natural_fold (h : Natural ρ e) : Natural ρ e.fold := by
  induction e with
  | int _ => exact h
  | var _ => exact h
  | add a b iha ihb => exact natural_fold_node (fun _ _ ↦ rfl) folding_mkAdd rfl iha ihb h
  | sub a b iha ihb => exact natural_fold_node (fun _ _ ↦ rfl) folding_mkSub rfl iha ihb h
  | mul a b iha ihb => exact natural_fold_node (fun _ _ ↦ rfl) folding_mkMul rfl iha ihb h
  | floorDiv a b iha ihb => exact natural_fold_node (fun _ _ ↦ rfl) folding_mkFloorDiv rfl iha ihb h
  | floorMod a b iha ihb => exact natural_fold_node (fun _ _ ↦ rfl) folding_mkFloorMod rfl iha ihb h
  | ramp a b n =>
    obtain ⟨v, hv, -⟩ := h.value
    cases hv

theorem natural_mkFloorMod (h : Natural ρ (floorMod a b)) : Natural ρ (mkFloorMod a b) := by
  obtain ⟨v, hv, hsmall⟩ := h.value
  obtain ⟨x, y, hx, hy, hne, rfl⟩ := value_floorMod.1 hv
  obtain ⟨ha, hb⟩ := h.operands rfl
  exact .folding (folding_mkFloorMod a b) rfl ha hb (value_mkFloorMod hx hy hne) hsmall

theorem addends_subset_parts (e : Index) : e.addends ⊆ e.parts := by
  fun_induction addends e with
  | case1 a b iha ihb =>
    refine List.subset_cons_of_subset _ (List.append_subset.2 ⟨?_, ?_⟩)
    · exact List.subset_append_of_subset_left _ iha
    · exact List.subset_append_of_subset_right _ ihb
  | case2 e => exact List.cons_subset.2 ⟨mem_parts_self e, List.nil_subset _⟩

end Natural

section Cancellation

variable {m : Remainder} {p : Product} {outer : Index} {inner skipped : Option Index}
  {o g c d : Int}

/-- The core of a product is a part of it. -/
theorem stripFactors_mem_parts (factor e : Index) : (stripFactors factor e).1 ∈ e.parts := by
  fun_induction stripFactors factor e with
  | case1 factor a b ih => exact List.mem_cons_of_mem _ (List.mem_append_left _ ih)
  | case2 factor e => exact mem_parts_self e

/-- The factor of all that is skipped divides the divisor of the pair. -/
theorem natural_outer (h : Natural ρ (match inner with | some f => mkMul f outer | none => outer))
    (ho : outer.value ρ = some o) (hg : inner.elim (some 1) (value ρ) = some g) (hnonneg : 0 ≤ g)
    (hne : g * o ≠ 0) : Natural ρ outer := by
  cases inner with
  | none => exact h
  | some f => exact natural_of_mkMul h hg ho hnonneg hne

theorem natural_mkAdd_mkMul (hs : Natural ρ s) (ho : Natural ρ outer) (he : Natural ρ e)
    (hv : (mkAdd (mkMul s outer) e).value ρ = some v) (hlt : v < 2 ^ 63) :
    Natural ρ (mkAdd (mkMul s outer) e) := by
  obtain ⟨x, hx, hxnonneg, -⟩ := hs.value
  obtain ⟨o, ho', hononneg, -⟩ := ho.value
  obtain ⟨y, hy, hynonneg, -⟩ := he.value
  have hproduct := value_mkMul hx ho'
  have hnonneg : 0 ≤ x * o := mul_nonneg hxnonneg hononneg
  obtain rfl : v = x * o + y := Option.some.inj (hv.symm.trans (value_mkAdd hproduct hy))
  have hmul := Natural.folding (folding_mkMul s outer) rfl hs ho hproduct ⟨hnonneg, by omega⟩
  exact .folding (folding_mkAdd _ e) rfl hmul he hv ⟨by omega, hlt⟩

theorem natural_complete? (h : complete? m outer inner skipped e = some r)
    (hm : Natural ρ m.toIndex) (he : Natural ρ e) (hskipped : ∀ t ∈ skipped.toList, Natural ρ t)
    (ho : outer.value ρ = some o) (hg : inner.elim (some 1) (value ρ) = some g) (hnonneg : 0 ≤ g)
    (hy : total ρ skipped.toList = some y) (hx : e.value ρ = some x) (hsum : y + x * g < 2 ^ 63)
    (hr : r.value ρ = some v) (hv : v < 2 ^ 63) : Natural ρ r := by
  obtain ⟨hdividend, hdivisor⟩ := hm.operands rfl
  -- what is skipped never exceeds the whole sum, which is the same all the way
  fun_induction complete? m outer inner skipped e generalizing g y x with
  | case1 inner a b overall hoverall =>
    cases h
    obtain ⟨hb, hd, -⟩ := hoverall
    obtain ⟨-, d, -, hbvalue, hne, -⟩ := value_floorDiv.1 hx
    have hvalue : overall.value ρ = some (g * o) := value_overall hg ho
    have hgo : g * o ≠ 0 := by
      rw [← hb, hvalue] at hbvalue
      rwa [Option.some.inj hbvalue]
    have hall : Natural ρ overall := hd ▸ hdivisor
    have houter := natural_outer hall ho hg hnonneg hgo
    exact natural_mkAdd_mkMul (hskipped _ List.mem_cons_self) houter hdividend hr hv
  | case2 inner a b overall =>
    cases h
    exact hdividend
  | case3 => cases h
  | case4 inner skipped a b ih =>
    obtain ⟨u, w, ha, hb, rfl⟩ := value_mul.1 hx
    obtain ⟨ha', hb'⟩ := he.operands rfl
    refine ih h ha' hskipped (value_inner hg hb) (mul_nonneg (hb'.small hb).1 hnonneg) hy ha ?_
    rwa [← mul_assoc]
  | case5 skipped a b ih =>
    obtain ⟨u, w, ha, hb, rfl⟩ := value_add.1 hx
    obtain ⟨ha', hb'⟩ := he.operands rfl
    cases hg
    have hw := (hb'.small hb).1
    refine ih h hb' ?_ rfl hnonneg (total_singleton.2 (value_mkAddTo hy ha)) hb (by omega)
    exact List.forall_mem_singleton.2 (natural_mkAddTo hskipped ha' hy ha (by omega))
  | case6 => cases h

/-- A pair of natural numbers whose sum is a word becomes one. -/
theorem natural_cancel? (h : cancel? p m = some r) (hp : Natural ρ p.toIndex)
    (hm : Natural ρ m.toIndex) (hr : r.value ρ = some v) (hv : v < 2 ^ 63) : Natural ρ r := by
  obtain ⟨hlhs, hrhs⟩ := hp.operands rfl
  obtain ⟨a, ha, -⟩ := hlhs.value
  obtain ⟨b, hb, -⟩ := hrhs.value
  obtain ⟨core, outer, hcore, houter, -⟩ := value_stripFactors ha hb
  have hnatural := hlhs.of_mem (stripFactors_mem_parts p.rhs p.lhs)
  have hsum : 0 + core * 1 < 2 ^ 63 := by
    have hlt := (hnatural.small hcore).2
    omega
  exact natural_complete? h hm hnatural (List.forall_mem_nil _) houter rfl zero_le_one rfl hcore
    hsum hr hv

end Cancellation

namespace Terms

variable {t t' : Terms}

def terms (t : Terms) : List Index :=
  t.rest.toList ++ (t.products.map Product.toIndex ++ t.mods.map Remainder.toIndex)

theorem mem_terms : e ∈ t.terms ↔ e ∈ t.rest.toList ∨ e ∈ t.products.map Product.toIndex ∨
    e ∈ t.mods.map Remainder.toIndex := by
  simp only [terms, List.mem_append]

theorem mem_terms_insert (h : f ∈ (t.insert e).terms) :
    f ∈ t.terms ∨ f = e ∨ f = mkAddTo t.rest e := by
  rcases mem_terms.1 h with h | h | h
  · cases e with
    | mul a b => exact .inl (mem_terms.2 (.inl h))
    | floorMod a b => exact .inl (mem_terms.2 (.inl h))
    | _ => exact .inr (.inr (List.mem_singleton.1 h))
  · obtain ⟨p, hp, rfl⟩ := List.mem_map.1 h
    rcases mem_products_insert.1 hp with hp | hp
    · exact .inl (mem_terms.2 (.inr (.inl (List.mem_map_of_mem hp))))
    · exact .inr (.inl hp)
  · obtain ⟨m, hm, rfl⟩ := List.mem_map.1 h
    rcases mem_mods_insert.1 hm with hm | hm
    · exact .inl (mem_terms.2 (.inr (.inr (List.mem_map_of_mem hm))))
    · exact .inr (.inl hm)

def AllNatural (ρ : Valuation) (t : Terms) : Prop := ∀ e ∈ t.terms, Natural ρ e

namespace AllNatural

theorem rest (h : t.AllNatural ρ) : ∀ e ∈ t.rest.toList, Natural ρ e :=
  fun e he ↦ h e (mem_terms.2 (.inl he))

theorem products (h : t.AllNatural ρ) : ∀ e ∈ t.products.map Product.toIndex, Natural ρ e :=
  fun e he ↦ h e (mem_terms.2 (.inr (.inl he)))

theorem mods (h : t.AllNatural ρ) : ∀ e ∈ t.mods.map Remainder.toIndex, Natural ρ e :=
  fun e he ↦ h e (mem_terms.2 (.inr (.inr he)))

/-- No partial sum exceeds the sum of all terms. -/
theorem insert (ht : t.AllNatural ρ) (he : Natural ρ e) (hv : t.value ρ = some v)
    (hx : e.value ρ = some x) (hlt : v + x < 2 ^ 63) : (t.insert e).AllNatural ρ := by
  intro f hf
  rcases mem_terms_insert hf with hf | rfl | rfl
  · exact ht f hf
  · exact he
  · obtain ⟨r, p, m, hr, hp, hm, rfl⟩ := value_iff.1 hv
    have hpnonneg := total_nonneg ht.products hp
    have hmnonneg := total_nonneg ht.mods hm
    exact natural_mkAddTo ht.rest he hr hx (by omega)

theorem insertAll (ht : t.AllNatural ρ) (hes : ∀ e ∈ es, Natural ρ e) (hv : t.value ρ = some v)
    (hx : total ρ es = some x) (hlt : v + x < 2 ^ 63) : (t.insertAll es).AllNatural ρ := by
  induction es generalizing t v x with
  | nil => exact ht
  | cons e es ih =>
    obtain ⟨y, z, hy, hz, rfl⟩ := total_cons.1 hx
    obtain ⟨he, hes⟩ := List.forall_mem_cons.1 hes
    have hznonneg := total_nonneg hes hz
    exact ih (ht.insert he hv hy (by omega)) hes (value_insert hv hy) hz (by omega)

theorem step (h : Step t t') (ht : t.AllNatural ρ) (hv : t.value ρ = some v)
    (hlt : v < 2 ^ 63) : t'.AllNatural ρ := by
  cases h with
  | @absorb m before after products e hmods habsorbed =>
    obtain ⟨x, y, hx, hy, rfl⟩ := value_absorb hmods habsorbed hv
    obtain ⟨⟨p, hp, hcancel⟩, hsub⟩ := Remainder.absorb?_eq_some habsorbed
    have hmod (n : Remainder) (hn : n ∈ before ++ m :: after) : Natural ρ n.toIndex :=
      ht.mods _ (List.mem_map_of_mem (hmods ▸ hn))
    have hleft : ({ t with products, mods := before ++ after } : Terms).AllNatural ρ := by
      intro f hf
      rcases mem_terms.1 hf with hf | hf | hf
      · exact ht.rest f hf
      · obtain ⟨q, hq, rfl⟩ := List.mem_map.1 hf
        exact ht.products _ (List.mem_map_of_mem (hsub q hq))
      · obtain ⟨n, hn, rfl⟩ := List.mem_map.1 hf
        refine hmod n ?_
        rcases List.mem_append.1 hn with hn | hn
        · exact List.mem_append_left _ hn
        · exact List.mem_append_right _ (List.mem_cons_of_mem _ hn)
    have hxnonneg := total_nonneg hleft hx
    have he : Natural ρ e := natural_cancel? hcancel (ht.products _ (List.mem_map_of_mem hp))
      (hmod m (List.mem_append_right _ List.mem_cons_self)) hy (by omega)
    exact hleft.insertAll (fun f hf ↦ he.of_mem (addends_subset_parts e hf)) hx
      (total_addends hy) hlt

theorem cancelAll (ht : t.AllNatural ρ) (hv : t.value ρ = some v) (hlt : v < 2 ^ 63) :
    (t.cancelAll []).AllNatural ρ := by
  have hend : (t.cancelAll []).AllNatural ρ ∧ (t.cancelAll []).value ρ = some v :=
    cancelAll_preserves (P := fun t ↦ t.AllNatural ρ ∧ t.value ρ = some v)
      (fun _ _ h ht ↦ ⟨ht.1.step h ht.2 hlt, value_step h ht.2⟩) ⟨ht, hv⟩
  exact hend.1

end AllNatural

theorem natural_foldl {s : Option Index} (hs : ∀ r ∈ s.toList, Natural ρ r)
    (hes : ∀ e ∈ es, Natural ρ e) (hx : total ρ s.toList = some x) (hy : total ρ es = some y)
    (hlt : x + y < 2 ^ 63) :
    ∀ r ∈ (es.foldl (fun sum e ↦ some (mkAddTo sum e)) s).toList, Natural ρ r := by
  induction es generalizing s x y with
  | nil => exact hs
  | cons e es ih =>
    obtain ⟨u, w, hu, hw, rfl⟩ := total_cons.1 hy
    obtain ⟨he, hes⟩ := List.forall_mem_cons.1 hes
    have hwnonneg := total_nonneg hes hw
    have hnext := natural_mkAddTo hs he hx hu (by omega)
    exact ih (List.forall_mem_singleton.2 hnext) hes
      (total_singleton.2 (value_mkAddTo hx hu)) hw (by omega)

theorem AllNatural.toIndex (ht : t.AllNatural ρ) (hv : t.value ρ = some v) (hlt : v < 2 ^ 63) :
    Natural ρ t.toIndex := by
  obtain ⟨x, y, z, hrest, hproducts, hmods, rfl⟩ := value_iff.1 hv
  have hterms := total_append.2 ⟨y, z, hproducts, total_mkFloorMod hmods, rfl⟩
  have hnatural : ∀ e ∈ t.products.map Product.toIndex ++
      t.mods.map fun m ↦ mkFloorMod m.dividend m.divisor, Natural ρ e := by
    intro e he
    rcases List.mem_append.1 he with he | he
    · exact ht.products e he
    · obtain ⟨m, hm, rfl⟩ := List.mem_map.1 he
      exact natural_mkFloorMod (ht.mods _ (List.mem_map_of_mem hm))
  have hsum := natural_foldl ht.rest hnatural hrest hterms (by omega)
  simp only [Terms.toIndex]
  split
  · next r hr => exact hsum r (hr ▸ List.mem_cons_self)
  · exact natural_int ⟨by decide, by decide⟩

end Terms

theorem natural_normalize (h : Natural ρ e) : Natural ρ (normalize fold e) := by
  have hfold := natural_fold h
  simp only [normalize]
  split
  · obtain ⟨v, hv, -, hlt⟩ := hfold.value
    have hterms := Terms.value_ofIndex hv
    have hall : (Terms.ofIndex e.fold).AllNatural ρ := by
      have hempty : ({} : Terms).AllNatural ρ := List.forall_mem_nil _
      exact hempty.insertAll (fun f hf ↦ hfold.of_mem (addends_subset_parts _ hf)) rfl
        (total_addends hv) (by omega)
    exact (hall.cancelAll hterms hlt).toIndex (Terms.value_cancelAll hterms) hlt
  · exact hfold

/-- Where an expression evaluates, its normal form evaluates to the same or overflows at one of its
parts. It does not overflow where nothing cancels, nor where no part of the expression is
negative. -/
theorem normalize_fails_only_by_overflow (h : eval env e = .ok w) :
    (eval env (normalize fold e) = .ok w ∨
      ∃ s ∈ (normalize fold e).parts, eval env (normalize fold e) = .error (.overflow s)) ∧
    (Saturated e.fold → eval env (normalize fold e) = .ok w) ∧
    ((∀ s ∈ e.parts, ∀ u, eval env s = .ok u → 0 ≤ u.toInt) →
      eval env (normalize fold e) = .ok w) := by
  have hexact := value_normalize preserves_fold (value_of_eval h)
  refine ⟨(evaluates_of_value hexact).eval_eq, fun hsaturated ↦ ?_, fun hnonneg ↦ ?_⟩
  · rw [normalize, if_neg (Terms.not_cancels_ofIndex.2 hsaturated)]
    exact eval_fold h
  · exact (natural_normalize (natural_of_eval h hnonneg)).eval_eq hexact

section SkippedTerm

def splitBehind : Index :=
  add (mul (add (var "a") (floorDiv (var "c") (int 2))) (int 2)) (floorMod (var "c") (int 2))

theorem normalize_splitBehind :
    normalize fold splitBehind = add (var "c") (mul (var "a") (int 2)) := by
  have hterms : Terms.ofIndex splitBehind.fold =
      ⟨none, [⟨add (var "a") (floorDiv (var "c") (int 2)), int 2⟩], [⟨var "c", int 2⟩]⟩ := rfl
  have hpair : Remainder.absorb? ⟨var "c", int 2⟩
      [⟨add (var "a") (floorDiv (var "c") (int 2)), int 2⟩] =
      some (add (mul (var "a") (int 2)) (var "c"), []) := by decide +kernel
  rw [normalize, hterms, if_pos (by decide +kernel), Terms.cancelAll_restart rfl hpair rfl,
    Terms.cancelAll_done rfl]
  rfl

def assign (a c : Word) : Env
  | "a" => some a
  | "c" => some c
  | _ => none

theorem normalize_fails_only_by_overflow_natural :
    eval (assign 3 7) splitBehind = .ok 13 ∧
    eval (assign 3 7) (normalize fold splitBehind) = .ok 13 := by
  have heval : eval (assign 3 7) splitBehind = .ok 13 := by decide +kernel
  refine ⟨heval, (normalize_fails_only_by_overflow heval).2.2 fun s hs u hu ↦ ?_⟩
  have hall : ∀ s ∈ splitBehind.parts, (eval (assign 3 7) s).toOption.all (0 ≤ ·.toInt) := by
    decide +kernel
  have hpart := hall s hs
  rw [hu] at hpart
  exact of_decide_eq_true hpart

/-- The factor reaches the skipped term alone, and takes it out of the range of words. -/
theorem normalize_overflows_skippedTerm :
    eval (assign (-4611686018427387905) 9223372036854775807) splitBehind = .ok (-3) ∧
    eval (assign (-4611686018427387905) 9223372036854775807) (normalize fold splitBehind) =
      .error (.overflow (mul (var "a") (int 2))) := by
  rw [normalize_splitBehind]
  decide +kernel

end SkippedTerm

end TensorOpt.Index
