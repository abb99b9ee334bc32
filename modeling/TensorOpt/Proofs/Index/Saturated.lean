import TensorOpt.Proofs.Index.Folded
import TensorOpt.Proofs.Index.Terms

namespace TensorOpt.Index

/-- No product among the terms of `e` takes a remainder among them. -/
def Saturated (e : Index) : Prop :=
  ∀ a b c d, mul a b ∈ e.addends → floorMod c d ∈ e.addends → cancel? ⟨a, b⟩ ⟨c, d⟩ = none

theorem Product.toIndex_inj {p q : Product} : p.toIndex = q.toIndex ↔ p = q := by
  cases p
  cases q
  simp [toIndex]

theorem Remainder.toIndex_inj {m n : Remainder} : m.toIndex = n.toIndex ↔ m = n := by
  cases m
  cases n
  simp [toIndex]

theorem add_not_mem_addends (a b e : Index) : add a b ∉ e.addends := by
  fun_induction addends e with
  | case1 c d ihc ihd => simp [ihc, ihd]
  | case2 e he =>
    intro h
    exact he a b (List.mem_singleton.1 h).symm

/-- The terms of a folded sum are those of its operands, and perhaps a constant. -/
theorem mem_addends_mkAdd {a b f : Index} (h : f ∈ (mkAdd a b).addends) :
    f ∈ a.addends ∨ f ∈ b.addends ∨ ∃ v, f = int v := by
  have hfold := folding_mkAdd a b
  generalize mkAdd a b = r at h hfold
  cases hfold with
  | const v => exact .inr (.inr ⟨v, List.mem_singleton.1 h⟩)
  | left => exact .inl h
  | right => exact .inr (.inl h)
  | node =>
    rcases List.mem_append.1 h with h | h
    · exact .inl h
    · exact .inr (.inl h)

theorem mem_addends_mkAddTo {s : Option Index} {e f : Index} (h : f ∈ (mkAddTo s e).addends) :
    (∃ r ∈ s, f ∈ r.addends) ∨ f ∈ e.addends ∨ ∃ v, f = int v := by
  cases s with
  | none => exact .inr (.inl h)
  | some r =>
    rcases mem_addends_mkAdd h with h | h
    · exact .inl ⟨r, rfl, h⟩
    · exact .inr h

def Plain (e : Index) : Prop := (∀ a b, e ≠ mul a b) ∧ ∀ c d, e ≠ floorMod c d

theorem plain_int (v : Word) : Plain (int v) := ⟨nofun, nofun⟩

theorem Remainder.absorb?_eq_none {m : Remainder} {ps : List Product}
    (h : m.absorb? ps = none) : ∀ p ∈ ps, cancel? p m = none := by
  fun_induction absorb? m ps with
  | case1 => simp
  | case2 => cases h
  | case3 p ps hp ih =>
    intro q hq
    rcases List.mem_cons.1 hq with rfl | hq
    · exact hp
    · exact ih (Option.map_eq_none_iff.1 h) q hq

theorem Remainder.absorb?_eq_some {m : Remainder} {ps rest : List Product} {e : Index}
    (h : m.absorb? ps = some (e, rest)) :
    (∃ p ∈ ps, cancel? p m = some e) ∧ ∀ q ∈ rest, q ∈ ps := by
  fun_induction absorb? m ps generalizing rest with
  | case1 => cases h
  | case2 p ps r hr =>
    cases h
    exact ⟨⟨p, List.mem_cons_self, hr⟩, fun q hq ↦ List.mem_cons_of_mem _ hq⟩
  | case3 p ps _ ih =>
    obtain ⟨⟨e', rest'⟩, hr, heq⟩ := Option.map_eq_some_iff.1 h
    cases heq
    obtain ⟨⟨q, hq, hcancel⟩, hsub⟩ := ih hr
    refine ⟨⟨q, List.mem_cons_of_mem _ hq, hcancel⟩, fun q hq ↦ ?_⟩
    rcases List.mem_cons.1 hq with rfl | hq
    · exact List.mem_cons_self
    · exact List.mem_cons_of_mem _ (hsub q hq)

namespace Terms

theorem mem_products_insert {t : Terms} {e : Index} {p : Product} :
    p ∈ (t.insert e).products ↔ p ∈ t.products ∨ p.toIndex = e := by
  cases e with
  | mul a b =>
    rw [show mul a b = Product.toIndex ⟨a, b⟩ from rfl, Product.toIndex_inj]
    simp [Product.toIndex, insert]
  | _ => simp [insert, Product.toIndex]

theorem mem_mods_insert {t : Terms} {e : Index} {m : Remainder} :
    m ∈ (t.insert e).mods ↔ m ∈ t.mods ∨ m.toIndex = e := by
  cases e with
  | floorMod a b =>
    rw [show floorMod a b = Remainder.toIndex ⟨a, b⟩ from rfl, Remainder.toIndex_inj]
    simp [Remainder.toIndex, insert]
  | _ => simp [insert, Remainder.toIndex]

theorem mem_products_insertAll {t : Terms} {es : List Index} {p : Product} :
    p ∈ (t.insertAll es).products ↔ p ∈ t.products ∨ p.toIndex ∈ es := by
  induction es generalizing t with
  | nil => simp [insertAll]
  | cons e es ih =>
    rw [insertAll, List.foldl_cons, ← insertAll, ih, mem_products_insert, List.mem_cons, or_assoc]

theorem mem_mods_insertAll {t : Terms} {es : List Index} {m : Remainder} :
    m ∈ (t.insertAll es).mods ↔ m ∈ t.mods ∨ m.toIndex ∈ es := by
  induction es generalizing t with
  | nil => simp [insertAll]
  | cons e es ih =>
    rw [insertAll, List.foldl_cons, ← insertAll, ih, mem_mods_insert, List.mem_cons, or_assoc]

def RestPlain (t : Terms) : Prop := ∀ r ∈ t.rest, ∀ f ∈ r.addends, Plain f

theorem RestPlain.insert {t : Terms} {e : Index} (ht : t.RestPlain) (he : ∀ a b, e ≠ add a b) :
    (t.insert e).RestPlain := by
  have hrest (hplain : Plain e) (hone : e.addends = [e]) :
      ∀ r ∈ some (mkAddTo t.rest e), ∀ f ∈ r.addends, Plain f := by
    intro r hr f hf
    cases hr
    rcases mem_addends_mkAddTo hf with ⟨r, hr, hf⟩ | hf | ⟨v, rfl⟩
    · exact ht r hr f hf
    · rw [hone] at hf
      rw [List.mem_singleton.1 hf]
      exact hplain
    · exact plain_int v
  cases e with
  | add a b => exact absurd rfl (he a b)
  | mul a b => exact ht
  | floorMod a b => exact ht
  | _ => exact hrest ⟨nofun, nofun⟩ rfl

theorem RestPlain.insertAll {t : Terms} {es : List Index} (ht : t.RestPlain)
    (hes : ∀ a b, add a b ∉ es) : (t.insertAll es).RestPlain := by
  induction es generalizing t with
  | nil => exact ht
  | cons e es ih =>
    apply ih (ht.insert fun a b he ↦ hes a b (he ▸ List.mem_cons_self))
    exact fun a b h ↦ hes a b (List.mem_cons_of_mem _ h)

theorem RestPlain.step {t t' : Terms} (h : Step t t') (ht : t.RestPlain) : t'.RestPlain := by
  cases h with
  | @absorb m before after products e hmods habsorbed =>
    exact RestPlain.insertAll (t := { t with products, mods := before ++ after }) ht
      fun a b ↦ add_not_mem_addends a b e

theorem not_cancels_iff {t : Terms} :
    ¬ t.Cancels ↔ ∀ p ∈ t.products, ∀ m ∈ t.mods, cancel? p m = none := by
  simp [Cancels]

theorem not_cancels_cancelAll {t : Terms} {tried : List Remainder}
    (h : ∀ m ∈ tried, ∀ p ∈ t.products, cancel? p m = none) : ¬ (t.cancelAll tried).Cancels := by
  -- the invariant: no remainder tried so far has a partner among the products
  fun_induction cancelAll t tried with
  | case1 t tried hmods =>
    exact not_cancels_iff.2 fun p hp m hm ↦ h m hm p hp
  | case2 t tried m pending hmods habsorbed ih =>
    apply ih
    intro n hn
    rcases List.mem_append.1 hn with hn | hn
    · exact h n hn
    · rw [List.mem_singleton.1 hn]
      exact Remainder.absorb?_eq_none habsorbed
  | case3 t tried m pending hmods e products habsorbed hproduct ih =>
    -- there is a new product, and the search starts over
    apply ih
    exact fun m hm ↦ absurd hm List.not_mem_nil
  | case4 t tried m pending hmods e products habsorbed hproduct ih =>
    apply ih
    intro n hn p hp
    rcases mem_products_insertAll.1 hp with hp | hp
    · exact h n hn p ((Remainder.absorb?_eq_some habsorbed).2 p hp)
    · exact absurd (List.any_eq_true.2 ⟨_, hp, rfl⟩) hproduct

theorem restPlain_ofIndex (e : Index) : (ofIndex e).RestPlain := by
  apply RestPlain.insertAll
  · exact fun r hr ↦ nomatch hr
  · exact fun a b ↦ add_not_mem_addends a b e

theorem not_cancels_ofIndex {e : Index} : ¬ (ofIndex e).Cancels ↔ Saturated e := by
  rw [not_cancels_iff]
  constructor
  · intro h a b c d hp hm
    exact h ⟨a, b⟩ (mem_products_insertAll.2 (.inr hp)) ⟨c, d⟩ (mem_mods_insertAll.2 (.inr hm))
  · intro h p hp m hm
    have hp' := (mem_products_insertAll.1 hp).resolve_left List.not_mem_nil
    have hm' := (mem_mods_insertAll.1 hm).resolve_left List.not_mem_nil
    exact h _ _ _ _ hp' hm'

/-- Adding up terms one after the other brings no terms but these and constants. -/
theorem mem_addends_foldl {es : List Index} {s : Option Index} {r f : Index}
    (hr : es.foldl (fun sum e ↦ some (mkAddTo sum e)) s = some r) (hf : f ∈ r.addends) :
    (∃ q ∈ s, f ∈ q.addends) ∨ (∃ e ∈ es, f ∈ e.addends) ∨ ∃ v, f = int v := by
  induction es generalizing s with
  | nil => exact .inl ⟨r, hr, hf⟩
  | cons e es ih =>
    rcases ih hr with ⟨q, hq, hf⟩ | ⟨e', he', hf⟩ | hf
    · cases hq
      rcases mem_addends_mkAddTo hf with hf | hf | hf
      · exact .inl hf
      · exact .inr (.inl ⟨e, List.mem_cons_self, hf⟩)
      · exact .inr (.inr hf)
    · exact .inr (.inl ⟨e', List.mem_cons_of_mem _ he', hf⟩)
    · exact .inr (.inr hf)

/-- A remainder that is folded stays what it is or becomes a constant. -/
theorem mem_addends_mkFloorMod {a b f : Index} (h : f ∈ (mkFloorMod a b).addends) :
    f = floorMod a b ∨ ∃ v, f = int v := by
  unfold mkFloorMod at h
  split at h
  · next x y _ _ =>
    generalize x.floorMod? y = v at h
    cases v with
    | none => exact .inl (List.mem_singleton.1 h)
    | some v => exact .inr ⟨v, List.mem_singleton.1 h⟩
  · next x hx _ =>
    split at h
    · cases a <;> simp_all [int?, addends]
    · exact .inl (List.mem_singleton.1 h)
  · split at h
    · exact .inr ⟨0, List.mem_singleton.1 h⟩
    · exact .inl (List.mem_singleton.1 h)
  · exact .inl (List.mem_singleton.1 h)

theorem mem_addends_toIndex {t : Terms} (ht : t.RestPlain) {f : Index}
    (hf : f ∈ t.toIndex.addends) :
    Plain f ∨ (∃ p ∈ t.products, f = p.toIndex) ∨ ∃ m ∈ t.mods, f = m.toIndex := by
  simp only [toIndex] at hf
  split at hf
  · next r hr =>
    rcases mem_addends_foldl hr hf with ⟨q, hq, hf⟩ | ⟨e, he, hf⟩ | ⟨v, rfl⟩
    · exact .inl (ht q hq f hf)
    · rcases List.mem_append.1 he with he | he
      · obtain ⟨p, hp, rfl⟩ := List.mem_map.1 he
        exact .inr (.inl ⟨p, hp, List.mem_singleton.1 hf⟩)
      · obtain ⟨m, hm, rfl⟩ := List.mem_map.1 he
        rcases mem_addends_mkFloorMod hf with rfl | ⟨v, rfl⟩
        · exact .inr (.inr ⟨m, hm, rfl⟩)
        · exact .inl (plain_int v)
    · exact .inl (plain_int v)
  · rw [List.mem_singleton.1 hf]
    exact .inl (plain_int 0)

theorem saturated_toIndex {t : Terms} (ht : t.RestPlain) (h : ¬ t.Cancels) :
    Saturated t.toIndex := by
  intro a b c d hp hm
  have hproduct : ⟨a, b⟩ ∈ t.products := by
    rcases mem_addends_toIndex ht hp with hplain | ⟨p, hp, heq⟩ | ⟨m, _, heq⟩
    · exact absurd rfl (hplain.1 a b)
    · rwa [show ⟨a, b⟩ = p from Product.toIndex_inj.1 heq]
    · cases heq
  have hmod : ⟨c, d⟩ ∈ t.mods := by
    rcases mem_addends_toIndex ht hm with hplain | ⟨p, _, heq⟩ | ⟨m, hm, heq⟩
    · exact absurd rfl (hplain.2 c d)
    · cases heq
    · rwa [show ⟨c, d⟩ = m from Remainder.toIndex_inj.1 heq]
  exact not_cancels_iff.1 h _ hproduct _ hmod

structure AllFolded (t : Terms) : Prop where
  rest : ∀ r ∈ t.rest, Folded r
  products : ∀ p ∈ t.products, Folded p.toIndex
  mods : ∀ m ∈ t.mods, Folded m.toIndex

theorem AllFolded.insert {t : Terms} {e : Index} (ht : t.AllFolded) (he : Folded e) :
    (t.insert e).AllFolded := by
  refine ⟨?_, fun p hp ↦ ?_, fun m hm ↦ ?_⟩
  · have hrest : ∀ r ∈ some (mkAddTo t.rest e), Folded r := by
      intro r hr
      cases hr
      exact folded_mkAddTo ht.rest he
    cases e with
    | mul a b => exact ht.rest
    | floorMod a b => exact ht.rest
    | _ => exact hrest
  · rcases mem_products_insert.1 hp with hp | hp
    · exact ht.products p hp
    · exact hp ▸ he
  · rcases mem_mods_insert.1 hm with hm | hm
    · exact ht.mods m hm
    · exact hm ▸ he

theorem AllFolded.insertAll {t : Terms} {es : List Index} (ht : t.AllFolded)
    (hes : ∀ e ∈ es, Folded e) : (t.insertAll es).AllFolded := by
  induction es generalizing t with
  | nil => exact ht
  | cons e es ih =>
    apply ih (ht.insert (hes e List.mem_cons_self))
    exact fun f hf ↦ hes f (List.mem_cons_of_mem _ hf)

theorem AllFolded.ofIndex {e : Index} (he : Folded e) : (ofIndex e).AllFolded := by
  apply AllFolded.insertAll
  · exact ⟨nofun, nofun, nofun⟩
  · exact fun f hf ↦ folded_addends he hf

theorem AllFolded.step {t t' : Terms} (h : Step t t') (ht : t.AllFolded) : t'.AllFolded := by
  cases h with
  | @absorb m before after products e hmods habsorbed =>
    have hfolded := ht.mods
    rw [hmods] at hfolded
    obtain ⟨⟨p, hp, hcancel⟩, hsub⟩ := Remainder.absorb?_eq_some habsorbed
    have he := folded_cancel? hcancel (ht.products p hp) (hfolded m (by simp))
    apply AllFolded.insertAll
    · refine ⟨ht.rest, fun q hq ↦ ht.products q (hsub q hq), fun n hn ↦ hfolded n ?_⟩
      rcases List.mem_append.1 hn with hn | hn
      · exact List.mem_append_left _ hn
      · exact List.mem_append_right _ (List.mem_cons_of_mem _ hn)
    · exact fun f hf ↦ folded_addends he hf

theorem AllFolded.toIndex {t : Terms} (ht : t.AllFolded) : Folded t.toIndex := by
  have hfoldl (es : List Index) (s : Option Index) (hs : ∀ r ∈ s, Folded r)
      (hes : ∀ e ∈ es, Folded e) :
      ∀ r ∈ es.foldl (fun sum e ↦ some (mkAddTo sum e)) s, Folded r := by
    induction es generalizing s with
    | nil => exact hs
    | cons e es ih =>
      refine ih _ (fun r hr ↦ ?_) fun f hf ↦ hes f (List.mem_cons_of_mem _ hf)
      cases hr
      exact folded_mkAddTo hs (hes e List.mem_cons_self)
  have hterms : ∀ e ∈ t.products.map Product.toIndex ++
      t.mods.map fun m ↦ mkFloorMod m.dividend m.divisor, Folded e := by
    intro e he
    rcases List.mem_append.1 he with he | he
    · obtain ⟨p, hp, rfl⟩ := List.mem_map.1 he
      exact ht.products p hp
    · obtain ⟨m, hm, rfl⟩ := List.mem_map.1 he
      exact folded_mkFloorMod (ht.mods m hm).1 (ht.mods m hm).2.1
  simp only [Terms.toIndex]
  split
  · next r hr => exact hfoldl _ _ ht.rest hterms r hr
  · trivial

end Terms

theorem saturated_normalize (prepare : Simplifier) (e : Index) :
    Saturated (normalize prepare e) := by
  simp only [normalize]
  split
  · apply Terms.saturated_toIndex
    · exact Terms.cancelAll_preserves (fun _ _ ↦ Terms.RestPlain.step) (Terms.restPlain_ofIndex _)
    · exact Terms.not_cancels_cancelAll nofun
  · next h => exact Terms.not_cancels_ofIndex.1 h

theorem folded_normalize (e : Index) : Folded (normalize fold e) := by
  have hfold := folded_fold e
  simp only [normalize]
  split
  · apply Terms.AllFolded.toIndex
    exact Terms.cancelAll_preserves (fun _ _ ↦ Terms.AllFolded.step) (Terms.AllFolded.ofIndex hfold)
  · exact hfold

/-- Where nothing cancels, normalisation is the preparation alone. -/
theorem normalize_of_saturated {prepare : Simplifier} {e : Index} (hp : prepare e = e)
    (h : Saturated e) : normalize prepare e = e := by
  simp only [normalize, hp]
  exact if_neg (Terms.not_cancels_ofIndex.2 h)

theorem normalize_fixed_point (e : Index) :
    (Saturated (normalize fold e) ∧ normalize fold (normalize fold e) = normalize fold e) ∧
    Saturated (normalize id e) ∧ normalize id (normalize id e) = normalize id e := by
  have hfold := saturated_normalize fold e
  have hid := saturated_normalize id e
  exact ⟨⟨hfold, normalize_of_saturated (fold_of_folded (folded_normalize e)) hfold⟩,
    hid, normalize_of_saturated rfl hid⟩

end TensorOpt.Index
