import TensorOpt.Proofs.Index.Saturated

namespace TensorOpt.Index

section Size

def joined (es : List Index) : Nat := totalSize size es + es.length

@[simp]
theorem joined_nil : joined [] = 0 := rfl

@[simp]
theorem joined_cons (e : Index) (es : List Index) : joined (e :: es) = e.size + 1 + joined es := by
  simp only [joined, totalSize_cons, List.length_cons]
  omega

@[simp]
theorem joined_append (es fs : List Index) : joined (es ++ fs) = joined es + joined fs := by
  simp only [joined, totalSize_append, List.length_append]
  omega

theorem joined_addends (e : Index) : joined e.addends = e.size + 1 := by
  fun_induction addends e with
  | case1 a b iha ihb =>
    rw [joined_append, iha, ihb, size]
    omega
  | case2 => rfl

theorem joined_mkAddTo_le (s : Option Index) (e : Index) :
    joined (some (mkAddTo s e)).toList ≤ joined s.toList + (e.size + 1) := by
  cases s with
  | none => simp [mkAddTo]
  | some s =>
    have hsize := size_mkAdd_le s e
    simp only [Option.toList_some, joined_cons, joined_nil, mkAddTo]
    omega

theorem Folding.size_le {node a b r : Index} (h : Folding node a b r)
    (hnode : node.size = a.size + b.size + 1) : r.size ≤ node.size := by
  cases h with
  | const v => exact one_le_size node
  | left | right => omega
  | node => exact Nat.le_refl _

theorem joined_mkFloorMod_le (ms : List Remainder) :
    joined (ms.map fun m ↦ mkFloorMod m.dividend m.divisor) ≤
      joined (ms.map Remainder.toIndex) := by
  induction ms with
  | nil => exact Nat.le_refl _
  | cons m ms ih =>
    have hsize := (folding_mkFloorMod m.dividend m.divisor).size_le rfl
    simp only [List.map_cons, joined_cons, Remainder.toIndex]
    omega

theorem joined_foldl_le (es : List Index) (s : Option Index) :
    joined (es.foldl (fun sum e ↦ some (mkAddTo sum e)) s).toList ≤
      joined s.toList + joined es := by
  induction es generalizing s with
  | nil => exact Nat.le_refl _
  | cons e es ih =>
    have hfirst := joined_mkAddTo_le s e
    have hrest := ih (some (mkAddTo s e))
    rw [List.foldl_cons, joined_cons]
    omega

theorem Remainder.joined_absorb?_le {m : Remainder} {ps rest : List Product} {e : Index}
    (h : m.absorb? ps = some (e, rest)) :
    e.size + 1 + joined (rest.map Product.toIndex) + 2 ≤
      m.size + 1 + joined (ps.map Product.toIndex) := by
  fun_induction absorb? m ps generalizing rest with
  | case1 => cases h
  | case2 p ps e' hcancel =>
    cases h
    have hsize : _ < p.toIndex.size + _ := size_cancel?_lt hcancel
    simp only [List.map_cons, joined_cons]
    omega
  | case3 p ps _ ih =>
    obtain ⟨⟨e', rest'⟩, hrest, heq⟩ := Option.map_eq_some_iff.1 h
    cases heq
    have hsize := ih hrest
    simp only [List.map_cons, joined_cons]
    omega

namespace Terms

variable {t t' : Terms}

def span (t : Terms) : Nat :=
  joined t.rest.toList + joined (t.products.map Product.toIndex) +
    joined (t.mods.map Remainder.toIndex)

theorem span_insert_le (t : Terms) (e : Index) : (t.insert e).span ≤ t.span + (e.size + 1) := by
  have hrest := joined_mkAddTo_le t.rest e
  cases e with
  | mul a b =>
    simp only [insert, span, List.map_append, joined_append, List.map_cons, List.map_nil,
      joined_cons, joined_nil, Product.toIndex]
    omega
  | floorMod a b =>
    simp only [insert, span, List.map_append, joined_append, List.map_cons, List.map_nil,
      joined_cons, joined_nil, Remainder.toIndex]
    omega
  | _ =>
    simp only [insert, span]
    omega

theorem span_insertAll_le (t : Terms) (es : List Index) :
    (t.insertAll es).span ≤ t.span + joined es := by
  induction es generalizing t with
  | nil => exact Nat.le_refl _
  | cons e es ih =>
    have hfirst := span_insert_le t e
    have hrest : (t.insertAll (e :: es)).span ≤ _ := ih (t.insert e)
    rw [joined_cons]
    omega

theorem span_ofIndex_le (e : Index) : (ofIndex e).span ≤ e.size + 1 := by
  have h := span_insertAll_le {} e.addends
  rwa [joined_addends, show span {} = 0 from rfl, Nat.zero_add] at h

theorem weight_step (h : Step t t') : t'.weight < t.weight := by
  cases h with
  | @absorb m before after products e hmods habsorbed =>
    have hpair := Remainder.size_absorb?_lt habsorbed
    have hterms := totalSize_addends_le e
    have hinsert := weight_insertAll_le { t with products, mods := before ++ after } e.addends
    simp only [weight, hmods, totalSize_append, totalSize_cons] at hinsert ⊢
    omega

/-- A cancellation takes away two nodes at least, and it is never the whole sum that goes. -/
theorem span_step (h : Step t t') : max 2 t'.span + 2 ≤ t.span := by
  cases h with
  | @absorb m before after products e hmods habsorbed =>
    have hpair := Remainder.joined_absorb?_le habsorbed
    have hinsert := span_insertAll_le { t with products, mods := before ++ after } e.addends
    have hsize := one_le_size e
    rw [joined_addends] at hinsert
    simp only [Remainder.size] at hpair
    simp only [span, hmods, List.map_append, List.map_cons, joined_append, joined_cons]
      at hinsert ⊢
    omega

/-- The sum of no terms is a constant. -/
theorem size_toIndex_le (t : Terms) : t.toIndex.size + 1 ≤ max 2 t.span := by
  have hsum := joined_foldl_le (t.products.map Product.toIndex ++
    t.mods.map fun m ↦ mkFloorMod m.dividend m.divisor) t.rest
  have hmods := joined_mkFloorMod_le t.mods
  rw [joined_append] at hsum
  simp only [toIndex]
  split
  next sum heq =>
    rw [heq, Option.toList_some, joined_cons, joined_nil] at hsum
    simp only [span]
    omega
  next => exact Nat.le_max_left 2 t.span

end Terms

end Size

structure Search where
  terms : Terms
  cursor : Nat := 0

inductive Round
  | over
  | skipped (s : Search)
  | merged (s : Search)

namespace Search

/-- Tries the remainder at the cursor. If no product takes it the cursor moves on. Otherwise the two
give way to the terms of what they become, so that the cursor points at the next remainder, and it
goes back to the start if there is a product among the new terms. -/
def round (s : Search) : Round :=
  match s.terms.mods[s.cursor]? with
  | none => .over
  | some m =>
    match m.absorb? s.terms.products with
    | none => .skipped { s with cursor := s.cursor + 1 }
    | some (e, products) =>
      .merged {
        terms := .insertAll { s.terms with products, mods := s.terms.mods.eraseIdx s.cursor }
          e.addends
        cursor := if e.addends.any isProduct then 0 else s.cursor }

/-- The search comes from the first state to its end in the second, with so many cancellations. -/
inductive Run : Nat → Search → Search → Prop
  | stop {s : Search} (h : s.round = .over) : Run 0 s s
  | skip {s s' r : Search} {n : Nat} (h : s.round = .skipped s') (hr : Run n s' r) : Run n s r
  | merge {s s' r : Search} {n : Nat} (h : s.round = .merged s') (hr : Run n s' r) : Run (n + 1) s r

variable {s s' r r' : Search} {n n' : Nat} {m : Remainder} {e : Index} {products : List Product}

theorem round_eq_over : s.round = .over ↔ s.terms.mods[s.cursor]? = none := by
  unfold round
  split
  next hnone => simp [hnone]
  next m hm => split <;> simp [hm]

theorem round_eq_skipped : s.round = .skipped s' ↔ ∃ m, s.terms.mods[s.cursor]? = some m ∧
    m.absorb? s.terms.products = none ∧ { s with cursor := s.cursor + 1 } = s' := by
  unfold round
  split
  next hnone => simp [hnone]
  next m hm =>
    split
    next hnone => simp [hm, hnone]
    next habsorbed => simp [hm, habsorbed]

theorem round_eq_merged : s.round = .merged s' ↔ ∃ m e products,
    s.terms.mods[s.cursor]? = some m ∧ m.absorb? s.terms.products = some (e, products) ∧
      Search.mk (.insertAll { s.terms with products, mods := s.terms.mods.eraseIdx s.cursor }
        e.addends) (if e.addends.any isProduct then 0 else s.cursor) = s' := by
  unfold round
  split
  next hnone => simp [hnone]
  next m hm =>
    split
    next hnone => simp [hm, hnone]
    next habsorbed => simp [hm, habsorbed, and_assoc]

theorem step_of_merged (h : s.round = .merged s') : s.terms.Step s'.terms := by
  obtain ⟨m, e, products, hm, habsorbed, rfl⟩ := round_eq_merged.1 h
  obtain ⟨hi, rfl⟩ := List.getElem?_eq_some_iff.1 hm
  have hmods : s.terms.mods = s.terms.mods.take s.cursor ++
      s.terms.mods[s.cursor] :: s.terms.mods.drop (s.cursor + 1) := by simp
  have hstep := Terms.Step.absorb hmods habsorbed
  rwa [← List.eraseIdx_eq_take_drop_succ] at hstep

/-- Only a cancellation puts the cursor back, and it makes the products and remainders smaller. -/
theorem wellFounded_round :
    WellFounded fun s' s : Search ↦ s.round = .skipped s' ∨ s.round = .merged s' := by
  let rank (s : Search) : Nat × Nat := (s.terms.weight, s.terms.mods.length - s.cursor)
  have hlt {s' s : Search} (h : s.round = .skipped s' ∨ s.round = .merged s') :
      Prod.Lex (· < ·) (· < ·) (rank s') (rank s) := by
    rcases h with h | h
    · obtain ⟨m, hm, -, rfl⟩ := round_eq_skipped.1 h
      obtain ⟨hi, -⟩ := List.getElem?_eq_some_iff.1 hm
      exact .right _ (Nat.sub_succ_lt_self _ _ hi)
    · exact .left _ _ (Terms.weight_step (step_of_merged h))
  exact Subrelation.wf hlt (InvImage.wf rank (Prod.lex Nat.lt_wfRel Nat.lt_wfRel).wf)

namespace Run

theorem unique (h : Run n s r) (h' : Run n' s r') : n' = n ∧ r' = r := by
  induction h generalizing n' with
  | stop h =>
    cases h' with
    | stop => exact ⟨rfl, rfl⟩
    | skip h' | merge h' => cases h.symm.trans h'
  | skip h _ ih =>
    cases h' with
    | skip h' hr =>
      cases h.symm.trans h'
      exact ih hr
    | stop h' | merge h' => cases h.symm.trans h'
  | merge h _ ih =>
    cases h' with
    | merge h' hr =>
      cases h.symm.trans h'
      obtain ⟨rfl, rfl⟩ := ih hr
      exact ⟨rfl, rfl⟩
    | stop h' | skip h' => cases h.symm.trans h'

theorem span_le (h : Run n s r) : max 2 r.terms.span + 2 * n ≤ max 2 s.terms.span := by
  induction h with
  | stop => exact Nat.le_refl _
  | skip h _ ih =>
    obtain ⟨m, -, -, rfl⟩ := round_eq_skipped.1 h
    exact ih
  | merge h _ ih =>
    have hstep := Terms.span_step (step_of_merged h)
    omega

/-- Nothing is cancelled if and only if no product takes a remainder that is still to be tried. -/
theorem eq_zero_iff (h : Run n s r) :
    n = 0 ↔ ∀ m ∈ s.terms.mods.drop s.cursor, m.absorb? s.terms.products = none := by
  induction h with
  | stop h =>
    have hend := List.getElem?_eq_none_iff.1 (round_eq_over.1 h)
    simp [List.drop_eq_nil_of_le hend]
  | skip h _ ih =>
    obtain ⟨m, hm, hnone, rfl⟩ := round_eq_skipped.1 h
    obtain ⟨hi, rfl⟩ := List.getElem?_eq_some_iff.1 hm
    rw [ih, List.drop_eq_getElem_cons hi, List.forall_mem_cons]
    exact ⟨fun hrest ↦ ⟨hnone, hrest⟩, fun hall ↦ hall.2⟩
  | merge h _ _ =>
    obtain ⟨m, e, products, hm, habsorbed, -⟩ := round_eq_merged.1 h
    obtain ⟨hi, rfl⟩ := List.getElem?_eq_some_iff.1 hm
    rw [List.drop_eq_getElem_cons hi, List.forall_mem_cons, habsorbed]
    simp

theorem eq_zero_iff_not_cancels {t : Terms} (h : Run n ⟨t, 0⟩ r) : n = 0 ↔ ¬ t.Cancels := by
  rw [h.eq_zero_iff, List.drop_zero, Terms.not_cancels_iff]
  constructor
  · exact fun hnone p hp m hm ↦ Remainder.absorb?_eq_none (hnone m hm) p hp
  · intro hnone m hm
    refine Option.eq_none_iff_forall_ne_some.2 fun ⟨e, products⟩ habsorbed ↦ ?_
    obtain ⟨⟨p, hp, hcancel⟩, -⟩ := Remainder.absorb?_eq_some habsorbed
    cases hcancel.symm.trans (hnone p hp m hm)

end Run

section Tried

variable {t : Terms} {tried pending : List Remainder}

theorem getElem?_putBack (hmods : t.mods = m :: pending) :
    (t.putBack tried).mods[tried.length]? = some m := by
  simp [Terms.putBack, hmods]

theorem round_putBack_merged (hmods : t.mods = m :: pending)
    (habsorbed : m.absorb? t.products = some (e, products)) :
    round ⟨t.putBack tried, tried.length⟩ = .merged
      ⟨.insertAll { t with products, mods := tried ++ pending } e.addends,
        if e.addends.any isProduct then 0 else tried.length⟩ := by
  refine round_eq_merged.2 ⟨m, e, products, getElem?_putBack hmods, habsorbed, ?_⟩
  simp [Terms.putBack, hmods, List.eraseIdx_append_of_length_le]

/-- The search that sets aside the remainders it has tried goes through the rounds of the loop. -/
theorem run_cancelAll (t : Terms) (tried : List Remainder) :
    ∃ n, Run n ⟨t.putBack tried, tried.length⟩
      ⟨t.cancelAll tried, (t.cancelAll tried).mods.length⟩ := by
  fun_induction Terms.cancelAll t tried with
  | case1 t tried hmods =>
    have hback : t.putBack tried = { t with mods := tried } := by simp [Terms.putBack, hmods]
    rw [hback]
    exact ⟨0, .stop (round_eq_over.2 (List.getElem?_eq_none (Nat.le_refl _)))⟩
  | case2 t tried m pending hmods hnone ih =>
    obtain ⟨n, hrun⟩ := ih
    have hback : Terms.putBack (tried ++ [m]) { t with mods := pending } = t.putBack tried := by
      simp [Terms.putBack, hmods]
    rw [hback, List.length_append] at hrun
    exact ⟨n, .skip (round_eq_skipped.2 ⟨m, getElem?_putBack hmods, hnone, rfl⟩) hrun⟩
  | case3 t tried m pending hmods e products habsorbed hproduct ih =>
    obtain ⟨n, hrun⟩ := ih
    refine ⟨n + 1, .merge (round_putBack_merged hmods habsorbed) ?_⟩
    rw [if_pos hproduct]
    exact hrun
  | case4 t tried m pending hmods e products habsorbed hproduct ih =>
    obtain ⟨n, hrun⟩ := ih
    refine ⟨n + 1, .merge (round_putBack_merged hmods habsorbed) ?_⟩
    rw [if_neg hproduct]
    rwa [Terms.putBack_insertAll] at hrun

end Tried

end Search

theorem size_normalize_le {prepare : Simplifier} {e : Index} {n : Nat} {r : Search}
    (h : Search.Run n ⟨.ofIndex (prepare e), 0⟩ r)
    (hnormal : normalize prepare e = if n = 0 then prepare e else r.terms.toIndex) :
    (normalize prepare e).size + 2 * n ≤ (prepare e).size := by
  rw [hnormal]
  split
  next hzero => omega
  next =>
    have hspan := h.span_le
    have hstart := Terms.span_ofIndex_le (prepare e)
    have hend := r.terms.size_toIndex_le
    have hone := one_le_size (prepare e)
    simp only at hspan
    omega

/-- Whatever the state it starts in and whatever the preparation, the cancelling search ends, since
each cancellation leaves fewer nodes in products and remainders. It ends in one way, and
normalisation gives the sum of the terms that are left, or just what was prepared if nothing has
been cancelled. This has at least two nodes less than the prepared expression for each cancellation
on the way. -/
theorem normalize_terminates_and_shrinks (prepare : Simplifier) (e : Index) :
    WellFounded (fun s' s : Search ↦ s.round = .skipped s' ∨ s.round = .merged s') ∧
    (∀ s s' : Search, s.round = .merged s' → s'.terms.weight < s.terms.weight) ∧
    ∃ n r, (∀ n' r', Search.Run n' ⟨.ofIndex (prepare e), 0⟩ r' ↔ n' = n ∧ r' = r) ∧
      normalize prepare e = (if n = 0 then prepare e else r.terms.toIndex) ∧
        (normalize prepare e).size + 2 * n ≤ (prepare e).size := by
  refine ⟨Search.wellFounded_round, fun s s' h ↦ Terms.weight_step (Search.step_of_merged h), ?_⟩
  obtain ⟨n, hrun⟩ := Search.run_cancelAll (.ofIndex (prepare e)) []
  replace hrun : Search.Run n ⟨.ofIndex (prepare e), 0⟩ _ := hrun
  have hnormal : normalize prepare e =
      if n = 0 then prepare e else ((Terms.ofIndex (prepare e)).cancelAll []).toIndex := by
    simp only [normalize, hrun.eq_zero_iff_not_cancels, ite_not]
  refine ⟨n, _, fun n' r' ↦ ⟨hrun.unique, ?_⟩, hnormal, size_normalize_le hrun hnormal⟩
  rintro ⟨rfl, rfl⟩
  exact hrun

end TensorOpt.Index
