import TensorOpt.Proofs.Index.Folded
import TensorOpt.Proofs.Index.Value

namespace TensorOpt.Index

variable {ρ : Valuation} {env : Env} {node a b e r s : Index} {x y v : Int} {u w : Word}

def parts : Index → List Index
  | int v => [int v]
  | var x => [var x]
  | add a b => add a b :: (a.parts ++ b.parts)
  | sub a b => sub a b :: (a.parts ++ b.parts)
  | mul a b => mul a b :: (a.parts ++ b.parts)
  | floorDiv a b => floorDiv a b :: (a.parts ++ b.parts)
  | floorMod a b => floorMod a b :: (a.parts ++ b.parts)
  | ramp a b n => ramp a b n :: (a.parts ++ b.parts)

theorem mem_parts_self (e : Index) : e ∈ e.parts := by
  cases e <;> exact List.mem_cons_self

theorem parts_subset (hs : s ∈ e.parts) : s.parts ⊆ e.parts := by
  induction e with
  | int _ | var _ =>
    cases List.mem_singleton.1 hs
    exact List.Subset.refl _
  | add a b iha ihb | sub a b iha ihb | mul a b iha ihb | floorDiv a b iha ihb
  | floorMod a b iha ihb | ramp a b _ iha ihb =>
    rcases List.mem_cons.1 hs with rfl | hs
    · exact List.Subset.refl _
    · refine List.subset_cons_of_subset _ ?_
      rcases List.mem_append.1 hs with hs | hs
      · exact List.subset_append_of_subset_left _ (iha hs)
      · exact List.subset_append_of_subset_right _ (ihb hs)

def Small (v : Int) : Prop := 0 ≤ v ∧ v < 2 ^ 63

def Natural (ρ : Valuation) (e : Index) : Prop := ∀ s ∈ e.parts, ∃ v, s.value ρ = some v ∧ Small v

namespace Natural

theorem value (h : Natural ρ e) : ∃ v, e.value ρ = some v ∧ Small v := h e (mem_parts_self e)

theorem small (h : Natural ρ e) (hv : e.value ρ = some v) : Small v := by
  obtain ⟨v', hv', hsmall⟩ := h.value
  cases hv.symm.trans hv'
  exact hsmall

theorem of_mem (h : Natural ρ e) (hs : s ∈ e.parts) : Natural ρ s :=
  fun t ht ↦ h t (parts_subset hs ht)

theorem operands (h : Natural ρ node) (hparts : node.parts = node :: (a.parts ++ b.parts)) :
    Natural ρ a ∧ Natural ρ b := by
  refine ⟨h.of_mem ?_, h.of_mem ?_⟩
  · rw [hparts]
    exact List.mem_cons_of_mem _ (List.mem_append_left _ (mem_parts_self a))
  · rw [hparts]
    exact List.mem_cons_of_mem _ (List.mem_append_right _ (mem_parts_self b))

/-- What a folding constructor makes of natural numbers is one if its value is. -/
theorem folding (h : Folding node a b r) (hparts : node.parts = node :: (a.parts ++ b.parts))
    (ha : Natural ρ a) (hb : Natural ρ b) (hr : r.value ρ = some v) (hv : Small v) :
    Natural ρ r := by
  have hself : ∃ v, r.value ρ = some v ∧ Small v := ⟨v, hr, hv⟩
  cases h with
  | const c => exact List.forall_mem_singleton.2 hself
  | left => exact ha
  | right => exact hb
  | node =>
    rw [Natural, hparts]
    exact List.forall_mem_cons.2 ⟨hself, List.forall_mem_append.2 ⟨ha, hb⟩⟩

end Natural

section Evaluates

/-- The expression evaluates to `v`, or overflows at a part that is not made of natural numbers
only. -/
def Evaluates (env : Env) (e : Index) (v : Int) : Prop :=
  (∃ w, eval env e = .ok w ∧ w.toInt = v) ∨
    ∃ s ∈ e.parts, eval env e = .error (.overflow s) ∧ ¬Natural env.exact s

theorem Evaluates.binary {k : Word → Word → Except EvalError Word}
    (hparts : node.parts = node :: (a.parts ++ b.parts))
    (heval : eval env node = eval env a >>= fun x ↦ eval env b >>= k x)
    (ha : Evaluates env a x) (hb : Evaluates env b y)
    (hk : ∀ u w : Word, u.toInt = x → w.toInt = y → (∃ z, k u w = .ok z ∧ z.toInt = v) ∨
      k u w = .error (.overflow node) ∧ ¬Natural env.exact node) : Evaluates env node v := by
  rw [Evaluates, heval, hparts]
  rcases ha with ⟨u, ha, hu⟩ | ⟨s, hs, ha, hnatural⟩
  · rcases hb with ⟨w, hb, hw⟩ | ⟨s, hs, hb, hnatural⟩
    · rw [ha, hb]
      rcases hk u w hu hw with ⟨z, hz, hzv⟩ | ⟨hoverflow, hnatural⟩
      · exact .inl ⟨z, hz, hzv⟩
      · exact .inr ⟨node, List.mem_cons_self, hoverflow, hnatural⟩
    · rw [ha, hb]
      exact .inr ⟨s, List.mem_cons_of_mem _ (List.mem_append_right _ hs), rfl, hnatural⟩
  · rw [ha]
    exact .inr ⟨s, List.mem_cons_of_mem _ (List.mem_append_left _ hs), rfl, hnatural⟩

theorem checked_ofInt? (hv : node.value env.exact = some v) :
    (∃ z, checked node (Word.ofInt? v) = .ok z ∧ z.toInt = v) ∨
      checked node (Word.ofInt? v) = .error (.overflow node) ∧ ¬Natural env.exact node := by
  cases hword : Word.ofInt? v with
  | some z => exact .inl ⟨z, rfl, Word.ofInt?_eq_some_iff.1 hword⟩
  | none =>
    refine .inr ⟨rfl, fun hnatural ↦ ?_⟩
    obtain ⟨hnonneg, hlt⟩ := hnatural.small hv
    obtain ⟨z, hz, -⟩ := Word.ofInt?_of_range (by omega) hlt
    cases hword.symm.trans hz

/-- Division fails on words only for a negative dividend. -/
theorem checked_division {q : Option Word} (hparts : node.parts = node :: (a.parts ++ b.parts))
    (ha : a.value env.exact = some u.toInt) (hw : w.toInt ≠ 0)
    (hsome : ∀ z, q = some z → z.toInt = v) (hnone : q = none → Word.Undivided u w) :
    (∃ z, checked node q = .ok z ∧ z.toInt = v) ∨
      checked node q = .error (.overflow node) ∧ ¬Natural env.exact node := by
  cases q with
  | some z => exact .inl ⟨z, rfl, hsome z rfl⟩
  | none =>
    refine .inr ⟨rfl, fun hnatural ↦ ?_⟩
    obtain ⟨hnonneg, -⟩ := (hnatural.operands hparts).1.small ha
    rcases hnone rfl with hzero | ⟨hmin, -⟩
    · exact hw (by rw [hzero]; rfl)
    · rw [hmin] at hnonneg
      exact absurd hnonneg (by decide)

theorem evaluates_of_value (h : e.value env.exact = some v) : Evaluates env e v := by
  induction e generalizing v with
  | int c =>
    cases h
    exact .inl ⟨c, rfl, rfl⟩
  | var n =>
    obtain ⟨c, hc, rfl⟩ := Option.map_eq_some_iff.1 h
    refine .inl ⟨c, ?_, rfl⟩
    rw [eval, hc]
  | add a b iha ihb =>
    obtain ⟨x, y, ha, hb, rfl⟩ := value_add.1 h
    refine .binary rfl rfl (iha ha) (ihb hb) fun u w hu hw ↦ ?_
    rw [Word.add?, hu, hw]
    exact checked_ofInt? h
  | sub a b iha ihb =>
    obtain ⟨x, y, ha, hb, rfl⟩ := value_sub.1 h
    refine .binary rfl rfl (iha ha) (ihb hb) fun u w hu hw ↦ ?_
    rw [Word.sub?, hu, hw]
    exact checked_ofInt? h
  | mul a b iha ihb =>
    obtain ⟨x, y, ha, hb, rfl⟩ := value_mul.1 h
    refine .binary rfl rfl (iha ha) (ihb hb) fun u w hu hw ↦ ?_
    rw [Word.mul?, hu, hw]
    exact checked_ofInt? h
  | floorDiv a b iha ihb =>
    obtain ⟨x, y, ha, hb, hy, rfl⟩ := value_floorDiv.1 h
    refine .binary rfl rfl (iha ha) (ihb hb) fun u w hu hw ↦ ?_
    subst hu hw
    rw [if_neg fun hzero ↦ hy (by rw [hzero]; rfl)]
    exact checked_division rfl ha hy (fun z hz ↦ (Word.toInt_floorDiv? hz).2)
      (Word.floorDiv?_outcome u w).eq_none_iff.1
  | floorMod a b iha ihb =>
    obtain ⟨x, y, ha, hb, hy, rfl⟩ := value_floorMod.1 h
    refine .binary rfl rfl (iha ha) (ihb hb) fun u w hu hw ↦ ?_
    subst hu hw
    rw [if_neg fun hzero ↦ hy (by rw [hzero]; rfl)]
    exact checked_division rfl ha hy (fun z hz ↦ (Word.toInt_floorMod? hz).2)
      (Word.floorMod?_outcome u w).eq_none_iff.1
  | ramp a b n => cases h

theorem Evaluates.eval_eq (h : Evaluates env e w.toInt) :
    eval env e = .ok w ∨ ∃ s ∈ e.parts, eval env e = .error (.overflow s) := by
  rcases h with ⟨z, hz, hzw⟩ | ⟨s, hs, hoverflow, -⟩
  · exact .inl (Int64.toInt_inj.1 hzw ▸ hz)
  · exact .inr ⟨s, hs, hoverflow⟩

theorem Natural.eval_eq (h : Natural env.exact e) (hw : e.value env.exact = some w.toInt) :
    eval env e = .ok w := by
  rcases evaluates_of_value hw with ⟨z, hz, hzw⟩ | ⟨s, hs, -, hnatural⟩
  · exact Int64.toInt_inj.1 hzw ▸ hz
  · exact absurd (h.of_mem hs) hnatural

end Evaluates

section Parts

theorem eval_operands {k : Word → Word → Except EvalError Word}
    (hparts : node.parts = node :: (a.parts ++ b.parts))
    (heval : eval env node = eval env a >>= fun x ↦ eval env b >>= k x)
    (ha : ∀ {u}, eval env a = .ok u → s ∈ a.parts → ∃ u, eval env s = .ok u)
    (hb : ∀ {u}, eval env b = .ok u → s ∈ b.parts → ∃ u, eval env s = .ok u)
    (h : eval env node = .ok w) (hs : s ∈ node.parts) : ∃ u, eval env s = .ok u := by
  rw [hparts] at hs
  rcases List.mem_cons.1 hs with rfl | hs
  · exact ⟨w, h⟩
  · rw [heval] at h
    obtain ⟨x, hx, h⟩ := eval_bind_ok h
    obtain ⟨y, hy, -⟩ := eval_bind_ok h
    rcases List.mem_append.1 hs with hs | hs
    · exact ha hx hs
    · exact hb hy hs

/-- An expression evaluates only if all its parts do. -/
theorem eval_parts (h : eval env e = .ok w) (hs : s ∈ e.parts) : ∃ u, eval env s = .ok u := by
  induction e generalizing w with
  | int _ | var _ =>
    cases List.mem_singleton.1 hs
    exact ⟨w, h⟩
  | add a b iha ihb | sub a b iha ihb | mul a b iha ihb | floorDiv a b iha ihb
  | floorMod a b iha ihb =>
    exact eval_operands rfl rfl iha ihb h hs
  | ramp a b n => cases h

theorem natural_of_eval (h : eval env e = .ok w)
    (hnonneg : ∀ s ∈ e.parts, ∀ u, eval env s = .ok u → 0 ≤ u.toInt) : Natural env.exact e := by
  intro s hs
  obtain ⟨u, hu⟩ := eval_parts h hs
  exact ⟨u.toInt, value_of_eval hu, hnonneg s hs u hu, Int64.toInt_lt u⟩

end Parts

section Fold

/-- The operands and the node itself evaluate, and so does what is folded. -/
theorem eval_of_folding (h : Folding node a b r) (ha : eval env a = .ok u) (hb : eval env b = .ok w)
    {z : Word} (hnode : eval env node = .ok z) (hr : r.value env.exact = some z.toInt) :
    eval env r = .ok z := by
  have hsame {e : Index} {w : Word} (he : eval env e = .ok w)
      (hz : e.value env.exact = some z.toInt) : eval env e = .ok z := by
    have hvalue := value_of_eval he
    rw [hz] at hvalue
    rw [he, Int64.toInt_inj.1 (Option.some.inj hvalue)]
  cases h with
  | const c => exact hsame rfl hr
  | left => exact hsame ha hr
  | right => exact hsame hb hr
  | node => exact hnode

theorem checked_ok {o : Option Word} {e' : Index} (h : checked e o = .ok w) :
    checked e' o = .ok w := by
  rw [checked_eq_ok h]
  rfl

def divided (q : Word → Word → Option Word) (e : Index) (x y : Word) : Except EvalError Word :=
  if y = 0 then .error (.divisionByZero e) else checked e (q x y)

theorem divided_ok {q : Word → Word → Option Word} {e' : Index} {x y : Word}
    (h : divided q e x y = .ok w) : divided q e' x y = .ok w := by
  rw [divided] at h
  split at h
  · cases h
  · next hy => rw [divided, if_neg hy, checked_ok h]

/-- A node whose operands are folded first. Its operation fails or not whatever it is named. -/
theorem eval_fold_node {node mk : Index → Index → Index}
    {k : Index → Word → Word → Except EvalError Word}
    (heval : ∀ a b, eval env (node a b) = eval env a >>= fun x ↦ eval env b >>= k (node a b) x)
    (hk : ∀ {e e' x y w}, k e x y = .ok w → k e' x y = .ok w)
    (hmk : ∀ a b, Folding (node a b) a b (mk a b))
    (ha : ∀ {u}, eval env a = .ok u → eval env a.fold = .ok u)
    (hb : ∀ {u}, eval env b = .ok u → eval env b.fold = .ok u)
    (hfold : (node a b).fold = mk a.fold b.fold) (h : eval env (node a b) = .ok w) :
    eval env (node a b).fold = .ok w := by
  have hvalue := preserves_fold _ _ (value_of_eval h)
  rw [hfold] at hvalue ⊢
  rw [heval] at h
  obtain ⟨x, hx, h⟩ := eval_bind_ok h
  obtain ⟨y, hy, h⟩ := eval_bind_ok h
  refine eval_of_folding (hmk _ _) (ha hx) (hb hy) ?_ hvalue
  rw [heval, ha hx, hb hy]
  exact hk h

theorem eval_fold (h : eval env e = .ok w) : eval env e.fold = .ok w := by
  induction e generalizing w with
  | int c => exact h
  | var n => exact h
  | add a b iha ihb =>
    exact eval_fold_node (k := fun e x y ↦ checked e (x.add? y)) (fun _ _ ↦ rfl) checked_ok
      folding_mkAdd iha ihb rfl h
  | sub a b iha ihb =>
    exact eval_fold_node (k := fun e x y ↦ checked e (x.sub? y)) (fun _ _ ↦ rfl) checked_ok
      folding_mkSub iha ihb rfl h
  | mul a b iha ihb =>
    exact eval_fold_node (k := fun e x y ↦ checked e (x.mul? y)) (fun _ _ ↦ rfl) checked_ok
      folding_mkMul iha ihb rfl h
  | floorDiv a b iha ihb =>
    exact eval_fold_node (k := divided Word.floorDiv?) (fun _ _ ↦ rfl) divided_ok
      folding_mkFloorDiv iha ihb rfl h
  | floorMod a b iha ihb =>
    exact eval_fold_node (k := divided Word.floorMod?) (fun _ _ ↦ rfl) divided_ok
      folding_mkFloorMod iha ihb rfl h
  | ramp a b n => cases h

end Fold

end TensorOpt.Index
