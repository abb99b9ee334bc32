import TensorOpt.Index.Normalize

namespace TensorOpt.Index.Terms

inductive Step : Terms → Terms → Prop
  | absorb {t : Terms} {m : Remainder} {before after : List Remainder} {products : List Product}
      {e : Index} (hmods : t.mods = before ++ m :: after)
      (habsorbed : m.absorb? t.products = some (e, products)) :
      Step t (insertAll { t with products, mods := before ++ after } e.addends)

def putBack (tried : List Remainder) (t : Terms) : Terms := { t with mods := tried ++ t.mods }

theorem putBack_insert (tried : List Remainder) (t : Terms) (e : Index) :
    (t.insert e).putBack tried = (t.putBack tried).insert e := by
  cases e <;> simp [insert, putBack]

theorem putBack_insertAll (tried : List Remainder) (t : Terms) (es : List Index) :
    (t.insertAll es).putBack tried = (t.putBack tried).insertAll es := by
  induction es generalizing t with
  | nil => rfl
  | cons e es ih =>
    have h := ih (t.insert e)
    rwa [putBack_insert] at h

theorem cancelAll_done {t : Terms} {tried : List Remainder} (hmods : t.mods = []) :
    t.cancelAll tried = { t with mods := tried } := by
  rw [cancelAll]
  split
  · rfl
  · next h => cases hmods.symm.trans h

theorem cancelAll_restart {t : Terms} {tried pending : List Remainder} {m : Remainder}
    {products : List Product} {e : Index} (hmods : t.mods = m :: pending)
    (habsorbed : m.absorb? t.products = some (e, products)) (hproduct : e.addends.any isProduct) :
    t.cancelAll tried =
      (insertAll { t with products, mods := tried ++ pending } e.addends).cancelAll [] := by
  rw [cancelAll]
  split
  · next h => cases hmods.symm.trans h
  · next h =>
    cases hmods.symm.trans h
    split
    · next h => cases habsorbed.symm.trans h
    · next h =>
      cases habsorbed.symm.trans h
      exact if_pos hproduct

theorem cancelAll_absorb {t : Terms} {tried pending : List Remainder} {m : Remainder}
    {products : List Product} {e : Index} (hmods : t.mods = m :: pending)
    (habsorbed : m.absorb? t.products = some (e, products)) (hproduct : ¬ e.addends.any isProduct) :
    t.cancelAll tried =
      (insertAll { t with products, mods := pending } e.addends).cancelAll tried := by
  rw [cancelAll]
  split
  · next h => cases hmods.symm.trans h
  · next h =>
    cases hmods.symm.trans h
    split
    · next h => cases habsorbed.symm.trans h
    · next h =>
      cases habsorbed.symm.trans h
      exact if_neg hproduct

/-- What every cancellation preserves, the search preserves. Remainders that have been tried still
count as terms. -/
theorem cancelAll_preserves {P : Terms → Prop} (hstep : ∀ t t', Step t t' → P t → P t')
    {t : Terms} {tried : List Remainder} (h : P (t.putBack tried)) : P (t.cancelAll tried) := by
  fun_induction cancelAll t tried with
  | case1 t tried hmods => simpa [putBack, hmods] using h
  | case2 t tried m pending hmods habsorbed ih =>
    apply ih
    simpa [putBack, hmods] using h
  | case3 t tried m pending hmods e products habsorbed hproduct ih =>
    apply ih
    have hback : (t.putBack tried).mods = tried ++ m :: pending := by rw [putBack, hmods]
    exact hstep (t.putBack tried) _ (.absorb hback habsorbed) h
  | case4 t tried m pending hmods e products habsorbed hproduct ih =>
    apply ih
    have hback : (t.putBack tried).mods = tried ++ m :: pending := by rw [putBack, hmods]
    rw [putBack_insertAll]
    exact hstep (t.putBack tried) _ (.absorb hback habsorbed) h

end TensorOpt.Index.Terms
