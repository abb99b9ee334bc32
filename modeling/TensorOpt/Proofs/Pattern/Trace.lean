import Mathlib.Data.List.Induction
import TensorOpt.Pattern.Matcher

namespace TensorOpt.Pattern

variable {g : Graph} {e : NodeId} {l : Label} {c : Catalog} {name : String}
  {log log' : List (Label × NodeId)} {t t' t'' : Trail}

inductive Names (c : Catalog) (name : String) : Pattern → Prop
  | wildcard (l : Label) : Names c name (wildcard l)
  | op (l : Label) : Names c name (op l name)
  | alt {l : Label} {options : List Pattern} {p : Pattern} (hp : p ∈ options)
    (h : Names c name p) : Names c name (alt l options)
  | attrs {l : Label} {base : Pattern} {expected : Attrs} (h : Names c name base)
    (hattrs : expected.Included (c.attrs name)) : Names c name (attrs l base expected)

inductive Matches (g : Graph) : Pattern → NodeId → Prop
  | wildcard (l : Label) (e : NodeId) : Matches g (wildcard l) e
  | op {l : Label} {name : String} {e : NodeId} (h : g.callee? e = some name) :
    Matches g (op l name) e
  | alt {l : Label} {options : List Pattern} {p : Pattern} {e : NodeId} (hp : p ∈ options)
    (h : Matches g p e) : Matches g (alt l options) e
  | call {l : Label} {callee : Pattern} {params : List Pattern} {e : NodeId} {name : String}
    {args : List NodeId} {attrs : Attrs} {type? : Option TensorType}
    (hn : g.node? e = some ⟨.call name args attrs, type?⟩) (hlength : params.length = args.length)
    (hop : callee.Names g.catalog name) (hargs : ∀ q ∈ params.zip args, Matches g q.1 q.2) :
    Matches g (call l callee params) e
  | attrs {l : Label} {base : Pattern} {expected : Attrs} {e : NodeId} (h : Matches g base e)
    (hattrs : expected.Included ((g.attrs? e).getD .empty)) : Matches g (attrs l base expected) e
  | const {l : Label} {e : NodeId} (h : (g.literal? e).isSome) : Matches g (const l) e

mutual

/-- The nodes that the parts of a pattern match, in the order in which the parts are done. -/
def trace? (g : Graph) : Pattern → NodeId → Option (List (Label × NodeId))
  | wildcard l, e => some [(l, e)]
  | op l name, e => if g.callee? e = some name then some [(l, e)] else none
  | alt l options, e => (traceFirst? g options e).map (· ++ [(l, e)])
  | call l callee params, e =>
    match g.node? e with
    | some ⟨.call name args _, _⟩ =>
      if params.length = args.length ∧ callee.matchesOp g.catalog name then
        (traceEach? g params args).map (· ++ [(l, e)])
      else none
    | _ => none
  | attrs l base expected, e =>
    if expected.Included ((g.attrs? e).getD .empty) then (base.trace? g e).map (· ++ [(l, e)])
    else none
  | const l, e => if (g.literal? e).isSome then some [(l, e)] else none

def traceFirst? (g : Graph) : List Pattern → NodeId → Option (List (Label × NodeId))
  | [], _ => none
  | p :: ps, e => (p.trace? g e).or (traceFirst? g ps e)

def traceEach? (g : Graph) : List Pattern → List NodeId → Option (List (Label × NodeId))
  | [], [] => some []
  | p :: ps, e :: es => (p.trace? g e).bind fun log ↦ (traceEach? g ps es).map (log ++ ·)
  | _, _ => none

end

mutual

theorem matchesOp_iff : ∀ {p : Pattern}, p.matchesOp c name ↔ p.Names c name
  | wildcard l => by simp [matchesOp, Names.wildcard]
  | op l expected => by
    simp only [matchesOp, decide_eq_true_eq]
    constructor
    · rintro rfl
      exact .op l
    · rintro ⟨⟩
      rfl
  | alt l options => by
    simp only [matchesOp, anyMatchesOp_iff]
    constructor
    · rintro ⟨p, hp, h⟩
      exact .alt hp h
    · intro h
      cases h with
      | alt hp h => exact ⟨_, hp, h⟩
  | call .. => by simp [matchesOp]; nofun
  | attrs l base expected => by
    simp only [matchesOp, Bool.and_eq_true, decide_eq_true_eq, matchesOp_iff]
    constructor
    · rintro ⟨h, hattrs⟩
      exact .attrs h hattrs
    · intro h
      cases h with
      | attrs h hattrs => exact ⟨h, hattrs⟩
  | const _ => by simp [matchesOp]; nofun

theorem anyMatchesOp_iff : ∀ {ps : List Pattern},
    anyMatchesOp c name ps ↔ ∃ p ∈ ps, p.Names c name
  | [] => by simp [anyMatchesOp]
  | p :: ps => by simp [anyMatchesOp, matchesOp_iff, anyMatchesOp_iff]

end

mutual

theorem isSome_trace?_iff : ∀ {p : Pattern} {e : NodeId}, (p.trace? g e).isSome ↔ p.Matches g e
  | wildcard l, e => by simp [trace?, Matches.wildcard]
  | op l name, e => by
    simp only [trace?, Option.isSome_ite]
    constructor
    · exact .op
    · intro h
      cases h with
      | op h => exact h
  | alt l options, e => by
    simp only [trace?, Option.isSome_map, isSome_traceFirst?_iff]
    constructor
    · rintro ⟨p, hp, h⟩
      exact .alt hp h
    · intro h
      cases h with
      | alt hp h => exact ⟨_, hp, h⟩
  | call l callee params, e => by
    simp only [trace?]
    constructor
    · intro h
      split at h
      next name args attrs type? hn =>
        split at h
        next hcall =>
          rw [Option.isSome_map, isSome_traceEach?_iff] at h
          exact .call hn hcall.1 (matchesOp_iff.1 hcall.2) h.2
        next => cases h
      next => cases h
    · intro h
      cases h with
      | call hn hlength hop hargs =>
        simp only [hn]
        rw [if_pos ⟨hlength, matchesOp_iff.2 hop⟩, Option.isSome_map, isSome_traceEach?_iff]
        exact ⟨hlength, hargs⟩
  | attrs l base expected, e => by
    simp only [trace?]
    constructor
    · intro h
      split at h
      next hattrs =>
        rw [Option.isSome_map, isSome_trace?_iff] at h
        exact .attrs h hattrs
      next => cases h
    · intro h
      cases h with
      | attrs h hattrs => rwa [if_pos hattrs, Option.isSome_map, isSome_trace?_iff]
  | const l, e => by
    simp only [trace?, Option.isSome_ite]
    constructor
    · exact .const
    · intro h
      cases h with
      | const h => exact h

theorem isSome_traceFirst?_iff : ∀ {ps : List Pattern} {e : NodeId},
    (traceFirst? g ps e).isSome ↔ ∃ p ∈ ps, p.Matches g e
  | [], e => by simp [traceFirst?]
  | p :: ps, e => by simp [traceFirst?, isSome_trace?_iff, isSome_traceFirst?_iff]

theorem isSome_traceEach?_iff : ∀ {ps : List Pattern} {es : List NodeId},
    (traceEach? g ps es).isSome ↔ ps.length = es.length ∧ ∀ q ∈ ps.zip es, q.1.Matches g q.2
  | [], [] => by simp [traceEach?]
  | [], _ :: _ => by simp [traceEach?]
  | _ :: _, [] => by simp [traceEach?]
  | p :: ps, e :: es => by
    have hcons : (traceEach? g (p :: ps) (e :: es)).isSome ↔
        (p.trace? g e).isSome ∧ (traceEach? g ps es).isSome := by
      rw [traceEach?]
      cases p.trace? g e <;> cases traceEach? g ps es <;> simp
    rw [hcons, isSome_trace?_iff, isSome_traceEach?_iff]
    simp [and_left_comm]

end

namespace Trail

theorem all_push (t : Trail) (l : Label) (e : NodeId) (l' : Label) :
    (t.push l e).all l' = t.all l' ++ if l = l' then [e] else [] := by
  simp only [all, push, Std.TreeMap.getD_insert, Std.compare_eq_iff_eq]
  split
  next h => simp [h]
  next => simp

structure Extends (t : Trail) (log : List (Label × NodeId)) (t' : Trail) : Prop where
  labels : t'.log = (log.map Prod.fst).reverse ++ t.log
  all : ∀ l, t'.all l = t.all l ++ Bindings.all ⟨log⟩ l

namespace Extends

theorem refl (t : Trail) : t.Extends [] t := ⟨rfl, fun _ ↦ (List.append_nil _).symm⟩

theorem trans (h : t.Extends log t') (h' : t'.Extends log' t'') : t.Extends (log ++ log') t'' := by
  refine ⟨by simp [h'.labels, h.labels], fun l ↦ ?_⟩
  rw [h'.all, h.all, List.append_assoc, Bindings.all_append]

theorem push (t : Trail) (l : Label) (e : NodeId) : t.Extends [(l, e)] (t.push l e) := by
  refine ⟨rfl, fun l' ↦ ?_⟩
  rw [all_push, Bindings.all_singleton]

theorem size (h : t.Extends log t') : t'.size = t.size + log.length := by
  simp [Trail.size, h.labels, Nat.add_comm]

/-- The entry that was added last is the newest one, and the only thing that is taken back. -/
theorem pop (h : t.Extends (log ++ [(l, e)]) t') :
    ∃ es, t'.log = l :: t'.pop.log ∧ t'.bound.getD l [] = e :: es ∧
      t'.pop.bound = t'.bound.insert l es ∧ t.Extends log t'.pop := by
  have hlog : t'.log = l :: ((log.map Prod.fst).reverse ++ t.log) := by simp [h.labels]
  have hall (l' : Label) :
      t'.all l' = t.all l' ++ Bindings.all ⟨log⟩ l' ++ if l = l' then [e] else [] := by
    rw [h.all, Bindings.all_append, Bindings.all_singleton, List.append_assoc]
  have hbound : t'.bound.getD l [] = e :: (t.all l ++ Bindings.all ⟨log⟩ l).reverse := by
    rw [← List.reverse_reverse (t'.bound.getD l []), ← Trail.all, hall]
    simp
  have hpop : t'.pop = ⟨t'.bound.insert l (t.all l ++ Bindings.all ⟨log⟩ l).reverse,
      (log.map Prod.fst).reverse ++ t.log⟩ := by
    simp only [Trail.pop, hlog, hbound, List.tail_cons]
  rw [hpop]
  refine ⟨_, hlog, hbound, rfl, rfl, fun l' ↦ ?_⟩
  rw [Trail.all, Std.TreeMap.getD_insert]
  simp only [Std.compare_eq_iff_eq]
  split
  next hl => rw [← hl, List.reverse_reverse]
  next hl => rw [← Trail.all, hall, if_neg hl, List.append_nil]

theorem takeBack {n : Nat} (h : t.Extends log t') (hn : n = log.length) :
    t.Extends [] (takeBack n t') := by
  induction log using List.reverseRecOn generalizing n t' with
  | nil => exact hn ▸ h
  | append_singleton log q ih =>
    obtain ⟨es, -, -, -, hpop⟩ := h.pop
    have hrest := ih hpop rfl
    rwa [hn, List.length_append]

theorem rollback (h : t.Extends log t') : t.Extends [] (t'.rollback t.size) :=
  h.takeBack (by rw [h.size, Nat.add_sub_cancel_left])

theorem bindings (h : Extends {} log t) : t.bindings = ⟨log⟩ := by
  suffices hentries : entries t.log t.bound = log.reverse by
    rw [Trail.bindings, hentries, List.reverse_reverse]
  induction log using List.reverseRecOn generalizing t with
  | nil => rw [h.labels]; rfl
  | append_singleton log q ih =>
    obtain ⟨es, hlog, hbound, hrest, hpop⟩ := h.pop
    rw [hlog, entries, hbound, List.reverse_append]
    simp only [← hrest, ih hpop]
    rfl

end Extends

end Trail

namespace Matcher

variable {x : Matcher Bool} {r : Option (List (Label × NodeId))}

theorem run_bind {α β : Type} (x : Matcher α) (f : α → Matcher β) (t : Trail) :
    (x >>= f).run t = (f (x.run t).1).run (x.run t).2 := rfl

/-- The computation succeeds if there is `r`, and has then added `r`. If it fails it may have added
anything. -/
def Tries (x : Matcher Bool) (r : Option (List (Label × NodeId))) : Prop :=
  ∀ t, ∃ log t', x.run t = (r.isSome, t') ∧ t.Extends log t' ∧ ∀ log' ∈ r, log' = log

/-- The computation succeeds if there is `r`, and has then added `r`. If it fails it has added
nothing. -/
def Finds (x : Matcher Bool) (r : Option (List (Label × NodeId))) : Prop :=
  ∀ t, ∃ t', x.run t = (r.isSome, t') ∧ t.Extends (r.getD []) t'

theorem Finds.tries (h : x.Finds r) : x.Tries r := by
  intro t
  obtain ⟨t', hrun, hextends⟩ := h t
  refine ⟨_, t', hrun, hextends, ?_⟩
  rintro log rfl
  rfl

theorem finds_pure_false : Finds (pure false) none := fun t ↦ ⟨t, rfl, .refl t⟩

theorem tries_pure (b : Bool) : Tries (pure b) (if b then some [] else none) := by
  intro t
  cases b with
  | false => exact ⟨[], t, rfl, .refl t, nofun⟩
  | true => exact ⟨[], t, rfl, .refl t, fun _ h ↦ (Option.some.inj h).symm⟩

/-- A part takes back whatever was added before it failed. -/
theorem Tries.part (h : x.Tries r) (l : Label) (e : NodeId) :
    (part l e x).Finds (r.map (· ++ [(l, e)])) := by
  intro t
  obtain ⟨log, t', hrun, hextends, hlog⟩ := h t
  have hpart : (Matcher.part l e x).run t =
      (r.isSome, if r.isSome then t'.push l e else t'.rollback t.size) := by
    have hmark : (get : Matcher Trail).run t = (t, t) := rfl
    rw [Matcher.part, run_bind, hmark, run_bind, hrun]
    cases r <;> rfl
  cases r with
  | none => exact ⟨_, hpart, hextends.rollback⟩
  | some log' =>
    cases hlog log' rfl
    exact ⟨_, hpart, hextends.trans (.push t' l e)⟩

theorem Finds.orElse {y : Matcher Bool} {r' : Option (List (Label × NodeId))} (h : x.Finds r)
    (h' : y.Finds r') : Finds (do if ← x then return true else y) (r.or r') := by
  intro t
  obtain ⟨t', hrun, hextends⟩ := h t
  cases r with
  | none =>
    obtain ⟨t'', hrun', hextends'⟩ := h' t'
    refine ⟨t'', ?_, hextends.trans hextends'⟩
    rw [run_bind, hrun]
    exact hrun'
  | some log =>
    refine ⟨t', ?_, hextends⟩
    rw [run_bind, hrun]
    rfl

theorem Finds.andThen {y : Matcher Bool} {r' : Option (List (Label × NodeId))} (h : x.Finds r)
    (h' : y.Tries r') :
    Tries (do if ← x then y else return false) (r.bind fun log ↦ r'.map (log ++ ·)) := by
  intro t
  obtain ⟨t', hrun, hextends⟩ := h t
  cases r with
  | none =>
    refine ⟨[], t', ?_, hextends, nofun⟩
    rw [run_bind, hrun]
    rfl
  | some log =>
    obtain ⟨log', t'', hrun', hextends', hlog⟩ := h' t'
    refine ⟨log ++ log', t'', ?_, hextends.trans hextends', ?_⟩
    · rw [run_bind, hrun]
      simpa using hrun'
    · intro log₁ hlog₁
      obtain ⟨log₂, hlog₂, rfl⟩ := Option.map_eq_some_iff.1 hlog₁
      rw [hlog log₂ hlog₂]

end Matcher

theorem finds_test (b : Bool) (l : Label) (e : NodeId) :
    (Matcher.part l e (return b)).Finds (if b then some [(l, e)] else none) := by
  cases b with
  | false => exact (Matcher.tries_pure false).part l e
  | true => exact (Matcher.tries_pure true).part l e

mutual

theorem find_finds : ∀ (p : Pattern) (e : NodeId), (p.find g e).Finds (p.trace? g e)
  | wildcard l, e => (Matcher.tries_pure true).part l e
  | op l name, e => by simpa [find, trace?] using finds_test (g.callee? e = some name) l e
  | alt l options, e => (findFirst_finds options e).tries.part l e
  | call l callee params, e => by
    rw [find, trace?]
    rcases g.node? e with _ | ⟨_ | _ | ⟨name, args, attrs⟩, type?⟩
    · exact Matcher.finds_pure_false.tries.part l e
    · exact Matcher.finds_pure_false.tries.part l e
    · exact Matcher.finds_pure_false.tries.part l e
    · by_cases hcall : params.length = args.length ∧ callee.matchesOp g.catalog name
      · simp only [if_pos hcall]
        exact (findEach_tries params args hcall.1).part l e
      · simp only [if_neg hcall]
        exact Matcher.finds_pure_false.tries.part l e
  | attrs l base expected, e => by
    have h := (find_finds base e).andThen
      (Matcher.tries_pure (expected.Included ((g.attrs? e).getD .empty)))
    rw [find, trace?]
    split
    next hattrs => simpa [hattrs] using h.part l e
    next hattrs => simpa [hattrs] using h.part l e
  | const l, e => finds_test _ l e

theorem findFirst_finds : ∀ (ps : List Pattern) (e : NodeId),
    (findFirst g ps e).Finds (traceFirst? g ps e)
  | [], _ => Matcher.finds_pure_false
  | p :: ps, e => (find_finds p e).orElse (findFirst_finds ps e)

theorem findEach_tries : ∀ (ps : List Pattern) (es : List NodeId), ps.length = es.length →
    (findEach g ps es).Tries (traceEach? g ps es)
  | [], [], _ => Matcher.tries_pure true
  | p :: ps, e :: es, h => (find_finds p e).andThen (findEach_tries ps es (Nat.succ.inj h))

end

theorem match?_eq (p : Pattern) (e : NodeId) : p.match? g e = (p.trace? g e).map Bindings.mk := by
  obtain ⟨t, hrun, hextends⟩ := find_finds (g := g) p e {}
  rw [match?, hrun]
  cases htrace : p.trace? g e with
  | none => rfl
  | some log =>
    rw [htrace] at hextends
    exact congrArg some hextends.bindings

def nodesAt (log : List (Label × NodeId)) (l : Label) : List NodeId :=
  (log.filter fun q ↦ q.1 = l).map Prod.snd

theorem all_eq_nodesAt (log : List (Label × NodeId)) (l : Label) :
    Bindings.all ⟨log⟩ l = nodesAt log l := by
  rw [Bindings.all, nodesAt, ← List.filterMap_eq_map, ← List.filterMap_eq_filter,
    List.filterMap_filterMap]
  congr 1
  funext q
  obtain ⟨l', e⟩ := q
  by_cases h : l' = l <;> simp [Option.guard, h]

/-- The matcher succeeds exactly where the pattern matches, and has then bound every part to the
nodes of the trace, in their order. Where the pattern does not match, nothing has changed. -/
theorem find_refines_trace (g : Graph) (p : Pattern) (e : NodeId) :
    ((p.match? g e).isSome ↔ p.Matches g e) ∧
    (∀ b, p.match? g e = some b → ∃ log, p.trace? g e = some log ∧ b.size = log.length ∧
      ∀ l, b.all l = nodesAt log l) ∧
    ∀ t : Trail,
      (p.Matches g e → ∃ log t', p.trace? g e = some log ∧ (p.find g e).run t = (true, t') ∧
        t'.size = t.size + log.length ∧ ∀ l, t'.all l = t.all l ++ nodesAt log l) ∧
      (¬p.Matches g e → ∃ t', (p.find g e).run t = (false, t') ∧ t'.log = t.log ∧
        ∀ l, t'.all l = t.all l) := by
  rw [match?_eq, Option.isSome_map, isSome_trace?_iff]
  refine ⟨.rfl, ?_, fun t ↦ ?_⟩
  · intro b hb
    obtain ⟨log, hlog, rfl⟩ := Option.map_eq_some_iff.1 hb
    exact ⟨log, hlog, rfl, all_eq_nodesAt log⟩
  · obtain ⟨t', hrun, hextends⟩ := find_finds (g := g) p e t
    constructor
    · intro h
      obtain ⟨log, hlog⟩ := Option.isSome_iff_exists.1 (isSome_trace?_iff.2 h)
      rw [hlog] at hrun hextends
      refine ⟨log, t', hlog, hrun, hextends.size, fun l ↦ ?_⟩
      rw [hextends.all, ← all_eq_nodesAt]
      rfl
    · intro h
      have hnone : p.trace? g e = none := by
        rwa [← Option.not_isSome_iff_eq_none, isSome_trace?_iff]
      rw [hnone] at hrun hextends
      refine ⟨t', hrun, hextends.labels, fun l ↦ ?_⟩
      exact (hextends.all l).trans (List.append_nil _)

-- the first option binds a constant and then fails at a variable: what it has bound is gone
example :
    let plus (l : Label) (p q : Pattern) : Pattern := .call l (.op 2 Op.add) [p, q]
    let p : Pattern := .alt 5 [plus 3 (.wildcard 0) (.const 1), plus 4 (.const 1) (.wildcard 0)]
    let g : Graph := { nodes := #[⟨.const default, none⟩, ⟨.var "x", none⟩,
      ⟨.call Op.add [0, 1] .empty, none⟩] }
    p.match? g 2 = some ⟨[(1, 0), (0, 1), (4, 2), (5, 2)]⟩ := by
  decide +kernel

end TensorOpt.Pattern
