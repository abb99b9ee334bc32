import TensorOpt.Proofs.Graph.Growth
import TensorOpt.Proofs.Pattern.Trace

namespace TensorOpt.Pattern

variable {g : Graph} {e : NodeId} {b : Bindings} {l : Label} {log : List (Label × NodeId)}

theorem trace?_call_eq_some {callee : Pattern} {params : List Pattern} :
    (call l callee params).trace? g e = some log ↔
      ∃ name args attrs type? log', g.node? e = some ⟨.call name args attrs, type?⟩ ∧
        params.length = args.length ∧ callee.matchesOp g.catalog name ∧
          traceEach? g params args = some log' ∧ log' ++ [(l, e)] = log := by
  simp only [trace?]
  split
  next name args attrs type? hn => simp [hn, and_assoc]
  next hn =>
    constructor
    · intro h
      cases h
    · rintro ⟨name, args, attrs, type?, log', hn', -⟩
      exact absurd hn' (hn name args attrs type?)

theorem traceFirst?_eq_some {options : List Pattern} (h : traceFirst? g options e = some log) :
    ∃ p ∈ options, p.trace? g e = some log := by
  induction options with
  | nil => cases h
  | cons p rest ih =>
    rcases Option.or_eq_some_iff.1 h with h | ⟨-, h⟩
    · exact ⟨p, List.mem_cons_self, h⟩
    · obtain ⟨q, hq, htrace⟩ := ih h
      exact ⟨q, List.mem_cons_of_mem p hq, htrace⟩

theorem trace?_alt_eq_some {options : List Pattern}
    (h : (alt l options).trace? g e = some log) :
    ∃ p ∈ options, ∃ log', p.trace? g e = some log' ∧ log' ++ [(l, e)] = log := by
  obtain ⟨log', hlog', rfl⟩ := Option.map_eq_some_iff.1 h
  obtain ⟨p, hp, htrace⟩ := traceFirst?_eq_some hlog'
  exact ⟨p, hp, log', htrace, rfl⟩

theorem traceEach?_cons_eq_some {p : Pattern} {ps : List Pattern} {es : List NodeId} :
    traceEach? g (p :: ps) (e :: es) = some log ↔
      ∃ first rest, p.trace? g e = some first ∧ traceEach? g ps es = some rest ∧
        first ++ rest = log := by
  simp [traceEach?, Option.bind_eq_some_iff]

theorem trace?_of_match? {p : Pattern} (h : p.match? g e = some b) :
    p.trace? g e = some b.log := by
  rw [match?_eq] at h
  obtain ⟨log, hlog, rfl⟩ := Option.map_eq_some_iff.1 h
  exact hlog

/-- A pattern of one call on another: what the two calls are, and what is recorded. -/
theorem match?_call_call {l₀ l₁ l₂ : Label} {outer inner : Pattern}
    (h : (call l₂ outer [call l₁ inner [wildcard l₀]]).match? g e = some b) :
    ∃ x y op op' attrs attrs' type? type?', g.node? e = some ⟨.call op [y] attrs, type?⟩ ∧
      g.node? y = some ⟨.call op' [x] attrs', type?'⟩ ∧ outer.matchesOp g.catalog op ∧
        inner.matchesOp g.catalog op' ∧ b = ⟨[(l₀, x), (l₁, y), (l₂, e)]⟩ := by
  obtain ⟨op, args, attrs, type?, log, hn, hlength, hop, hargs, hlog⟩ :=
    trace?_call_eq_some.1 (trace?_of_match? h)
  obtain ⟨y, rfl⟩ := List.length_eq_one_iff.1 hlength.symm
  obtain ⟨_, _, hy, hnil, rfl⟩ := traceEach?_cons_eq_some.1 hargs
  cases hnil
  obtain ⟨op', args', attrs', type?', _, hn', hlength', hop', hargs', rfl⟩ :=
    trace?_call_eq_some.1 hy
  obtain ⟨x, rfl⟩ := List.length_eq_one_iff.1 hlength'.symm
  cases hargs'
  refine ⟨x, y, op, op', attrs, attrs', type?, type?', hn, hn', hop, hop', ?_⟩
  exact congrArg Bindings.mk hlog.symm

theorem match?_of_call_call {x y : NodeId} {l₀ l₁ l₂ : Label} {outer inner : Pattern}
    {op op' : String} {attrs attrs' : Attrs} {type? type?' : Option TensorType}
    (hn : g.node? e = some ⟨.call op [y] attrs, type?⟩)
    (hn' : g.node? y = some ⟨.call op' [x] attrs', type?'⟩)
    (hop : outer.matchesOp g.catalog op) (hop' : inner.matchesOp g.catalog op') :
    (call l₂ outer [call l₁ inner [wildcard l₀]]).match? g e =
      some ⟨[(l₀, x), (l₁, y), (l₂, e)]⟩ := by
  have hinner : (call l₁ inner [wildcard l₀]).trace? g y = some [(l₀, x), (l₁, y)] :=
    trace?_call_eq_some.2 ⟨op', [x], attrs', type?', _, hn', rfl, hop', rfl, rfl⟩
  have hargs : traceEach? g [call l₁ inner [wildcard l₀]] [y] = some [(l₀, x), (l₁, y)] :=
    traceEach?_cons_eq_some.2 ⟨_, _, hinner, rfl, rfl⟩
  rw [match?_eq, trace?_call_eq_some.2 ⟨op, [y], attrs, type?, _, hn, rfl, hop, hargs, rfl⟩]
  rfl

section Reaches

variable {q : Label × NodeId}

theorem reaches_of_mem_append (h : q ∈ log → g.Reaches e q.2) (hq : q ∈ log ++ [(l, e)]) :
    g.Reaches e q.2 := by
  rcases List.mem_append.1 hq with hq | hq
  · exact h hq
  · cases List.mem_singleton.1 hq
    exact .refl

mutual

theorem reaches_of_trace? : ∀ {p : Pattern} {e : NodeId} {log : List (Label × NodeId)},
    p.trace? g e = some log → ∀ q ∈ log, g.Reaches e q.2
  | wildcard l, e, log, h, q, hq => by
    cases h
    cases List.mem_singleton.1 hq
    exact .refl
  | op l name, e, log, h, q, hq => by
    simp only [trace?, Option.ite_none_right_eq_some, Option.some.injEq] at h
    obtain ⟨-, rfl⟩ := h
    cases List.mem_singleton.1 hq
    exact .refl
  | alt l options, e, log, h, q, hq => by
    obtain ⟨log', hlog', rfl⟩ := Option.map_eq_some_iff.1 h
    exact reaches_of_mem_append (reaches_of_traceFirst? hlog' q) hq
  | call l callee params, e, log, h, q, hq => by
    obtain ⟨name, args, attrs, type?, log', hn, -, -, hlog', rfl⟩ := trace?_call_eq_some.1 h
    refine reaches_of_mem_append (fun hq ↦ ?_) hq
    obtain ⟨a, ha, hreach⟩ := reaches_of_traceEach? hlog' q hq
    exact .head ((Graph.hasArg_iff hn).2 ha) hreach
  | attrs l base expected, e, log, h, q, hq => by
    simp only [trace?, Option.ite_none_right_eq_some, Option.map_eq_some_iff] at h
    obtain ⟨-, log', hlog', rfl⟩ := h
    exact reaches_of_mem_append (reaches_of_trace? hlog' q) hq
  | const l, e, log, h, q, hq => by
    simp only [trace?, Option.ite_none_right_eq_some, Option.some.injEq] at h
    obtain ⟨-, rfl⟩ := h
    cases List.mem_singleton.1 hq
    exact .refl

theorem reaches_of_traceFirst? : ∀ {ps : List Pattern} {e : NodeId}
    {log : List (Label × NodeId)}, traceFirst? g ps e = some log → ∀ q ∈ log, g.Reaches e q.2
  | [], _, _, h, _, _ => nomatch h
  | p :: ps, e, log, h, q, hq => by
    rcases Option.or_eq_some_iff.1 h with h | ⟨-, h⟩
    · exact reaches_of_trace? h q hq
    · exact reaches_of_traceFirst? h q hq

theorem reaches_of_traceEach? : ∀ {ps : List Pattern} {es : List NodeId}
    {log : List (Label × NodeId)}, traceEach? g ps es = some log →
      ∀ q ∈ log, ∃ a ∈ es, g.Reaches a q.2
  | [], [], log, h, q, hq => by
    cases h
    cases hq
  | p :: ps, a :: es, log, h, q, hq => by
    obtain ⟨first, rest, hfirst, hrest, rfl⟩ := traceEach?_cons_eq_some.1 h
    rcases List.mem_append.1 hq with hq | hq
    · exact ⟨a, List.mem_cons_self, reaches_of_trace? hfirst q hq⟩
    · obtain ⟨a', ha', hreach⟩ := reaches_of_traceEach? hrest q hq
      exact ⟨a', List.mem_cons_of_mem a ha', hreach⟩

end

theorem reaches_of_match? {p : Pattern} (h : p.match? g e = some b) (hq : q ∈ b.log) :
    g.Reaches e q.2 :=
  reaches_of_trace? (trace?_of_match? h) q hq

end Reaches

end TensorOpt.Pattern
