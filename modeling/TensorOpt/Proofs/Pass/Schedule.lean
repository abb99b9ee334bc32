import TensorOpt.Proofs.Pass.Frame
import TensorOpt.Proofs.Pass.Typed

namespace TensorOpt.Pipeline

/-- What a requirement stands for: a provided pass of that name if there is one, or else a listed
one. -/
def resolve (p : Pipeline) (name : String) : Option Pass :=
  (p.provided.find? (·.name = name)).or (p.passes.find? (·.name = name))

theorem find?_eq_resolve (p : Pipeline) (name : String) : p.find? name = p.resolve name :=
  List.find?_append

def enabled (p : Pipeline) (o : PassOptions) : List Pass := p.passes.filter (o.Enables ·)

/-- The runs that the options call for; `none` stands for a requirement that no pass meets. -/
def schedule (p : Pipeline) (o : PassOptions) : List (Option Pass) :=
  (p.enabled o).flatMap fun q ↦ q.required.map p.resolve ++ [some q]

inductive Step
  | run (pass : Pass)
  | unmet (name requiredBy : String)
  | check (pass : Pass)

/-- Steps taken one by one, with the runs among them and the outcome. A run takes the root and the
graph that the last one left, and the first failure is the outcome. -/
inductive Follows : List Step → NodeId → Graph → List (Pass × NodeId) →
    Except PassError NodeId × Graph → Prop
  | done {root g} : Follows [] root g [] (.ok root, g)
  | run {q root r g g' rest ran out} (hrun : exec (q.run root) g = (.ok r, g'))
    (hrest : Follows rest r g' ran out) : Follows (.run q :: rest) root g ((q, root) :: ran) out
  | fail {q root g g' err rest} (hrun : exec (q.run root) g = (.error err, g')) :
    Follows (.run q :: rest) root g [(q, root)] (.error err, g')
  | unmet {name requiredBy root g rest} :
    Follows (.unmet name requiredBy :: rest) root g [] (.error (.unknownPass name requiredBy), g)
  | typed {q root g rest ran out} (htyped : g.Typed root) (hrest : Follows rest root g ran out) :
    Follows (.check q :: rest) root g ran out
  | untyped {q root e g rest} (huntyped : g.untyped? root = some e) :
    Follows (.check q :: rest) root g [] (.error (.untyped q.name e), g)

def Step.slot? : Step → Option (Option Pass)
  | run q => some (some q)
  | unmet _ _ => some none
  | check _ => none

variable {q : Pass} {g g' : Graph} {root r : NodeId} {s : PipelineState}

namespace Follows

variable {steps rest : List Step} {ran ran' : List (Pass × NodeId)} {err : PassError}
  {out : Except PassError NodeId × Graph}

theorem append (h : Follows steps root g ran (.ok r, g')) (hrest : Follows rest r g' ran' out) :
    Follows (steps ++ rest) root g (ran ++ ran') out := by
  generalize hout : (Except.ok r, g') = out₁ at h
  induction h with
  | done =>
    cases hout
    exact hrest
  | run hrun _ ih => exact .run hrun (ih hout)
  | typed htyped _ ih => exact .typed htyped (ih hout)
  | fail | unmet | untyped => cases hout

theorem append_error (h : Follows steps root g ran (.error err, g')) :
    Follows (steps ++ rest) root g ran (.error err, g') := by
  generalize hout : (Except.error err, g') = out₁ at h
  induction h with
  | done => cases hout
  | run hrun _ ih => exact .run hrun (ih hout)
  | fail hrun =>
    cases hout
    exact .fail hrun
  | unmet =>
    cases hout
    exact .unmet
  | typed htyped _ ih => exact .typed htyped (ih hout)
  | untyped huntyped =>
    cases hout
    exact .untyped huntyped

theorem ran_prefix (h : Follows steps root g ran out) :
    ran.map (some ·.1) <+: steps.filterMap Step.slot? := by
  induction h with
  | done => exact List.nil_prefix
  | run _ _ ih => exact List.cons_prefix_cons.2 ⟨rfl, ih⟩
  | fail => exact List.cons_prefix_cons.2 ⟨rfl, List.nil_prefix⟩
  | unmet => exact List.nil_prefix
  | typed _ _ ih => exact ih
  | untyped => exact List.nil_prefix

theorem ran_eq (h : Follows steps root g ran (.ok r, g')) :
    ran.map (some ·.1) = steps.filterMap Step.slot? := by
  generalize hout : (Except.ok r, g') = out at h
  induction h with
  | done => rfl
  | run _ _ ih => exact congrArg _ (ih hout)
  | typed _ _ ih => exact ih hout
  | fail | unmet | untyped => cases hout

theorem typed_of_check (h : Follows (steps ++ [.check q]) root g ran (.ok r, g')) : g'.Typed r := by
  induction steps generalizing root g ran with
  | nil =>
    cases h with
    | typed htyped hrest =>
      cases hrest
      exact htyped
  | cons step steps ih =>
    cases h with
    | run _ hrest => exact ih hrest
    | typed _ hrest => exact ih hrest

end Follows

def Takes (steps : List Step) (root : NodeId) (s : PipelineState)
    (out : Except PassError NodeId × PipelineState) : Prop :=
  ∃ ran : List (Pass × NodeId),
    out.2.runs.toList = s.runs.toList ++ ran.map (fun x ↦ (x.1.name, x.2)) ∧
      Follows steps root s.graph ran (out.1, out.2.graph)

namespace Takes

variable {steps rest : List Step}

/-- Steps without a run. -/
theorem of_follows {x : Except PassError NodeId} (h : Follows steps root s.graph [] (x, s.graph)) :
    Takes steps root s (x, s) :=
  ⟨[], (List.append_nil _).symm, h⟩

theorem pure (root : NodeId) (s : PipelineState) : Takes [] root s (.ok root, s) := of_follows .done

theorem bind {x : PassRun NodeId} {f : NodeId → PassRun NodeId} (hx : Takes steps root s (exec x s))
    (hf : ∀ r s', Takes rest r s' (exec (f r) s')) :
    Takes (steps ++ rest) root s (exec (x >>= f) s) := by
  obtain ⟨ran, hruns, hfollows⟩ := hx
  rw [exec_bind]
  rcases hexec : exec x s with ⟨_ | r, s₁⟩
  · rw [hexec] at hruns hfollows
    exact ⟨ran, hruns, hfollows.append_error⟩
  · rw [hexec] at hruns hfollows
    obtain ⟨ran', hruns', hfollows'⟩ := hf r s₁
    refine ⟨ran ++ ran', ?_, hfollows.append hfollows'⟩
    rw [hruns', hruns, List.map_append, List.append_assoc]

end Takes

theorem takes_runPass (q : Pass) (root : NodeId) (s : PipelineState) :
    Takes [.run q] root s (exec (runPass q root) s) := by
  rw [exec_runPass]
  refine ⟨[(q, root)], Array.toList_push, ?_⟩
  rcases hexec : exec (q.run root) s.graph with ⟨_ | r, g⟩
  · exact .fail hexec
  · exact .run hexec .done

def requirement (p : Pipeline) (requiredBy name : String) : Step :=
  match p.resolve name with
  | some q => .run q
  | none => .unmet name requiredBy

theorem slot?_requirement (p : Pipeline) (requiredBy name : String) :
    (p.requirement requiredBy name).slot? = some (p.resolve name) := by
  rw [requirement]
  cases p.resolve name <;> rfl

theorem takes_runRequired (p : Pipeline) (requiredBy : String) (names : List String)
    (root : NodeId) (s : PipelineState) :
    Takes (names.map (p.requirement requiredBy)) root s
      (exec (p.runRequired requiredBy names root) s) := by
  induction names generalizing root s with
  | nil => exact .pure root s
  | cons name rest ih =>
    rw [runRequired, find?_eq_resolve, List.map_cons, requirement]
    cases p.resolve name with
    | none => exact .of_follows .unmet
    | some q => exact (takes_runPass q root s).bind ih

def checks (q : Pass) : List Step := if Pass.inferType ∈ q.required then [.check q] else []

theorem exec_checkTyped (q : Pass) (root : NodeId) (s : PipelineState) :
    exec (checkTyped q root) s = (if Pass.inferType ∈ q.required then
      match s.graph.untyped? root with
      | some e => .error (.untyped q.name e)
      | none => .ok ()
    else .ok (), s) := by
  rw [checkTyped]
  split
  next =>
    rw [exec_bind, exec_get]
    simp only
    cases s.graph.untyped? root <;> rfl
  next => rfl

theorem takes_checkTyped (q : Pass) (root : NodeId) (s : PipelineState) :
    Takes (checks q) root s (exec (checkTyped q root >>= fun _ ↦ pure root) s) := by
  rw [exec_bind, exec_checkTyped, checks]
  split_ifs
  · cases huntyped : s.graph.untyped? root with
    | some e => exact .of_follows (.untyped huntyped)
    | none => exact .of_follows (.typed (Graph.untyped?_eq_none_iff.1 huntyped) .done)
  · exact .pure root s

def steps (p : Pipeline) (q : Pass) : List Step :=
  q.required.map (p.requirement q.name) ++ .run q :: checks q

theorem filterMap_steps (p : Pipeline) (q : Pass) :
    (p.steps q).filterMap Step.slot? = q.required.map p.resolve ++ [some q] := by
  have hchecks : (checks q).filterMap Step.slot? = [] := by
    rw [checks]
    split <;> rfl
  have hrequired : Step.slot? ∘ p.requirement q.name = some ∘ p.resolve :=
    funext (slot?_requirement p q.name)
  have hrun : (Step.run q :: checks q).filterMap Step.slot? = [some q] := by
    rw [List.filterMap_cons, hchecks]
    rfl
  rw [steps, List.filterMap_append, hrun, List.filterMap_map, hrequired, List.filterMap_eq_map]

def plan (p : Pipeline) (o : PassOptions) : List Step := (p.enabled o).flatMap p.steps

theorem filterMap_plan (p : Pipeline) (o : PassOptions) :
    (p.plan o).filterMap Step.slot? = p.schedule o := by
  simp only [plan, schedule, List.filterMap_flatMap, filterMap_steps]

theorem takes_runEach (p : Pipeline) (o : PassOptions) (passes : List Pass) (root : NodeId)
    (s : PipelineState) :
    Takes ((passes.filter (o.Enables ·)).flatMap p.steps) root s
      (exec (p.runEach o passes root) s) := by
  induction passes generalizing root s with
  | nil => exact .pure root s
  | cons q rest ih =>
    rw [runEach]
    split
    next henabled =>
      rw [List.filter_cons_of_pos (by simpa using henabled), List.flatMap_cons, steps,
        List.append_assoc]
      refine (takes_runRequired p q.name q.required root s).bind fun r₁ s₁ ↦ ?_
      refine (takes_runPass q r₁ s₁).bind fun r₂ s₂ ↦ ?_
      have hbind : (checkTyped q r₂ >>= fun _ ↦ p.runEach o rest r₂) =
          (checkTyped q r₂ >>= fun _ ↦ pure r₂) >>= p.runEach o rest := by
        simp only [bind_assoc, pure_bind]
      rw [hbind]
      exact (takes_checkTyped q r₂ s₂).bind ih
    next henabled =>
      rw [List.filter_cons_of_neg (by simpa using henabled)]
      exact ih root s

/-- Whatever the passes do, the runs of a pipeline are what the enabled passes call for, in their
order: what a pass requires, provided passes before listed ones, and then the pass. Each run takes
the root and the graph that the one before it left. The first pass that fails, requirement that
nothing meets or node without a type ends the run, and its error is the outcome. If there is none,
all of the schedule has been run; and if the last of the enabled passes requires types, whatever
its result reaches has one. -/
theorem run_follows_schedule (p : Pipeline) (o : PassOptions) (root : NodeId) (s : PipelineState) :
    let out := exec (p.run o root) s
    ∃ ran : List (Pass × NodeId),
      out.2.runs.toList = s.runs.toList ++ ran.map (fun x ↦ (x.1.name, x.2)) ∧
      Follows (p.plan o) root s.graph ran (out.1, out.2.graph) ∧
      ran.map (some ·.1) <+: p.schedule o ∧
      ∀ r, out.1 = .ok r → ran.map (some ·.1) = p.schedule o ∧
        ∀ q, (p.enabled o).getLast? = some q → Pass.inferType ∈ q.required →
          out.2.graph.Typed r := by
  intro out
  obtain ⟨ran, hruns, hfollows⟩ := takes_runEach p o p.passes root s
  have hplan : Follows (p.plan o) root s.graph ran (out.1, out.2.graph) := hfollows
  refine ⟨ran, hruns, hplan, filterMap_plan p o ▸ hplan.ran_prefix, fun r hr ↦ ?_⟩
  rw [hr] at hplan
  refine ⟨filterMap_plan p o ▸ hplan.ran_eq, fun q hlast hq ↦ ?_⟩
  obtain ⟨front, hfront⟩ := List.getLast?_eq_some_iff.1 hlast
  have hsteps : p.plan o =
      (front.flatMap p.steps ++ (q.required.map (p.requirement q.name) ++ [.run q])) ++
        [.check q] := by
    simp [plan, hfront, steps, checks, hq]
  rw [hsteps] at hplan
  exact hplan.typed_of_check

section Duplicates

def typing : Pass := .stock "InferType" 0 [] (.assign (some (vector 2)))

def negating : Pass := .stock "Negate" 1 ["InferType"] (.wrap (some (vector 2)))

def negatingTwice : Pipeline where
  passes := [.stock "InferType" 3 [] .fail, .stock "Refuse" 0 [] .fail, negating, negating]
  provided := [typing]

def negations : Nat → Graph
  | 0 => negation (some (vector 2))
  | n + 1 => (negations n).push (.call Op.negative [n + 1] [] (some (vector 2)))

theorem typed_negations (n : Nat) : (negations n).Typed (n + 1) ∧ (negations n).size = n + 2 := by
  induction n with
  | zero => exact ⟨(Graph.Ascending.checked (by decide) (by decide) (by decide)).typed, rfl⟩
  | succ n ih =>
    obtain ⟨htyped, hsize⟩ := ih
    refine ⟨.push rfl (List.forall_mem_singleton.2 htyped) (.inl hsize.symm), ?_⟩
    rw [negations, Graph.size_push, hsize]

theorem exec_negatingTwice :
    exec (negatingTwice.run { disabled := ["Refuse"] } 1) ⟨negation none, #[]⟩ =
      (.ok 3, ⟨negations 2,
        #[("InferType", 1), ("Negate", 1), ("InferType", 2), ("Negate", 2)]⟩) := by
  have hcheck (n : Nat) (runs : Array (String × NodeId)) :
      exec (checkTyped negating (n + 1)) ⟨negations n, runs⟩ = (.ok (), ⟨negations n, runs⟩) := by
    rw [exec_checkTyped, Graph.untyped?_eq_none_iff.2 (typed_negations n).1]
    rfl
  show exec (negatingTwice.runEach _ [_, _, negating, negating] 1) _ = _
  rw [runEach, if_neg (by decide), runEach, if_neg (by decide), runEach, if_pos (by decide)]
  refine exec_bind_ok.2 ⟨1, ⟨negations 0, #[("InferType", 1)]⟩, rfl, ?_⟩
  refine exec_bind_ok.2 ⟨2, ⟨negations 1, #[("InferType", 1), ("Negate", 1)]⟩, rfl, ?_⟩
  refine exec_bind_ok.2 ⟨(), _, hcheck 1 _, ?_⟩
  rw [runEach, if_pos (by decide)]
  refine exec_bind_ok.2 ⟨2, ⟨negations 1, _⟩, rfl, ?_⟩
  refine exec_bind_ok.2 ⟨3, ⟨negations 2, _⟩, rfl, ?_⟩
  exact exec_bind_ok.2 ⟨(), _, hcheck 2 _, rfl⟩

theorem run_follows_schedule_negatingTwice :
    let o : PassOptions := { disabled := ["Refuse"] }
    negatingTwice.schedule o = [some typing, some negating, some typing, some negating] ∧
      (negatingTwice.enabled o).getLast? = some negating ∧ Pass.inferType ∈ negating.required ∧
      (exec (negatingTwice.run o 1) ⟨negation none, #[]⟩).1 = .ok 3 ∧
      (exec (negatingTwice.run o 1) ⟨negation none, #[]⟩).2.graph.Typed 3 := by
  intro o
  have hok : (exec (negatingTwice.run o 1) ⟨negation none, #[]⟩).1 = .ok 3 :=
    congrArg Prod.fst exec_negatingTwice
  obtain ⟨ran, -, -, -, h⟩ := run_follows_schedule negatingTwice o 1 ⟨negation none, #[]⟩
  exact ⟨rfl, rfl, by decide, hok, (h 3 hok).2 negating rfl (by decide)⟩

end Duplicates

end TensorOpt.Pipeline
