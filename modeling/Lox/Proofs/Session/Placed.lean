import Lox.Proofs.Session.Grounded

/-!
Sessions without identities. In a placed program each reference carries its binding. A session whose
programs are placed when they are accepted needs no table of bindings, and answers as the session with
the table does: the table never finds a binding of one reference for another one.
-/

namespace Lox

variable {ρ σ : Type}

namespace Answer

def relabel (φ : Relabeling ρ σ) : Answer ρ → Answer σ
  | .program p => .program (p.map (Stmt.relabel φ))
  | .value v => .value (v.relabel φ)
  | .line v => .line (v.map (Value.relabel φ))
  | .failure f => .failure f
  | .nothing => .nothing

@[simp] theorem isRejected_relabel (φ : Relabeling ρ σ) (a : Answer ρ) :
    (a.relabel φ).isRejected = a.isRejected := by
  cases a with
  | failure f => cases f <;> rfl
  | _ => rfl

end Answer

namespace Session

theorem isExpression_cons_cons (s t : Stmt ρ) (p : List (Stmt ρ)) :
    isExpression (s :: t :: p) = false := by
  cases s <;> rfl

@[simp] theorem isExpression_map (φ : Relabeling ρ σ) (p : List (Stmt ρ)) :
    isExpression (p.map (Stmt.relabel φ)) = isExpression p := by
  have one (s : Stmt ρ) : isExpression [s.relabel φ] = isExpression [s] := by
    cases s with
    | var name initial => cases initial <;> rfl
    | «if» c y n => cases n <;> rfl
    | «return» keyword value => cases value <;> rfl
    | _ => rfl
  match p with
  | [] => rfl
  | [s] => exact one s
  | a :: b :: p =>
    rw [List.map_cons, List.map_cons, isExpression_cons_cons, isExpression_cons_cons]

end Session

theorem History.map_echo (φ : Relabeling ρ σ) (line : String) (p : List (Stmt ρ))
    (v : Value ρ EnvId) :
    (echo line p v).map (Value.relabel φ) = echo line (p.map (Stmt.relabel φ)) (v.relabel φ) := by
  unfold echo
  rw [Session.isExpression_map]
  split <;> rfl

/-- A session whose programs carry the bindings of their references. -/
structure Placed where
  machine : Machine (Option Binding)
  programs : List (List (Stmt (Option Binding))) := []
  unused : Severity

namespace Placed

def executing (s : Placed) (fuel : Nat) (p : List (Stmt (Option Binding)))
    (answer : Value (Option Binding) EnvId → Answer (Option Binding)) :
    Answer (Option Binding) × Placed :=
  match interpret id fuel p s.machine with
  | .ok v machine => (answer v, { s with machine })
  | .error stop machine => (.failure (.stopped stop), { s with machine })

/-- Goes on with the program of a text, unless the text is rejected. -/
def accept (s : Placed) (source : String)
    (next : Placed → List (Stmt (Option Binding)) → Answer (Option Binding) × Placed) :
    Answer (Option Binding) × Placed :=
  if Session.rejection s.unused source = [] then
    next { s with programs := s.programs ++ [Session.placed source] } (Session.placed source)
  else (.failure (.rejected (Session.rejection s.unused source)), s)

def perform (s : Placed) : Step → Answer (Option Binding) × Placed
  | .compile source => s.accept source fun s p => (.program p, s)
  | .execute fuel number =>
    match s.programs[number]? with
    | some p => s.executing fuel p .value
    | none => (.nothing, s)
  | .run fuel source => s.accept source fun s p => s.executing fuel p .value
  | .runLine fuel line => s.accept (Session.completed (Text.trimEnd line)) fun s p =>
    s.executing fuel p fun v => .line (History.echo (Text.trimEnd line) p v)
  | .takeWarnings => (.nothing, s)

theorem accept_of_rejected {s : Placed} {source : String}
    {next : Placed → List (Stmt (Option Binding)) → Answer (Option Binding) × Placed}
    (hn : ∀ s p, (next s p).1.isRejected = false) (h : (s.accept source next).1.isRejected) :
    (s.accept source next).2 = s := by
  unfold accept at h ⊢
  split at h
  · rw [hn] at h
    cases h
  · rename_i hr
    rw [if_neg hr]

theorem isRejected_executing {answer : Value (Option Binding) EnvId → Answer (Option Binding)}
    (ha : ∀ v, (answer v).isRejected = false) (s : Placed) (fuel : Nat)
    (p : List (Stmt (Option Binding))) : (s.executing fuel p answer).1.isRejected = false := by
  unfold executing
  split
  · exact ha _
  · rfl

/-- A rejected step does nothing at all. -/
theorem perform_of_rejected {s : Placed} {step : Step} (h : (s.perform step).1.isRejected) :
    (s.perform step).2 = s := by
  cases step with
  | compile source =>
    rw [perform] at h ⊢
    exact accept_of_rejected (fun _ _ => rfl) h
  | execute fuel number =>
    have hr : (s.perform (.execute fuel number)).1.isRejected = false := by
      simp only [perform]
      split
      · exact isRejected_executing (fun _ => rfl) s fuel _
      · rfl
    rw [hr] at h
    cases h
  | run fuel source =>
    rw [perform] at h ⊢
    exact accept_of_rejected (fun s p => isRejected_executing (fun _ => rfl) s fuel p) h
  | runLine fuel line =>
    rw [perform] at h ⊢
    exact accept_of_rejected (fun s p => isRejected_executing (fun _ => rfl) s fuel p) h
  | takeWarnings => rfl

end Placed

namespace History

/-- Replaces each identity by the binding that the session's table has for it. -/
def places (h : History) : Relabeling RefId (Option Binding) := .onRefs h.session.bindings.find?

/-- The session without identities. -/
def placed (h : History) : Placed where
  machine := h.session.machine.relabel h.places
  programs := h.programs.map (List.map (Stmt.relabel h.places))
  unused := h.session.unused

/-- What a step of a session comes to, seen without identities. -/
structure SeenAs (r : Answer RefId × History) (s : Answer (Option Binding) × Placed) : Prop where
  answer : r.1.relabel r.2.places = s.1
  placed : r.2.placed = s.2

section Steps

variable {h : History} (hg : h.Grounded)

theorem executing_placed (p : Program) (fuel : Nat) {answer : Value RefId EnvId → Answer RefId}
    {answer' : Value (Option Binding) EnvId → Answer (Option Binding)}
    (ha : ∀ v, (answer v).relabel h.places = answer' (v.relabel h.places)) :
    SeenAs (h.executing fuel p answer)
      (h.placed.executing fuel (p.map (Stmt.relabel h.places)) answer') := by
  have run : Run.Follows h.places (Value.relabel h.places)
      (interpret h.session.bindings.find? fuel p)
      (interpret id fuel (p.map (Stmt.relabel h.places))) h.session.machine :=
    interpret_follows (fun _ => rfl) fuel p h.session.machine
  have hm : h.placed.machine = h.session.machine.relabel h.places := rfl
  unfold Run.Follows at run
  rw [executing, Placed.executing, hm, run]
  cases interpret h.session.bindings.find? fuel p h.session.machine with
  | ok v m => exact ⟨ha v, rfl⟩
  | error stop m =>
    have hs : stop.relabel h.places = stop := stop.relabel_onRefs _
    simp only [Run.relabelResult, hs]
    exact ⟨rfl, rfl⟩

include hg

theorem map_relabel_program (source : String) :
    (Session.program source h.session.nextId).map (Stmt.relabel (h.accepting source).places) =
      Session.placed source := Session.map_relabel_program source hg.bindings

/-- What was there before a text keeps its places. -/
theorem placed_accepting (source : String) : (h.accepting source).placed =
    { h.placed with programs := h.placed.programs ++ [Session.placed source] } := by
  have hm : h.session.machine.relabel (h.accepting source).places =
      h.session.machine.relabel h.places := hg.relabel_machine source fun _ b => b
  have hp : h.programs.map (List.map (Stmt.relabel (h.accepting source).places)) =
      h.programs.map (List.map (Stmt.relabel h.places)) :=
    hg.relabel_programs source fun _ b => b
  simp only [placed, machine_accepting, programs_accepting, unused_accepting, List.map_append,
    List.map_singleton, hm, hp, map_relabel_program hg]

theorem accept_placed (source : String) {next : History → Program → Answer RefId × History}
    {next' : Placed → List (Stmt (Option Binding)) → Answer (Option Binding) × Placed}
    (hn : SeenAs (next (h.accepting source) (Session.program source h.session.nextId))
      (next' (h.accepting source).placed (Session.placed source))) :
    SeenAs (h.accept source next) (h.placed.accept source next') := by
  have hu : h.placed.unused = h.session.unused := rfl
  rw [accept, Placed.accept, hu]
  by_cases hr : Session.rejection h.session.unused source = []
  · rw [placed_accepting hg] at hn
    rw [if_pos hr, if_pos hr]
    exact hn
  · rw [if_neg hr, if_neg hr]
    exact ⟨rfl, rfl⟩

theorem run_placed (source : String) (fuel : Nat) {answer : Value RefId EnvId → Answer RefId}
    {answer' : Value (Option Binding) EnvId → Answer (Option Binding)}
    (ha : ∀ v, (answer v).relabel (h.accepting source).places =
      answer' (v.relabel (h.accepting source).places)) :
    SeenAs
      ((h.accepting source).executing fuel (Session.program source h.session.nextId) answer)
      ((h.accepting source).placed.executing fuel (Session.placed source) answer') := by
  rw [← map_relabel_program hg]
  exact executing_placed _ fuel ha

/-- A step of a session, seen without identities, is the step of the session without them. -/
theorem perform_placed (step : Step) : SeenAs (h.perform step) (h.placed.perform step) := by
  rw [perform_eq]
  cases step with
  | compile source =>
    rw [Placed.perform]
    exact accept_placed hg source ⟨congrArg Answer.program (map_relabel_program hg source), rfl⟩
  | execute fuel number =>
    have hp : h.placed.programs[number]? =
        h.programs[number]?.map (List.map (Stmt.relabel h.places)) := List.getElem?_map
    rw [Placed.perform, hp]
    dsimp only
    cases h.programs[number]? with
    | none => exact ⟨rfl, rfl⟩
    | some p => exact executing_placed p fuel fun _ => rfl
  | run fuel source =>
    rw [Placed.perform]
    exact accept_placed hg source (run_placed hg source fuel fun _ => rfl)
  | runLine fuel line =>
    rw [Placed.perform]
    refine accept_placed hg _ (run_placed hg _ fuel fun v => ?_)
    rw [Answer.relabel, map_echo, map_relabel_program hg]
  | takeWarnings =>
    rw [Placed.perform]
    exact ⟨rfl, rfl⟩

end Steps

end History

end Lox
