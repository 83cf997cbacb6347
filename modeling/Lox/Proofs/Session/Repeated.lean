import Lox.Proofs.Session.Rejection

/-!
Programs that are executed again. Each execution of a program does what a run of its text would do at
the same place: the program carries nothing from one execution to the next. Running the text adds a
program to the session each time, so programs that were accepted later have other numbers there.
-/

namespace Lox

/-- The numbers that the programs of a session have in another one, and how many programs there are in
that one. -/
structure Numbering where
  numbers : List Nat
  size : Nat

namespace Numbering

/-- Programs up to this number have their own numbers. -/
def same (n : Nat) : Numbering := ⟨List.range (n + 1), n⟩

/-- Where there is no program here there is none with the number there. -/
def find (ν : Numbering) (n : Nat) : Nat := ν.numbers.getD n ν.size

def addThere (ν : Numbering) : Numbering := { ν with size := ν.size + 1 }

def addBoth (ν : Numbering) : Numbering := ⟨ν.numbers ++ [ν.size], ν.size + 1⟩

theorem find_same {k n : Nat} (h : n ≠ k) :
    (same k).find n = if n < k then n else k := by
  simp only [same, find, List.getD_eq_getElem?_getD]
  by_cases hn : n < k
  · rw [List.getElem?_range (Nat.lt_succ_of_lt hn), if_pos hn, Option.getD_some]
  · rw [List.getElem?_eq_none (by rw [List.length_range]; omega), if_neg hn, Option.getD_none]

theorem find_of_lt {ν : Numbering} {n : Nat} (h : n < ν.numbers.length) :
    ν.find n = ν.numbers[n] := by
  rw [find, List.getD_eq_getElem?_getD, List.getElem?_eq_getElem h, Option.getD_some]

theorem find_of_le {ν : Numbering} {n : Nat} (h : ν.numbers.length ≤ n) : ν.find n = ν.size := by
  rw [find, List.getD_eq_getElem?_getD, List.getElem?_eq_none h, Option.getD_none]

end Numbering

namespace Step

/-- Does the step execute the program of this number? -/
def executes (number : Nat) : Step → Bool
  | .execute _ n => n == number
  | _ => false

/-- Does the step add a program to a session? -/
def adds (unused : Severity) (step : Step) : Bool :=
  step.source?.any fun source => (Session.rejection unused source).isEmpty

/-- The step in a session with other numbers, where the program of this number is not kept and its
text is run instead. -/
def again (source : String) (number : Nat) (ν : Numbering) : Step → Step
  | .execute fuel n => if n = number then .run fuel source else .execute fuel (ν.find n)
  | step => step

theorem again_of_source {source text : String} {number : Nat} {ν : Numbering} {step : Step}
    (h : step.source? = some text) : step.again source number ν = step := by
  cases step with
  | execute fuel n => cases h
  | _ => rfl

end Step

/-- The numbers after a step. -/
def Numbering.after (unused : Severity) (number : Nat) (ν : Numbering) (step : Step) : Numbering :=
  if step.executes number then ν.addThere else if step.adds unused then ν.addBoth else ν

theorem Numbering.after_of_source {unused : Severity} {number : Nat} {ν : Numbering} {step : Step}
    {text : String} (h : step.source? = some text) : ν.after unused number step =
      if (Session.rejection unused text).isEmpty then ν.addBoth else ν := by
  have hx : step.executes number = false := by
    cases step with
    | execute fuel n => cases h
    | _ => rfl
  simp only [Numbering.after, hx, Step.adds, h, Option.any_some, Bool.false_eq_true, if_false]

/-- The steps with a run of the text for each execution of the program. -/
def rerun (unused : Severity) (source : String) (number : Nat) (ν : Numbering) :
    List Step → List Step
  | [] => []
  | step :: steps =>
    step.again source number ν :: rerun unused source number (ν.after unused number step) steps

/-- What is seen of the steps, with another note at each execution of the program. -/
def notedAt (number : Nat) (noted : List Scoping.Finding) :
    List Step → List Observation → List Observation :=
  List.zipWith fun step seen => if step.executes number then { seen with noted } else seen

namespace Placed

/-- The second session has what the first one has, under other numbers, but for the program of the
text. -/
structure Reruns (source : String) (number : Nat) (ν : Numbering) (s t : Placed) : Prop where
  machine : t.machine = s.machine
  unused : t.unused = s.unused
  length : ν.numbers.length = s.programs.length
  size : ν.size = t.programs.length
  own : s.programs[number]? = some (Session.placed source)
  others : ∀ n, n ≠ number → t.programs[ν.find n]? = s.programs[n]?

namespace Reruns

variable {source : String} {number : Nat} {ν : Numbering} {s t : Placed}
  (h : Reruns source number ν s t)

include h

/-- What has the same number in both sessions before programs are added has it after that. -/
theorem getElem?_find {n : Nat} (hn : n ≠ number) (hl : n < s.programs.length)
    (p : List (Stmt (Option Binding))) :
    (t.programs ++ [p])[ν.find n]? = s.programs[n]? := by
  have found := h.others n hn
  have hm : ν.find n < t.programs.length := by
    by_contra hm
    rw [List.getElem?_eq_none (Nat.le_of_not_lt hm), List.getElem?_eq_getElem hl] at found
    cases found
  rw [List.getElem?_append_left hm, found]

theorem addThere (p : List (Stmt (Option Binding))) :
    Reruns source number ν.addThere s { t with programs := t.programs ++ [p] } where
  machine := h.machine
  unused := h.unused
  length := h.length
  size := by rw [Numbering.addThere, h.size, List.length_append, List.length_singleton]
  own := h.own
  others n hn := by
    by_cases hl : n < s.programs.length
    · have hf : ν.addThere.find n = ν.find n := by
        rw [Numbering.find_of_lt (h.length.symm ▸ hl), Numbering.find_of_lt (h.length.symm ▸ hl)]
        rfl
      rw [hf]
      exact h.getElem?_find hn hl p
    · have hl : s.programs.length ≤ n := Nat.le_of_not_lt hl
      have hf : ν.addThere.find n = t.programs.length + 1 := by
        rw [Numbering.find_of_le (h.length.symm ▸ hl), Numbering.addThere, h.size]
      rw [hf, List.getElem?_eq_none hl, List.getElem?_eq_none]
      exact Nat.le_of_eq List.length_append

theorem addBoth (p : List (Stmt (Option Binding))) :
    Reruns source number ν.addBoth { s with programs := s.programs ++ [p] }
      { t with programs := t.programs ++ [p] } where
  machine := h.machine
  unused := h.unused
  length := by
    rw [Numbering.addBoth, List.length_append, List.length_append, h.length]
    rfl
  size := by rw [Numbering.addBoth, h.size, List.length_append, List.length_singleton]
  own := by
    have hl : number < s.programs.length := (List.getElem?_eq_some_iff.mp h.own).1
    rw [List.getElem?_append_left hl, h.own]
  others n hn := by
    have length : ν.addBoth.numbers.length = s.programs.length + 1 := by
      rw [Numbering.addBoth, List.length_append, List.length_singleton, h.length]
    obtain hl | rfl | hl := Nat.lt_trichotomy n s.programs.length
    · have hf : ν.addBoth.find n = ν.find n := by
        rw [Numbering.find_of_lt (by omega), Numbering.find_of_lt (h.length.symm ▸ hl)]
        exact List.getElem_append_left _
      rw [hf, h.getElem?_find hn hl, List.getElem?_append_left hl]
    · have hf : ν.addBoth.find s.programs.length = t.programs.length := by
        rw [Numbering.find_of_lt (by omega), ← h.size]
        simp only [Numbering.addBoth, ← h.length, List.getElem_concat_length]
      rw [hf, List.getElem?_concat_length, List.getElem?_concat_length]
    · have hf : ν.addBoth.find n = t.programs.length + 1 := by
        rw [Numbering.find_of_le (by omega), Numbering.addBoth, h.size]
      rw [hf, List.getElem?_eq_none, List.getElem?_eq_none]
      · rw [List.length_append, List.length_singleton]
        exact hl
      · exact Nat.le_of_eq List.length_append


/-- What is the same of a step in both sessions, and what is left to be the same after it. -/
theorem executing (fuel : Nat) (p : List (Stmt (Option Binding)))
    (answer : Value (Option Binding) EnvId → Answer (Option Binding)) :
    (t.executing fuel p answer).1 = (s.executing fuel p answer).1 ∧
      Reruns source number ν (s.executing fuel p answer).2 (t.executing fuel p answer).2 := by
  simp only [Placed.executing, h.machine]
  cases interpret id fuel p s.machine with
  | ok v m => exact ⟨rfl, { h with machine := rfl }⟩
  | error stop m => exact ⟨rfl, { h with machine := rfl }⟩

/-- A text is accepted or rejected alike, and what follows is to be alike. -/
theorem accept (text : String)
    {next : Placed → List (Stmt (Option Binding)) → Answer (Option Binding) × Placed}
    (hn : ∀ {ν s t}, Reruns source number ν s t →
      (next t (Session.placed text)).1 = (next s (Session.placed text)).1 ∧
        Reruns source number ν (next s (Session.placed text)).2 (next t (Session.placed text)).2) :
    (t.accept text next).1 = (s.accept text next).1 ∧
      Reruns source number
        (if (Session.rejection s.unused text).isEmpty then ν.addBoth else ν)
        (s.accept text next).2 (t.accept text next).2 := by
  have hu : Session.rejection t.unused text = Session.rejection s.unused text := by rw [h.unused]
  rw [Placed.accept, Placed.accept, hu]
  cases Session.rejection s.unused text with
  | nil => exact hn (h.addBoth (Session.placed text))
  | cons d ds => exact ⟨rfl, h⟩

/-- One step. -/
theorem perform (ha : Session.rejection s.unused source = []) (step : Step) :
    (t.perform (step.again source number ν)).1 = (s.perform step).1 ∧
      Reruns source number (ν.after s.unused number step) (s.perform step).2
        (t.perform (step.again source number ν)).2 := by
  cases step with
  | compile text =>
    have hs : (Step.compile text).source? = some text := rfl
    rw [Numbering.after_of_source hs, Step.again_of_source hs, Placed.perform, Placed.perform]
    exact h.accept text fun h => ⟨rfl, h⟩
  | run fuel text =>
    have hs : (Step.run fuel text).source? = some text := rfl
    rw [Numbering.after_of_source hs, Step.again_of_source hs, Placed.perform, Placed.perform]
    exact h.accept text fun h => h.executing fuel _ _
  | runLine fuel line =>
    have hs : (Step.runLine fuel line).source? =
        some (Session.completed (Text.trimEnd line)) := rfl
    rw [Numbering.after_of_source hs, Step.again_of_source hs, Placed.perform, Placed.perform]
    exact h.accept _ fun h => h.executing fuel _ _
  | takeWarnings => exact ⟨rfl, h⟩
  | execute fuel n =>
    by_cases hn : n = number
    · subst hn
      have run : t.perform (.run fuel source) =
          Placed.executing { t with programs := t.programs ++ [Session.placed source] } fuel
            (Session.placed source) .value := by
        rw [Placed.perform, Placed.accept, h.unused, if_pos ha]
      have once : s.perform (.execute fuel n) = s.executing fuel (Session.placed source) .value := by
        simp only [Placed.perform, h.own]
      have after : ν.after s.unused n (.execute fuel n) = ν.addThere := if_pos (beq_self_eq_true n)
      rw [Step.again, if_pos rfl, run, once, after]
      exact (h.addThere (Session.placed source)).executing fuel _ _
    · have after : ν.after s.unused number (.execute fuel n) = ν := by
        rw [Numbering.after, if_neg (by simpa [Step.executes] using hn)]
        rfl
      rw [Step.again, if_neg hn, after]
      simp only [Placed.perform, h.others n hn]
      cases s.programs[n]? with
      | none => exact ⟨rfl, h⟩
      | some p => exact h.executing fuel p _

end Reruns

theorem unused_executing (s : Placed) (fuel : Nat) (p : List (Stmt (Option Binding)))
    (answer : Value (Option Binding) EnvId → Answer (Option Binding)) :
    (s.executing fuel p answer).2.unused = s.unused := by
  rw [executing]
  cases interpret id fuel p s.machine <;> rfl

theorem unused_accept (s : Placed) (source : String)
    {next : Placed → List (Stmt (Option Binding)) → Answer (Option Binding) × Placed}
    (hn : ∀ s p, (next s p).2.unused = s.unused) : (s.accept source next).2.unused = s.unused := by
  rw [accept]
  split
  · exact hn _ _
  · rfl

/-- The severity of unused names is settled when a session starts. -/
theorem unused_perform (s : Placed) (step : Step) : (s.perform step).2.unused = s.unused := by
  cases step with
  | compile source =>
    rw [perform]
    exact s.unused_accept source fun _ _ => rfl
  | execute fuel n =>
    rw [perform]
    cases s.programs[n]? with
    | none => rfl
    | some p => exact s.unused_executing fuel p _
  | run fuel source =>
    rw [perform]
    exact s.unused_accept source fun s p => s.unused_executing fuel p _
  | runLine fuel line =>
    rw [perform]
    exact s.unused_accept _ fun s p => s.unused_executing fuel p _
  | takeWarnings => rfl

namespace Reruns

variable {source : String} {number : Nat} {ν : Numbering} {s t : Placed}
  (h : Reruns source number ν s t)

include h

/-- What can be seen of a step in both sessions is the same, but that a run of the text notes what
there is to note about it. -/
theorem observe (ha : Session.rejection s.unused source = []) (step : Step) :
    t.observe (step.again source number ν) =
      if step.executes number then
        { s.observe step with noted := Session.noted s.unused source }
      else s.observe step := by
  obtain ⟨answer, after⟩ := h.perform ha step
  have machine : (t.perform (step.again source number ν)).2.machine = (s.perform step).2.machine :=
    after.machine
  have source? : (step.again source number ν).source? =
      if step.executes number then some source else step.source? := by
    cases step with
    | execute fuel n =>
      simp only [Step.again, Step.executes, beq_iff_eq]
      split <;> rfl
    | _ => rfl
  simp only [Placed.observe, answer, machine, source?, h.unused]
  split <;> rfl

end Reruns

theorem observeAll_rerun {source : String} {number : Nat} {ν : Numbering} {s t : Placed}
    (h : Reruns source number ν s t) (ha : Session.rejection s.unused source = [])
    (steps : List Step) :
    t.observeAll (rerun s.unused source number ν steps) =
      notedAt number (Session.noted s.unused source) steps (s.observeAll steps) := by
  induction steps generalizing ν s t with
  | nil => rfl
  | cons step steps ih =>
    obtain ⟨-, after⟩ := h.perform ha step
    have hu := s.unused_perform step
    have rest := ih after (by rw [hu]; exact ha)
    rw [hu] at rest
    rw [rerun, observeAll, observeAll, h.observe ha, rest]
    rfl

end Placed

namespace History

/-- The session in which the text is yet to run stands beside the one in which its program has been
accepted. -/
theorem reruns_start {h : History} (hg : h.Grounded) {source : String} :
    Placed.Reruns source h.programs.length (.same h.programs.length)
      (h.accepting source).placed h.placed where
  machine := by rw [placed_accepting hg]
  unused := by rw [placed_accepting hg]
  length := by
    rw [placed_accepting hg, Numbering.same, List.length_range, List.length_append,
      List.length_singleton]
    exact congrArg (· + 1) (List.length_map _).symm
  size := (List.length_map _).symm
  own := by
    have hl : h.programs.length = h.placed.programs.length := (List.length_map _).symm
    rw [placed_accepting hg, hl, List.getElem?_concat_length]
  others n hn := by
    have hl : h.programs.length = h.placed.programs.length := (List.length_map _).symm
    rw [placed_accepting hg, Numbering.find_same hn]
    by_cases hlt : n < h.programs.length
    · rw [if_pos hlt, List.getElem?_append_left (hl ▸ hlt)]
    · rw [if_neg hlt, hl, List.getElem?_eq_none (Nat.le_refl _), List.getElem?_eq_none]
      rw [List.length_append, List.length_singleton]
      omega

/-- A program that is executed does what a run of its text would do there, however often, and whatever
else is done in between: steps answer the same values and failures, and leave the same objects,
output and files, if each execution of the program is replaced by a run of its text. Only a run notes
its warnings again. -/
theorem executions_as_runs {h : History} (hr : h.Reachable) {source : String} {p : Program}
    {s : Session} (hc : Session.compile source h.session = .ok p s) :
    let once := (h.perform (.compile source)).2
    once.session = s ∧ once.programs[h.programs.length]? = some p ∧
      ∀ steps, h.observeAll
          (rerun h.session.unused source h.programs.length (.same h.programs.length) steps) =
        notedAt h.programs.length (Session.noted h.session.unused source) steps
          (once.observeAll steps) := by
  obtain ⟨ha, rfl, rfl⟩ := accepting_of_compile hc
  have once : (h.perform (.compile source)).2 = h.accepting source := by
    rw [perform_eq]
    dsimp only
    rw [accept, if_pos ha]
  simp only [once]
  refine ⟨trivial, List.getElem?_concat_length, fun steps => ?_⟩
  have hg : h.Grounded := hr.grounded
  have hu : (h.accepting source).placed.unused = h.session.unused := rfl
  have accepted : (h.accepting source).Grounded := by
    have := hg.perform (.compile source)
    rwa [once] at this
  rw [observeAll_placed hg, observeAll_placed accepted]
  exact Placed.observeAll_rerun (reruns_start hg) (hu ▸ ha) steps

/-- The same of a function that is gone once it has been called, with another text between. -/
theorem vanishing_function_executed_twice :
    ∃ p s, Session.compile "fun f() { f = nil; } f();" (start {} .warning).session = .ok p s ∧
      (start {} .warning).observeAll
          [.run 9 "fun f() { f = nil; } f();", .run 9 "f();", .run 9 "fun f() { f = nil; } f();"] =
        notedAt 0 (Session.noted .warning "fun f() { f = nil; } f();")
          [.execute 9 0, .run 9 "f();", .execute 9 0]
          (((start {} .warning).perform (.compile "fun f() { f = nil; } f();")).2.observeAll
            [.execute 9 0, .run 9 "f();", .execute 9 0]) := by
  have accepted : (Session.rejection .warning "fun f() { f = nil; } f();").isEmpty = true := by
    decide +kernel
  have hc := (start {} .warning).compile_session "fun f() { f = nil; } f();"
  rw [if_pos (show Session.rejection (start {} .warning).session.unused _ = [] from
    List.isEmpty_iff.mp accepted)] at hc
  obtain ⟨-, -, runs⟩ := executions_as_runs (reachable_start {} .warning) hc
  exact ⟨_, _, hc, runs [.execute 9 0, .run 9 "f();", .execute 9 0]⟩

end History

end Lox
