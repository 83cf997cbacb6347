import Lox.Proofs.Lexical.Session

/-!
Jumps. A statement ends with a jump only where it has one that no routine inside it is around, and for a
jump out of a loop no loop either. In accepted programs each of them has a loop or a routine around it,
so none gets out of a body or of a program.
-/

namespace Lox

variable {ρ α β : Type}

namespace Run

/-- What the phrase answers, if it does, has the property. -/
def Satisfies (P : α → Prop) (p : Run ρ α) : Prop := ∀ m a m', p m = .ok a m' → P a

namespace Satisfies

variable {P : α → Prop} {Q : β → Prop} {p : Run ρ α} {k : α → Run ρ β}

theorem pure {a : α} (h : P a) : Satisfies P (Pure.pure a : Run ρ α) := by
  intro m b m' hb
  cases hb
  exact h

theorem throw (stop : Stop) : Satisfies P (throw stop : Run ρ α) := fun _ _ _ h => nomatch h

theorem bind (hp : Satisfies P p) (hk : ∀ a, P a → Satisfies Q (k a)) : Satisfies Q (p >>= k) := by
  intro m b m' h
  cases hm : p m with
  | ok a m₁ =>
    have next : k a m₁ = .ok b m' := by
      simpa only [Bind.bind, EStateM.bind, hm] using h
    exact hk a (hp m a m₁ hm) m₁ b m' next
  | error stop m₁ =>
    simp only [Bind.bind, EStateM.bind, hm] at h
    cases h

/-- Where it does not matter what comes first. -/
theorem behind (hk : ∀ a, Satisfies Q (k a)) : Satisfies Q (p >>= k) :=
  bind (P := fun _ => True) (fun _ _ _ _ => trivial) fun a _ => hk a

theorem inScope (hp : Satisfies P p) (e : EnvId) : Satisfies P (Run.inScope e p) := by
  intro m a m' h
  simp only [Run.inScope] at h
  cases hm : p { m with scope := e } with
  | ok b m₁ =>
    rw [hm] at h
    cases h
    exact hp _ _ _ hm
  | error stop m₁ =>
    rw [hm] at h
    cases h

end Satisfies

end Run

/-- The statement is inside of the other one, in no routine of it. Loops of it may be around only if
they do not matter. -/
inductive Stmt.Inside (throughLoops : Bool) (j : Stmt ρ) : Stmt ρ → Prop
  | here : Inside throughLoops j j
  | block {b : List (Stmt ρ)} {s : Stmt ρ} (hs : s ∈ b) (h : Inside throughLoops j s) :
      Inside throughLoops j (.block b)
  | yes {c : Expr ρ} {y : Stmt ρ} {n : Option (Stmt ρ)} (h : Inside throughLoops j y) :
      Inside throughLoops j (.if c y n)
  | no {c : Expr ρ} {y n : Stmt ρ} (h : Inside throughLoops j n) :
      Inside throughLoops j (.if c y (some n))
  | body {c : Expr ρ} {b : Stmt ρ} (hl : throughLoops = true) (h : Inside throughLoops j b) :
      Inside throughLoops j (.while c b)

/-- The outcome comes from a jump of the statement: out of no loop that is around the jump, and out of
no routine. -/
def Outcome.From (s : Stmt ρ) : Outcome ρ EnvId → Prop
  | .normal => True
  | .broke => ∃ keyword, Stmt.Inside false (.break keyword) s
  | .returned _ => ∃ keyword value, Stmt.Inside true (.return keyword value) s

theorem Outcome.From.mono {s t : Stmt ρ}
    (h : ∀ {throughLoops j}, Stmt.Inside throughLoops j s → Stmt.Inside throughLoops j t)
    {outcome : Outcome ρ EnvId} (hs : outcome.From s) : outcome.From t := by
  cases outcome with
  | normal => trivial
  | broke =>
    obtain ⟨keyword, hk⟩ := hs
    exact ⟨keyword, h hk⟩
  | returned v =>
    obtain ⟨keyword, value, hk⟩ := hs
    exact ⟨keyword, value, h hk⟩

section Steps

open Run (Satisfies)

variable {site : ρ → Option Binding} {exec : Stmt ρ → Run ρ (Outcome ρ EnvId)}
  {eval : Expr ρ → Run ρ (Value ρ EnvId)}

theorem execAll_satisfies {P : Outcome ρ EnvId → Prop} (normal : P .normal) {ss : List (Stmt ρ)}
    (h : ∀ s ∈ ss, Satisfies P (exec s)) : Satisfies P (execAll exec ss) := by
  induction ss with
  | nil => exact .pure normal
  | cons s ss ih =>
    refine .bind (h s List.mem_cons_self) fun outcome hp => ?_
    cases outcome with
    | normal => exact ih fun s hs => h s (List.mem_cons_of_mem _ hs)
    | broke => exact .pure hp
    | returned v => exact .pure hp

theorem execStep_from (h : ∀ s, Satisfies (Outcome.From s) (exec s)) (s : Stmt ρ) :
    Satisfies (Outcome.From s) (execStep site exec eval s) := by
  cases s with
  | expr e => exact .behind fun _ => .pure trivial
  | print e => exact .behind fun _ => .behind fun _ => .pure trivial
  | var name initial => exact .behind fun _ => .pure trivial
  | block b =>
    refine .behind fun e => .inScope (execAll_satisfies trivial fun s hs => ?_) e
    exact fun m o m' ho => (h s m o m' ho).mono (.block hs)
  | «if» c y n =>
    refine .behind fun v => ?_
    cases v.truthy with
    | true => exact fun m o m' ho => (h y m o m' ho).mono .yes
    | false =>
      cases n with
      | none => exact .pure trivial
      | some n => exact fun m o m' ho => (h n m o m' ho).mono .no
  | «while» c b =>
    refine .behind fun v => ?_
    cases v.truthy with
    | false => exact .pure trivial
    | true =>
      refine .bind (h b) fun outcome ho => ?_
      cases outcome with
      | normal => exact h _
      | broke => exact .pure trivial
      | returned v =>
        obtain ⟨keyword, value, inside⟩ := ho
        exact .pure ⟨keyword, value, .body rfl inside⟩
  | «break» keyword => exact .pure ⟨keyword, .here⟩
  | «return» keyword value =>
    cases value with
    | none => exact .pure ⟨keyword, none, .here⟩
    | some e => exact .behind fun _ => .pure ⟨keyword, some e, .here⟩
  | function d => exact .behind fun _ => .behind fun _ => .behind fun _ => .pure trivial
  | «class» name superclass ms cs => exact .behind fun _ => .pure trivial

end Steps

/-- A statement that ends with a jump has it inside. -/
theorem exec_from (site : ρ → Option Binding) (fuel : Nat) (s : Stmt ρ) :
    Run.Satisfies (Outcome.From s) (exec site fuel s) := by
  induction fuel generalizing s with
  | zero => exact .throw .outOfFuel
  | succ fuel ih => exact execStep_from ih s

/-- No loop ends with a jump out of a loop: those inside it are its own. -/
theorem exec_while_ne_broke (site : ρ → Option Binding) (fuel : Nat) (c : Expr ρ) (b : Stmt ρ)
    (m m' : Machine ρ) : exec site fuel (.while c b) m ≠ .ok .broke m' := by
  intro h
  obtain ⟨keyword, inside⟩ := exec_from site fuel _ m _ m' h
  cases inside with
  | body hl => cases hl

/-- A loop whose body jumps out of it has ended. -/
theorem exec_while_of_broke {site : ρ → Option Binding} {fuel : Nat} {c : Expr ρ} {b : Stmt ρ}
    {v : Value ρ EnvId} {m m₁ m₂ : Machine ρ} (hc : eval site fuel c m = .ok v m₁)
    (truthy : v.truthy = true) (hb : exec site fuel b m₁ = .ok .broke m₂) :
    exec site (fuel + 1) (.while c b) m = .ok .normal m₂ := by
  rw [exec, execStep, bind_of_ok hc, if_pos truthy, bind_of_ok hb]
  rfl

/-- What a body returns is the value of its call. -/
theorem call_of_returned {exec : Stmt ρ → Run ρ (Outcome ρ EnvId)} {closure : Closure ρ EnvId}
    {vs : List (Value ρ EnvId)} {e : EnvId} {v : Value ρ EnvId} {m m₁ m₂ : Machine ρ}
    (hn : Run.nestIn closure.scope m = .ok e m₁)
    (hb : (do
      defineAll e closure.routine.params vs
      Run.inScope e (execAll exec closure.routine.body)) m₁ = .ok (.returned v) m₂) :
    closure.call exec vs m = .ok v m₂ := by
  rw [Closure.call, bind_of_ok hn, ← bind_assoc, bind_of_ok hb]
  rfl

/-- What is expected of the ends of bodies and of statements outside of all routines. -/
def contained : Watch RefId where
  body initializer outcome :=
    outcome ≠ .broke ∧ (initializer = true → ∀ v, outcome = .returned v → v = .nil)
  top outcome := outcome = .normal

theorem contained_fulfilled (S : Setting) : S.Fulfilled contained where
  stmt _ _ := trivial
  expr _ _ := trivial
  access _ _ := trivial
  body broke nothing := ⟨broke, nothing⟩
  top := rfl

namespace History

/-- Jumps stay inside, in the runs of a program and in all others. -/
structure JumpsContained (h : History) (p : Program) : Prop where
  /-- Statements outside of all routines end normally, and the bodies of routines that are called end
  normally or return, those of initializers without a value. -/
  ends : ∀ stop fuel, contained.interpret stop h.session.bindings.find? fuel p h.session.machine =
    interpret h.session.bindings.find? fuel p h.session.machine
  /-- A statement ends with a jump only if it has one inside, in none of its routines and, where that
  jump is one out of a loop, in none of its loops. -/
  inside : ∀ (site : RefId → Option Binding) fuel s m outcome m',
    exec site fuel s m = .ok outcome m' → outcome.From s
  /-- A loop never ends with a jump out of a loop. -/
  innermost : ∀ (site : RefId → Option Binding) fuel c b m m',
    exec site fuel (.while c b) m ≠ .ok .broke m'
  /-- A loop whose body jumps out of it has ended, and what is behind it runs. -/
  loop : ∀ (site : RefId → Option Binding) fuel c b v m m₁ m₂, eval site fuel c m = .ok v m₁ →
    v.truthy = true → exec site fuel b m₁ = .ok .broke m₂ →
    exec site (fuel + 1) (.while c b) m = .ok .normal m₂
  /-- What a body returns is the value of the call that runs it. -/
  call : ∀ (site : RefId → Option Binding) fuel (closure : Closure RefId EnvId) vs e v m m₁ m₂,
    Run.nestIn closure.scope m = .ok e m₁ →
    (do
      defineAll e closure.routine.params vs
      Run.inScope e (execAll (exec site fuel) closure.routine.body)) m₁ = .ok (.returned v) m₂ →
    closure.call (exec site fuel) vs m = .ok v m₂

/-- In every run of an accepted program, whatever the steps before and however much fuel it has, each
jump out of a loop ends the innermost loop around it in its routine, and each return ends the innermost
call; none gets further. -/
theorem jumps_contained {h : History} (hr : h.Reachable) {p : Program} (hp : p ∈ h.programs) :
    h.JumpsContained p where
  ends stop fuel := hr.watched (contained_fulfilled _) hp stop fuel
  inside site fuel s := exec_from site fuel s
  innermost := exec_while_ne_broke
  loop _ _ _ _ _ _ _ _ hc truthy hb := exec_while_of_broke hc truthy hb
  call _ _ _ _ _ _ _ _ _ hn hb := call_of_returned hn hb

/-- The same of a loop in a loop of an initializer, which returns from there. -/
theorem jumps_contained_in_initializer :
    ∃ h p, h = ((start {} .warning).perform (.compile
        "class A { init() { while (true) { while (true) break; return; } } } A();")).2 ∧
      h.Reachable ∧ h.programs = [p] ∧ h.JumpsContained p := by
  obtain ⟨h, hh⟩ : ∃ h, h = ((start {} .warning).perform (.compile
    "class A { init() { while (true) { while (true) break; return; } } } A();")).2 := ⟨_, rfl⟩
  have hr : h.Reachable := hh ▸ (reachable_start {} .warning).perform _
  have accepted : h.programs.length = 1 := by
    rw [hh]
    decide +kernel
  obtain ⟨p, hp⟩ := List.length_eq_one_iff.mp accepted
  exact ⟨h, p, hh, hr, hp, jumps_contained hr (hp ▸ List.mem_singleton_self p)⟩

end History

end Lox
