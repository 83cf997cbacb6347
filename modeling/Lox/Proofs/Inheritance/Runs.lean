import Lox.Proofs.Inheritance.Memory
import Lox.Proofs.Steady
import Lox.Proofs.Watched

/-!
Runs that enter the classes that they make. The machine at the end of such a run fits a ledger that goes
on where the one before ended. On the way nothing happens that is not expected, where expectations may be
about any ledger that goes on from the one at the end.
-/

namespace Lox

namespace Inheritance

variable {ρ α β : Type} {made made' : Ledger ρ} {m m' : Machine ρ}

/-- The run ends where the ledger fits, and what it answers is as it should be. -/
inductive Ends (Q : Ledger ρ → α → Prop) (made : Ledger ρ) : EStateM.Result Stop (Machine ρ) α → Prop
  | ok {a : α} {m : Machine ρ} (fits : m.Fits made) (h : Q made a) : Ends Q made (.ok a m)
  | error {m : Machine ρ} (stop : Stop) (fits : m.Fits made) : Ends Q made (.error stop m)

/-- The phrase enters the classes that it makes, and does nothing that is not expected. -/
def Enters (made : Ledger ρ) (m : Machine ρ) (Q : Ledger ρ → α → Prop)
    (watched : Stop → Ledger ρ → Run ρ α) (p : Run ρ α) : Prop :=
  ∃ made', made <+: made' ∧ Ends Q made' (p m) ∧
    ∀ stop {all}, made' <+: all → watched stop all m = p m

theorem Ends.imp {Q R : Ledger ρ → α → Prop} {r : EStateM.Result Stop (Machine ρ) α}
    (h : Ends Q made r) (hq : ∀ {a}, Q made a → R made a) : Ends R made r := by
  cases h with
  | ok fits h => exact .ok fits (hq h)
  | error stop fits => exact .error stop fits

namespace Enters

variable {Q : Ledger ρ → α → Prop} {R : Ledger ρ → β → Prop} {watched : Stop → Ledger ρ → Run ρ α}
  {p : Run ρ α} {k' : Stop → Ledger ρ → α → Run ρ β} {k : α → Run ρ β}

theorem step {a : α} (hp : p m = .ok a m') (fits : m'.Fits made) (h : Q made a) :
    Enters made m Q (fun _ _ => p) p :=
  ⟨made, List.prefix_refl _, hp ▸ .ok fits h, fun _ _ _ => rfl⟩

theorem pure (fits : m.Fits made) {a : α} (h : Q made a) :
    Enters made m Q (fun _ _ => Pure.pure a) (Pure.pure a) := step rfl fits h

theorem throw (fits : m.Fits made) (stop : Stop) :
    Enters made m Q (fun _ _ => MonadExcept.throw stop) (MonadExcept.throw stop) :=
  ⟨made, List.prefix_refl _, .error stop fits, fun _ _ _ => rfl⟩

theorem raise (fits : m.Fits made) (fault : RuntimeFault) (line : Nat) :
    Enters made m Q (fun _ _ => Run.raise fault line) (Run.raise fault line) := throw fits _

theorem bind (h : Enters made m Q watched p)
    (hk : ∀ {made' : Ledger ρ} {m' a}, made <+: made' → m'.Fits made' → Q made' a →
      Enters made' m' R (k' · · a) (k a)) :
    Enters made m R (fun stop all => watched stop all >>= k' stop all) (p >>= k) := by
  obtain ⟨made₁, le₁, ends, same⟩ := h
  cases hp : p m with
  | ok a m₁ =>
    rw [hp] at ends
    cases ends with
    | ok fits ha =>
      obtain ⟨made₂, le₂, ends₂, same₂⟩ := hk le₁ fits ha
      refine ⟨made₂, le₁.trans le₂, ?_, fun stop all le => ?_⟩
      · rw [bind_of_ok hp]
        exact ends₂
      · have first : watched stop all m = .ok a m₁ := (same stop (le₂.trans le)).trans hp
        exact (bind_of_ok first).trans ((same₂ stop le).trans (bind_of_ok hp).symm)
  | error stop m₁ =>
    rw [hp] at ends
    cases ends with
    | error _ fits =>
      refine ⟨made₁, le₁, ?_, fun expected all le => ?_⟩
      · rw [bind_of_error hp]
        exact .error stop fits
      · have first : watched expected all m = .error stop m₁ := (same expected le).trans hp
        exact (bind_of_error first).trans (bind_of_error hp).symm

theorem imp {R : Ledger ρ → α → Prop} (h : Enters made m Q watched p)
    (hq : ∀ {made' : Ledger ρ} {a}, made <+: made' → Q made' a → R made' a) :
    Enters made m R watched p := by
  obtain ⟨made', le, ends, same⟩ := h
  exact ⟨made', le, ends.imp (hq le), same⟩

theorem map (h : Enters made m Q watched p) {f : α → β}
    (hf : ∀ {made' : Ledger ρ} {a}, Q made' a → R made' (f a)) :
    Enters made m R (fun stop all => f <$> watched stop all) (f <$> p) := by
  have bound : Enters made m R (fun stop all => watched stop all >>= fun a => Pure.pure (f a))
      (p >>= fun a => Pure.pure (f a)) := h.bind fun _ fits hq => pure fits (hf hq)
  exact bound

/-- What the phrase answers is what it answers in this machine. -/
theorem told (h : Enters made m Q watched p) :
    Enters made m (fun made' a => Q made' a ∧ ∃ m', p m = .ok a m') watched p := by
  obtain ⟨made', le, ends, same⟩ := h
  refine ⟨made', le, ?_, same⟩
  cases hp : p m with
  | ok a m' =>
    rw [hp] at ends
    cases ends with
    | ok fits ha => exact .ok fits ⟨ha, m', rfl⟩
  | error stop m' =>
    rw [hp] at ends
    cases ends with
    | error _ fits => exact .error stop fits

/-- The phrase looks at the machine that it runs in. -/
theorem get {k' : Stop → Ledger ρ → Machine ρ → Run ρ α} {k : Machine ρ → Run ρ α}
    (h : Enters made m Q (k' · · m) (k m)) :
    Enters made m Q (fun stop all => MonadState.get >>= k' stop all) (MonadState.get >>= k) := h

/-- What is expected is so, of any ledger that goes on from the end of the run. -/
theorem expect {P : Ledger ρ → Machine ρ → Prop} (h : Enters made m Q watched p)
    (hP : ∀ {made' all : Ledger ρ}, made <+: made' → Ends Q made' (p m) → made' <+: all → P all m) :
    Enters made m Q (fun stop all => Run.expect stop (P all) >>= fun _ => watched stop all) p := by
  obtain ⟨made', le, ends, same⟩ := h
  exact ⟨made', le, ends, fun stop _ le' =>
    (bind_of_ok (Run.expect_of (hP le ends le'))).trans (same stop le')⟩

theorem onLine (h : Enters made m Q watched p) (line : Nat) :
    Enters made m Q (fun stop all => Run.onLine line (watched stop all)) (Run.onLine line p) := by
  obtain ⟨made', le, ends, same⟩ := h
  refine ⟨made', le, ?_, fun stop all le' => by simp only [Run.onLine, same stop le']⟩
  simp only [Run.onLine]
  generalize p m = r at ends
  cases ends with
  | ok fits h => exact .ok fits h
  | error stop fits => cases stop <;> exact .error _ fits

theorem inScope {e : EnvId} (h : Enters made { m with scope := e } Q watched p) :
    Enters made m Q (fun stop all => Run.inScope e (watched stop all)) (Run.inScope e p) := by
  obtain ⟨made', le, ends, same⟩ := h
  refine ⟨made', le, ?_, fun stop all le' => by simp only [Run.inScope, same stop le']⟩
  simp only [Run.inScope]
  generalize p { m with scope := e } = r at ends
  cases ends with
  | ok fits h => exact .ok (fits.enter m.scope) h
  | error stop fits => exact .error stop (fits.enter m.scope)

/-- What is known of a run that ends well. -/
theorem ok (h : Enters made m Q watched p) {a : α} (hp : p m = .ok a m') :
    ∃ made', made <+: made' ∧ m'.Fits made' ∧ Q made' a := by
  obtain ⟨made', le, ends, _⟩ := h
  rw [hp] at ends
  cases ends with
  | ok fits ha => exact ⟨made', le, fits, ha⟩

end Enters

end Inheritance

end Lox
