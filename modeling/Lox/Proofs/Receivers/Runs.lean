import Lox.Proofs.CurrentScope
import Lox.Proofs.Receivers.Memory
import Lox.Proofs.Watched

/-!
Runs that keep what is known of values. From a machine of which it is known, a phrase leads to one that
has grown and of which it is known as well, and it answers what is known to be all right. On its way
nothing happens that is not expected, where it may be expected of each machine that a machine behind the
run has grown from it.
-/

namespace Lox

open Run (leaves)

namespace Receivers

variable {α β : Type} {ps : List Program} {m m' m'' : Machine RefId}

/-- The phrase ends in a machine that follows, and what it answers is as it should be. -/
inductive Ends (ps : List Program) (m : Machine RefId) (Q : Machine RefId → α → Prop) :
    EStateM.Result Stop (Machine RefId) α → Prop
  | ok {a : α} {m' : Machine RefId} (later : Later ps m m') (h : Q m' a) : Ends ps m Q (.ok a m')
  | error {m' : Machine RefId} (stop : Stop) (later : Later ps m m') : Ends ps m Q (.error stop m')

/-- The phrase ends well, and so that nothing happens that is not expected. -/
structure Safe (ps : List Program) (m : Machine RefId) (Q : Machine RefId → α → Prop)
    (watched : Machine RefId → Run RefId α) (p : Run RefId α) : Prop where
  same : ∀ {n}, (leaves p m).Grows n → watched n m = p m
  ends : Ends ps m Q (p m)

namespace Ends

variable {Q : Machine RefId → α → Prop} {r : EStateM.Result Stop (Machine RefId) α}

theorem later (hl : Later ps m m') (h : Ends ps m' Q r) : Ends ps m Q r := by
  cases h with
  | ok later h => exact .ok (hl.trans later) h
  | error stop later => exact .error stop (hl.trans later)

theorem leaves {p : Run RefId α} (h : Ends ps m Q (p m)) : Later ps m (Run.leaves p m) := by
  rw [Run.leaves]
  generalize p m = r at h
  cases h with
  | ok later h => exact later
  | error stop later => exact later

end Ends

namespace Safe

variable {Q : Machine RefId → α → Prop} {R : Machine RefId → β → Prop}
  {watched : Machine RefId → Run RefId α} {p : Run RefId α} {k' : Machine RefId → α → Run RefId β}
  {k : α → Run RefId β}

theorem step {a : α} (hp : p m = .ok a m') (later : Later ps m m') (h : Q m' a) :
    Safe ps m Q (fun _ => p) p :=
  ⟨fun _ => rfl, hp ▸ .ok later h⟩

theorem pure (hs : m.Sound ps) {a : α} (h : Q m a) :
    Safe ps m Q (fun _ => Pure.pure a) (Pure.pure a) := step rfl (.refl hs) h

theorem throw (hs : m.Sound ps) (stop : Stop) :
    Safe ps m Q (fun _ => MonadExcept.throw stop) (MonadExcept.throw stop) :=
  ⟨fun _ => rfl, .error stop (.refl hs)⟩

theorem raise (hs : m.Sound ps) (fault : RuntimeFault) (line : Nat) :
    Safe ps m Q (fun _ => Run.raise fault line) (Run.raise fault line) := throw hs _

theorem bind (h : Safe ps m Q watched p)
    (hk : ∀ {m' a}, Later ps m m' → Q m' a → Safe ps m' R (k' · a) (k a)) :
    Safe ps m R (fun n => watched n >>= k' n) (p >>= k) := by
  obtain ⟨same, ends⟩ := h
  have left : ∀ {r}, p m = r → Ends ps m Q r := fun h => h ▸ ends
  cases hp : p m with
  | ok a m' =>
    cases left hp with
    | ok later ha =>
      obtain ⟨same', ends'⟩ := hk later ha
      have leaves_eq : leaves (p >>= k) m = leaves (k a) m' := by
        rw [leaves, bind_of_ok hp]
        rfl
      constructor
      · intro n hn
        rw [leaves_eq] at hn
        have first : watched n m = .ok a m' := by
          rw [same (Run.leaves_ok hp ▸ ends'.leaves.grows.trans hn), hp]
        rw [bind_of_ok first, bind_of_ok hp, same' hn]
      · rw [bind_of_ok hp]
        exact ends'.later later
  | error stop m' =>
    cases left hp with
    | error _ later =>
      constructor
      · intro n hn
        rw [leaves, bind_of_error hp] at hn
        have first : watched n m = .error stop m' := by rw [same (Run.leaves_error hp ▸ hn), hp]
        rw [bind_of_error first, bind_of_error hp]
      · rw [bind_of_error hp]
        exact .error stop later

theorem map (h : Safe ps m Q watched p) {f : α → β} (hf : ∀ {m' a}, Q m' a → R m' (f a)) :
    Safe ps m R (fun n => f <$> watched n) (f <$> p) := by
  have bound : Safe ps m R (fun n => watched n >>= fun a => Pure.pure (f a))
      (p >>= fun a => Pure.pure (f a)) := h.bind fun later hq => pure later.sound (hf hq)
  exact bound

theorem ok (h : Safe ps m Q watched p) {a : α} (hp : p m = .ok a m') : Later ps m m' ∧ Q m' a := by
  have ends := h.ends
  rw [hp] at ends
  cases ends with
  | ok later ha => exact ⟨later, ha⟩

/-- The phrase looks at the machine that it runs in. -/
theorem get {k' : Machine RefId → Machine RefId → Run RefId α} {k : Machine RefId → Run RefId α}
    (h : Safe ps m Q (k' · m) (k m)) :
    Safe ps m Q (fun n => MonadState.get >>= k' n) (MonadState.get >>= k) :=
  ⟨h.same, h.ends⟩

/-- What is expected is so. -/
theorem expect {stop : Stop} {P : Machine RefId → Machine RefId → Prop}
    (hP : ∀ {n}, m.Grows n → P n m) (h : Safe ps m Q watched p) :
    Safe ps m Q (fun n => Run.expect stop (P n) >>= fun _ => watched n) p where
  same hn := (bind_of_ok (Run.expect_of (hP (h.ends.leaves.grows.trans hn)))).trans (h.same hn)
  ends := h.ends

theorem onLine (h : Safe ps m Q watched p) (line : Nat) :
    Safe ps m Q (fun n => Run.onLine line (watched n)) (Run.onLine line p) := by
  obtain ⟨same, ends⟩ := h
  have left : leaves (Run.onLine line p) m = leaves p m := by
    simp only [leaves, Run.onLine]
    cases p m with
    | ok a m' => rfl
    | error stop m' => cases stop <;> rfl
  refine ⟨fun hn => by simp only [Run.onLine, same (left ▸ hn)], ?_⟩
  simp only [Run.onLine]
  generalize p m = r at ends
  cases ends with
  | ok later h => exact .ok later h
  | error stop later => cases stop <;> exact .error _ later

/-- What runs in another environment leaves the machine in the one it was in. -/
theorem inScope {e : EnvId} (h : Safe ps { m with scope := e } Q watched p)
    (hq : ∀ {m' a} (scope : EnvId), Q m' a → Q { m' with scope } a) :
    Safe ps m Q (fun n => Run.inScope e (watched n)) (Run.inScope e p) := by
  obtain ⟨same, ends⟩ := h
  have enter (m : Machine RefId) (e : EnvId) : m.Grows { m with scope := e } :=
    .of_eq rfl (Nat.le_refl _)
  have back {m' : Machine RefId} (later : Later ps { m with scope := e } m') :
      Later ps m { m' with scope := m.scope } :=
    ⟨later.sound.enter m.scope, ((enter m e).trans later.grows).trans (enter m' m.scope), rfl⟩
  constructor
  · intro n hn
    have inner : (leaves p { m with scope := e }).Grows n := by
      refine Machine.Grows.trans (enter _ m.scope) ?_
      simp only [leaves, Run.inScope] at hn ⊢
      cases hp : p { m with scope := e } with
      | ok a m' | error stop m' =>
        rw [hp] at hn
        exact hn
    simp only [Run.inScope, same inner]
  · simp only [Run.inScope]
    generalize p { m with scope := e } = r at ends
    cases ends with
    | ok later h => exact .ok (back later) (hq _ h)
    | error stop later => exact .error stop (back later)

end Safe

end Receivers

end Lox
