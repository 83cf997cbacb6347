import Lox.Proofs.Lexical.Memory
import Lox.Proofs.Steady
import Lox.Proofs.Watched

/-!
Phrases that agree. From a machine and a store of which a world says the same, a watched phrase does
what the phrase itself does, and the phrase of lexical scoping ends in the same way; what they answer is
related, and a larger world says the same of what they leave.
-/

namespace Lox

open Lexical (Locals Cell)
open Run (expect)

namespace World

variable {α β γ δ : Type}

/-- What follows the machine in a run: the world is larger, and the current environment the same. No
environment has more names than before but the own one of the phrase, if it has one. -/
structure Later (own : Option EnvId) (W : World) (m : Machine RefId) (V : World) (m' : Machine RefId)
    (s' : Lexical.Store RefId) : Prop where
  grows : W.Grows V
  sees : V.Sees m' s'
  scope : m'.scope = m.scope
  kept : ∀ {e : EnvId} {x : Option EnvId × List String}, own ≠ some e →
    W.outline[e]? = some x → V.outline[e]? = some x

/-- Both end in the same way. -/
inductive Ends (own : Option EnvId) (W : World) (m : Machine RefId) (Q : World → α → β → Prop) :
    EStateM.Result Stop (Machine RefId) α → EStateM.Result Stop (Lexical.Store RefId) β → Prop
  | ok {a : α} {b : β} {V : World} {m' : Machine RefId} {s' : Lexical.Store RefId}
      (later : Later own W m V m' s') (h : Q V a b) : Ends own W m Q (.ok a m') (.ok b s')
  | error {V : World} {m' : Machine RefId} {s' : Lexical.Store RefId} (stop : Stop)
      (later : Later own W m V m' s') : Ends own W m Q (.error stop m') (.error stop s')

/-- Nothing happens that is not expected, and lexical scoping does the same. -/
structure Agrees (own : Option EnvId) (W : World) (m : Machine RefId) (s : Lexical.Store RefId)
    (Q : World → α → β → Prop) (watched p : Run RefId α) (q : Lexical.Run RefId β) : Prop where
  same : watched m = p m
  ends : Ends own W m Q (p m) (q s)

variable {own : Option EnvId} {W V : World} {m m' : Machine RefId} {s s' : Lexical.Store RefId}

namespace Later

theorem refl (h : W.Sees m s) : Later own W m W m s := ⟨.refl W, h, rfl, fun _ h => h⟩

theorem trans {U : World} {m'' : Machine RefId} {s'' : Lexical.Store RefId}
    (h : Later own W m V m' s') (h' : Later own V m' U m'' s'') : Later own W m U m'' s'' :=
  ⟨h.grows.trans h'.grows, h'.sees, h'.scope.trans h.scope, fun he hx => h'.kept he (h.kept he hx)⟩

theorem extension (h : Later own W m V m' s') : W.Extends V := h.grows.toExtends

theorem chain (h : Later own W m V m' s') {Γ : Names} {locals : Locals}
    (hc : W.Chain Γ m.scope locals) : V.Chain Γ m'.scope locals :=
  h.scope ▸ hc.extend h.extension

theorem weaken (h : Later none W m V m' s') : Later own W m V m' s' :=
  ⟨h.grows, h.sees, h.scope, fun _ hx => h.kept (fun he => nomatch he) hx⟩

/-- The same world, for a change of memory only. -/
theorem same (h : W.Sees m' s') (hs : m'.scope = m.scope) : Later own W m W m' s' :=
  ⟨.refl W, h, hs, fun _ h => h⟩

end Later

theorem Ends.later {Q : World → α → β → Prop} {r : EStateM.Result Stop (Machine RefId) α}
    {t : EStateM.Result Stop (Lexical.Store RefId) β} (later : Later own W m V m' s')
    (h : Ends own V m' Q r t) : Ends own W m Q r t := by
  cases h with
  | ok after h => exact .ok (later.trans after) h
  | error stop after => exact .error stop (later.trans after)

namespace Agrees

variable {Q : World → α → β → Prop} {R : World → γ → δ → Prop} {watched p : Run RefId α}
  {q : Lexical.Run RefId β} {k' k : α → Run RefId γ} {l : β → Lexical.Run RefId δ}

theorem step {a : α} {b : β} (hp : p m = .ok a m') (hq : q s = .ok b s')
    (later : Later own W m V m' s') (h : Q V a b) : Agrees own W m s Q p p q :=
  ⟨rfl, by rw [hp, hq]; exact .ok later h⟩

theorem congr {p' : Run RefId α} (hp : p' m = p m) (h : Agrees own W m s Q p p q) :
    Agrees own W m s Q p' p' q :=
  ⟨rfl, hp ▸ h.ends⟩

theorem pure (hs : W.Sees m s) {a : α} {b : β} (h : Q W a b) :
    Agrees own W m s Q (Pure.pure a) (Pure.pure a) (Pure.pure b) :=
  ⟨rfl, .ok (.refl hs) h⟩

theorem throw (hs : W.Sees m s) (stop : Stop) :
    Agrees own W m s Q (throw stop) (throw stop) (throw stop) :=
  ⟨rfl, .error stop (.refl hs)⟩

theorem raise (hs : W.Sees m s) (fault : RuntimeFault) (line : Nat) :
    Agrees own W m s Q (Run.raise fault line) (Run.raise fault line) (Lexical.raise fault line) :=
  throw hs _

/-- What comes first may change less of the environments than the whole. -/
theorem bindOf {inner : Option EnvId}
    (widen : ∀ {V m' s'}, Later inner W m V m' s' → Later own W m V m' s')
    (h : Agrees inner W m s Q watched p q)
    (hk : ∀ {V m' s' a b}, Later inner W m V m' s' → Q V a b →
      Agrees own V m' s' R (k' a) (k a) (l b)) :
    Agrees own W m s R (watched >>= k') (p >>= k) (q >>= l) := by
  obtain ⟨same, ends⟩ := h
  generalize hp : p m = r, hq : q s = t at ends
  cases ends with
  | ok later h =>
    obtain ⟨same', ends'⟩ := hk later h
    refine ⟨?_, ?_⟩
    · rw [bind_of_ok (same.trans hp), bind_of_ok hp, same']
    · rw [bind_of_ok hp, bind_of_ok hq]
      exact ends'.later (widen later)
  | error stop later =>
    refine ⟨?_, ?_⟩
    · rw [bind_of_error (same.trans hp), bind_of_error hp]
    · rw [bind_of_error hp, bind_of_error hq]
      exact .error stop (widen later)

theorem bind (h : Agrees own W m s Q watched p q)
    (hk : ∀ {V m' s' a b}, Later own W m V m' s' → Q V a b →
      Agrees own V m' s' R (k' a) (k a) (l b)) :
    Agrees own W m s R (watched >>= k') (p >>= k) (q >>= l) :=
  h.bindOf id hk

/-- What comes first leaves all environments as they are. -/
theorem andThen (h : Agrees none W m s Q watched p q)
    (hk : ∀ {V m' s' a b}, Later none W m V m' s' → Q V a b →
      Agrees own V m' s' R (k' a) (k a) (l b)) :
    Agrees own W m s R (watched >>= k') (p >>= k) (q >>= l) :=
  h.bindOf Later.weaken hk

/-- Lexical scoping answers something else at last. -/
theorem answering (h : Agrees own W m s Q watched p q) {b : δ} {R : World → α → δ → Prop}
    (hr : ∀ {V m' s' a c}, Later own W m V m' s' → Q V a c → R V a b) :
    Agrees own W m s R watched p (q >>= fun _ => Pure.pure b) := by
  obtain ⟨same, ends⟩ := h
  refine ⟨same, ?_⟩
  generalize p m = r, hq : q s = t at ends
  cases ends with
  | ok later h =>
    rw [bind_of_ok hq]
    exact .ok later (hr later h)
  | error stop later =>
    rw [bind_of_error hq]
    exact .error stop later

theorem weaken (h : Agrees none W m s Q watched p q) : Agrees own W m s Q watched p q := by
  obtain ⟨same, ends⟩ := h
  refine ⟨same, ?_⟩
  generalize p m = r, q s = t at ends
  cases ends with
  | ok later h => exact .ok later.weaken h
  | error stop later => exact .error stop later.weaken

theorem map (h : Agrees own W m s Q watched p q) {f : α → γ} {g : β → δ}
    (hf : ∀ {V a b}, Q V a b → R V (f a) (g b)) :
    Agrees own W m s R (f <$> watched) (f <$> p) (g <$> q) :=
  h.bind fun later hq => pure later.sees (hf hq)

/-- Both look at what they run in. -/
theorem get {k' k : Machine RefId → Run RefId α} {l : Lexical.Store RefId → Lexical.Run RefId β}
    (h : Agrees own W m s Q (k' m) (k m) (l s)) :
    Agrees own W m s Q (MonadState.get >>= k') (MonadState.get >>= k) (MonadState.get >>= l) :=
  ⟨h.same, h.ends⟩

theorem getLeft {k' k : Machine RefId → Run RefId α} (h : Agrees own W m s Q (k' m) (k m) q) :
    Agrees own W m s Q (MonadState.get >>= k') (MonadState.get >>= k) q :=
  ⟨h.same, h.ends⟩

theorem getRight {l : Lexical.Store RefId → Lexical.Run RefId β}
    (h : Agrees own W m s Q watched p (l s)) :
    Agrees own W m s Q watched p (MonadState.get >>= l) :=
  ⟨h.same, h.ends⟩

/-- What is expected is so. -/
theorem expect {stop : Stop} {P : Machine RefId → Prop} {watched : Run RefId α} (hP : P m)
    (h : Agrees own W m s Q watched p q) :
    Agrees own W m s Q (Run.expect stop P >>= fun _ => watched) p q :=
  ⟨(bind_of_ok (Run.expect_of hP)).trans h.same, h.ends⟩

theorem ofExcept (hs : W.Sees m s) {x : Except RuntimeError (Value RefId EnvId)}
    {y : Except RuntimeError (Value RefId Locals)} (h : W.Results x y) :
    Agrees own W m s Values (Run.ofExcept x) (Run.ofExcept x) (Lexical.ofExcept y) := by
  cases h with
  | ok h => exact pure hs h
  | error e => exact throw hs _

theorem onLine (h : Agrees own W m s Q watched p q) (line : Nat) :
    Agrees own W m s Q (Run.onLine line watched) (Run.onLine line p) (Lexical.onLine line q) := by
  obtain ⟨same, ends⟩ := h
  refine ⟨by simp only [Run.onLine, same], ?_⟩
  simp only [Run.onLine, Lexical.onLine]
  generalize p m = r, q s = t at ends
  cases ends with
  | ok later h => exact .ok later h
  | error stop later =>
    cases stop with
    | error e => exact .error _ later
    | outOfFuel => exact .error _ later

theorem inScope {e : EnvId} (h : Agrees own W { m with scope := e } s Q watched p q) :
    Agrees own W m s Q (Run.inScope e watched) (Run.inScope e p) q := by
  obtain ⟨same, ends⟩ := h
  refine ⟨by simp only [Run.inScope, same], ?_⟩
  simp only [Run.inScope]
  generalize p { m with scope := e } = r, q s = t at ends
  cases ends with
  | ok later h => exact .ok ⟨later.grows, later.sees.enter _, rfl, later.kept⟩ h
  | error stop later => exact .error stop ⟨later.grows, later.sees.enter _, rfl, later.kept⟩

/-- A new environment is the own one of what follows, and was not there before. -/
theorem nestIn (hs : W.Sees m s) (e : EnvId) {k' k : EnvId → Run RefId α}
    (h : Agrees (some W.outline.length) (W.nested e)
      { m with environments := m.environments.nest e } s Q
      (k' W.outline.length) (k W.outline.length) q) :
    Agrees none W m s Q (Run.nestIn e >>= k') (Run.nestIn e >>= k) q := by
  have fresh : m.environments.fresh = W.outline.length := by
    rw [← hs.outline, Environments.outline, List.length_map, Array.length_toList]
    rfl
  have run : Run.nestIn e m = .ok W.outline.length { m with environments := m.environments.nest e } :=
    fresh ▸ rfl
  have later {V : World} {m' : Machine RefId} {s' : Lexical.Store RefId}
      (h : Later (some W.outline.length) (W.nested e)
        { m with environments := m.environments.nest e } V m' s') : Later none W m V m' s' := by
    refine ⟨(W.grows_nested e).trans h.grows, h.sees, h.scope, fun {i x} _ hx => h.kept ?_ ?_⟩
    · intro he
      rw [← Option.some.inj he, List.getElem?_eq_none (Nat.le_refl _)] at hx
      cases hx
    · rw [nested, List.getElem?_append_left (List.getElem?_eq_some_iff.mp hx).1, hx]
  obtain ⟨same, ends⟩ := h
  refine ⟨by rw [bind_of_ok run, bind_of_ok run, same], ?_⟩
  rw [bind_of_ok run]
  generalize k W.outline.length { m with environments := m.environments.nest e } = r, q s = t at ends
  cases ends with
  | ok after h => exact .ok (later after) h
  | error stop after => exact .error stop (later after)

theorem nest (hs : W.Sees m s) {k' k : EnvId → Run RefId α}
    (h : Agrees (some W.outline.length) (W.nested m.scope)
      { m with environments := m.environments.nest m.scope } s Q
      (k' W.outline.length) (k W.outline.length) q) :
    Agrees none W m s Q (Run.nest >>= k') (Run.nest >>= k) q :=
  have agrees := nestIn hs m.scope h
  ⟨agrees.same, agrees.ends⟩

end Agrees

end World

end Lox
