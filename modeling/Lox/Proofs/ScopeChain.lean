import Lox.Proofs.Lexical.Session
import Lox.Proofs.Scoping.Places

/-!
The chain of environments. Wherever a phrase of an accepted program is about to run, the environments
from the current one outwards are those of the scopes that scoping has open there, with the names of
each scope in its first slots. So a binding leads to a slot, and to the name that it was found for.
-/

namespace Lox

open Scoping

namespace Run

variable {ρ α : Type}

/-- The step does not fail for want of a variable. -/
def Finds (p : Run ρ α) (m : Machine ρ) : Prop :=
  ∀ name line m', p m ≠ .error (.error ⟨.undefinedVariable name, line⟩) m'

theorem get_bind (k : Machine ρ → Run ρ α) (m : Machine ρ) : (get >>= k) m = k m m := rfl

end Run

/-- The binding leads to a slot that exists, and that has the name. -/
def Machine.Lands {ρ : Type} (m : Machine ρ) (b : Binding) (name : String) : Prop :=
  ∃ e env, m.environments.ancestor? m.scope b.distance = some e ∧ m.environments.all[e]? = some env ∧
    env.names[b.slot]? = some name

namespace History

/-- Scoping has come to the phrase in a program of the session, and the environments are those of the
scopes that were open then. A phrase with references stands nowhere else. -/
def Located (h : History) (phrase : Phrase) (m : Machine RefId) : Prop :=
  ∃ p ∈ h.programs, ∃ v, Visited p v ∧ v.phrase = phrase ∧
    m.environments.Mirrors v.state.names m.scope ∧
    (phrase.references ≠ [] → ∀ q ∈ h.programs, ∀ w, Visited q w → w.phrase = phrase → w = v)

/-- What is expected of the environments. Variables that the language itself declares are always bound;
another reference that is bound finds its variable. -/
def scopeChain (h : History) : Watch RefId where
  stmt a m := h.Located (.stmt a) m ∧
    ∀ name id above ms cs b, a = .class name (some (id, above)) ms cs →
      h.session.bindings.find? id = some b → m.Lands b above.text ∧ (Run.read (some b) above).Finds m
  expr e m := h.Located (.expr e) m
  access e m := match e with
    | .variable id name => ∀ b, h.session.bindings.find? id = some b →
      m.Lands b name.text ∧ (Run.read (some b) name).Finds m
    | .assign id name _ => ∀ b, h.session.bindings.find? id = some b →
      m.Lands b name.text ∧ ∀ v, (Run.assign (some b) name v).Finds m
    | .this id keyword => ∃ b, h.session.bindings.find? id = some b ∧
      m.Lands b keyword.text ∧ (Run.read (some b) keyword).Finds m
    | .super id keyword method => ∃ b, h.session.bindings.find? id = some b ∧
      m.Lands b keyword.text ∧ (getSuper (some b) keyword method).Finds m
    | _ => True

end History

section Held

variable {W : World} {m : Machine RefId} {s : Lexical.Store RefId} {name : String} {b : Binding}
  {cell : Lexical.Cell} {e : EnvId} {v : Option (Value RefId EnvId)}
  {v' : Option (Value RefId Lexical.Locals)} (h : W.Held m s name b cell e v v')

include h

theorem World.Held.lands : m.Lands b name := by
  obtain ⟨env, he, hx⟩ := h.entry
  refine ⟨e, env, h.ancestor, he, ?_⟩
  rw [Environment.names, List.getElem?_map, hx]
  rfl

theorem World.Held.read_finds (x : Lexeme) : (Run.read (some b) x).Finds m := by
  intro name line m' he
  rw [Run.read, Run.get_bind] at he
  simp only [h.place?, h.getSlot] at he
  cases v with
  | some v => cases he
  | none => cases he

theorem World.Held.assign_finds (x : Lexeme) (w : Value RefId EnvId) :
    (Run.assign (some b) x w).Finds m := by
  intro name line m' he
  rw [Run.assign, Run.get_bind] at he
  simp only [h.place?] at he
  cases he

end Held

theorem bindMethod_finds (f : Option (Function RefId EnvId)) (receiver : Value RefId EnvId)
    (name : Lexeme) (m : Machine RefId) : (bindMethod f receiver name).Finds m := by
  intro x line m' he
  cases f with
  | none => cases he
  | some f => cases he

namespace History.Settled

variable {h : History} (hs : h.Settled) {W : World} {p : Program} {c : Context} {Γ : Names}
  {m : Machine RefId} {s : Lexical.Store RefId} {locals : Lexical.Locals}

include hs

theorem located {phrase : Phrase} (hb : hs.setting.Before W p Γ m s locals)
    (stands : Stands p c Γ phrase) : h.Located phrase m := by
  obtain ⟨state, rfl, visited⟩ := stands
  refine ⟨p, hb.member, _, visited, rfl, hb.chain.mirrors hb.sees.outline, ?_⟩
  intro references q hq w hw same
  obtain ⟨r, hr⟩ := List.exists_mem_of_ne_nil _ references
  have here := (Visit.Reaches.references visited).subset hr
  have there := (Visit.Reaches.references hw).subset (same ▸ hr)
  obtain ⟨rfl, once⟩ := hs.eq_of_shared hb.member hq here there
  exact Visit.Reaches.unique visited hw once same hr

theorem bound_finds {id : RefId} {name : Lexeme} (hb : hs.setting.Before W p Γ m s locals)
    (bound : ⟨id, Γ.binding? name.text⟩ ∈ (resolve p).references) {b : Binding}
    (hi : h.session.bindings.find? id = some b) :
    m.Lands b name.text ∧ (Run.read (some b) name).Finds m ∧
      ∀ v, (Run.assign (some b) name v).Finds m := by
  have binding : Γ.binding? name.text = some b := (hb.site_eq bound).symm.trans hi
  obtain ⟨cell, e, v, v', _, held⟩ := hb.held binding
  exact ⟨held.lands, held.read_finds name, held.assign_finds name⟩

theorem super_finds {id : RefId} {keyword method : Lexeme}
    (hb : hs.setting.Before W p Γ m s locals)
    (stands : Stands p c Γ (.expr (.super id keyword method))) :
    ∃ b, h.session.bindings.find? id = some b ∧ m.Lands b keyword.text ∧
      (getSuper (some b) keyword method).Finds m := by
  obtain ⟨text, d, this, super, bound⟩ := stands.super hb.faultless
  obtain ⟨_, e, v, v', _, held⟩ := hb.held super
  obtain ⟨_, e', w, w', _, held'⟩ := hb.held this
  obtain ⟨k, rfl⟩ := held.special.2 rfl
  obtain ⟨receiver, rfl, hr⟩ := held'.special.1 rfl
  refine ⟨_, (hb.site_eq bound).trans super, text ▸ held.lands, ?_⟩
  intro name line m' he
  rw [getSuper, Run.get_bind] at he
  simp only [held.getAt, held'.getAt, Lookup.ofOption] at he
  cases receiver with
  | «instance» id k' => exact bindMethod_finds _ _ _ m name line m' he
  | «class» k' => exact bindMethod_finds _ _ _ m name line m' he
  | _ => cases hr

theorem scopeChain_fulfilled : hs.setting.Fulfilled h.scopeChain where
  stmt hb stands := by
    refine ⟨hs.located hb stands, ?_⟩
    rintro name id above ms cs b rfl hi
    obtain ⟨lands, reads, _⟩ := hs.bound_finds hb (stands.inherits hb.faultless).2.2 hi
    exact ⟨lands, reads⟩
  expr hb stands := hs.located hb stands
  access {W p c Γ m s locals e} hb stands := by
    have hp := hb.faultless
    cases e with
    | «variable» id name =>
      intro b hi
      obtain ⟨lands, reads, _⟩ := hs.bound_finds hb (stands.reads hp) hi
      exact ⟨lands, reads⟩
    | assign id name e =>
      intro b hi
      obtain ⟨lands, _, assigns⟩ := hs.bound_finds hb (stands.assigns hp).1 hi
      exact ⟨lands, assigns⟩
    | this id keyword =>
      obtain ⟨text, d, this, bound⟩ := stands.this hp
      have hi : h.session.bindings.find? id = some ⟨d, 0⟩ := (hb.site_eq bound).trans this
      obtain ⟨lands, reads, _⟩ := hs.bound_finds hb (text ▸ bound) hi
      exact ⟨_, hi, lands, reads⟩
    | super id keyword method => exact hs.super_finds hb stands
    | _ => trivial
  body _ _ := trivial
  top := trivial

end History.Settled

namespace History

/-- In every run of an accepted program, whatever the steps before and however much fuel it has:
before each statement and each expression the chain of environments has one environment for each scope
that is open there, and their first names are those that scoping has declared in it. A reference that
is bound leads to an existing slot of its own name, and reading it, assigning to it and looking up a
method above never fail for want of a variable. The watched run stops where this is not so, and yet it
is the run. A step that is given a text accepts it first, and runs its program from there. -/
theorem scopes_mirrored {h : History} (hr : h.Reachable) {p : Program} (hp : p ∈ h.programs)
    (stop : Stop) (fuel : Nat) :
    h.scopeChain.interpret stop h.session.bindings.find? fuel p h.session.machine =
      interpret h.session.bindings.find? fuel p h.session.machine :=
  hr.watched hr.settled.scopeChain_fulfilled hp stop fuel

/-- The same of a function in a method, which sees a variable of the method and the class above. -/
theorem scopes_mirrored_in_method :
    ∃ h p, h = ((start {} .warning).perform (.compile
        "class A { m() {} } class B < A { m() { var x; fun f() { x = super.m(); } f(); } } B().m();")).2 ∧
      h.Reachable ∧ h.programs = [p] ∧ ∀ stop fuel,
        h.scopeChain.interpret stop h.session.bindings.find? fuel p h.session.machine =
          interpret h.session.bindings.find? fuel p h.session.machine := by
  obtain ⟨h, hh⟩ : ∃ h, h = ((start {} .warning).perform (.compile
    "class A { m() {} } class B < A { m() { var x; fun f() { x = super.m(); } f(); } } B().m();")).2 :=
    ⟨_, rfl⟩
  have hr : h.Reachable := hh ▸ (reachable_start {} .warning).perform _
  have accepted : h.programs.length = 1 := by
    rw [hh]
    decide +kernel
  obtain ⟨p, hp⟩ := List.length_eq_one_iff.mp accepted
  exact ⟨h, p, hh, hr, hp, scopes_mirrored hr (hp ▸ List.mem_singleton_self p)⟩

end History

end Lox
