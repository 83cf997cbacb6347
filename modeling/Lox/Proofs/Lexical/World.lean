import Lox.Proofs.Environment
import Lox.Proofs.Lexical.Evaluator
import Lox.Proofs.Scoping.Stands

/-!
How cells and environments correspond. A world says which environments there are, with the names in
them, and which slot of which environment each cell stands for. Worlds only grow: environments get more
names, and there are more environments and more cells. The chain of environments from a place mirrors
the names that scoping has declared there, and the list of names and cells that the place sees leads to
the same variables.
-/

namespace Lox

open Lexical (Cell Locals)

namespace Environments

variable {α : Type}

/-- What each environment is nested in, and its names. -/
def outline (s : Environments α) : List (Option EnvId × List String) :=
  s.all.toList.map fun e => (e.enclosing, e.names)

theorem outline_get (s : Environments α) (e : EnvId) :
    s.outline[e]? = s.all[e]?.map fun e => (e.enclosing, e.names) := by
  rw [outline, List.getElem?_map, Array.getElem?_toList]

/-- From an environment outwards there is one environment for each of the scopes, with the names of the
scope as its first ones, and then the global environment. -/
def Mirrors (s : Environments α) : Names → EnvId → Prop
  | [], e => e = .global
  | names :: outer, e => ∃ env up, s.all[e]? = some env ∧ names <+: env.names ∧
      env.enclosing = some up ∧ s.Mirrors outer up

end Environments

/-- The environments by what they are nested in and their names, the slot that each cell stands for,
and the programs that functions come from. -/
structure World where
  outline : List (Option EnvId × List String)
  places : List (EnvId × Nat)
  programs : List Program

namespace World

/-- The environment so many links up. -/
def up? (W : World) (e : EnvId) : Nat → Option EnvId
  | 0 => some e
  | distance + 1 => (W.outline[e]?.bind (·.1)).bind (W.up? · distance)

theorem ancestor?_eq {α : Type} {s : Environments α} {W : World} (h : s.outline = W.outline)
    (e : EnvId) (distance : Nat) : s.ancestor? e distance = W.up? e distance := by
  induction distance generalizing e with
  | zero => rfl
  | succ distance ih =>
    have link : s.all[e]?.bind (·.enclosing) = W.outline[e]?.bind (·.1) := by
      rw [← h, s.outline_get]
      cases s.all[e]? <;> rfl
    rw [Environments.ancestor?, up?, link]
    congr 1
    funext e
    exact ih e

/-- Nothing goes away. -/
structure Extends (W V : World) : Prop where
  outline : ∀ {e : EnvId} {link : Option EnvId} {names : List String}, W.outline[e]? = some (link, names) →
    ∃ more, V.outline[e]? = some (link, names ++ more)
  places : W.places <+: V.places
  programs : W.programs ⊆ V.programs

namespace Extends

variable {U V W : World}

theorem refl (W : World) : W.Extends W :=
  ⟨fun h => ⟨[], by rw [List.append_nil, h]⟩, List.prefix_rfl, List.Subset.refl _⟩

theorem trans (h : U.Extends V) (h' : V.Extends W) : U.Extends W where
  outline he := by
    obtain ⟨more, hm⟩ := h.outline he
    obtain ⟨further, hf⟩ := h'.outline hm
    exact ⟨more ++ further, by rw [hf, List.append_assoc]⟩
  places := h.places.trans h'.places
  programs := List.Subset.trans h.programs h'.programs

theorem place (h : W.Extends V) {cell : Cell} {place : EnvId × Nat}
    (hc : W.places[cell]? = some place) : V.places[cell]? = some place := by
  obtain ⟨more, hm⟩ := h.places
  rw [← hm, List.getElem?_append_left (List.getElem?_eq_some_iff.mp hc).1, hc]

end Extends

/-- What a run does to a world: there are no new programs. -/
structure Grows (W V : World) : Prop extends W.Extends V where
  same : V.programs = W.programs

namespace Grows

variable {U V W : World}

theorem refl (W : World) : W.Grows W := ⟨.refl W, rfl⟩

theorem trans (h : U.Grows V) (h' : V.Grows W) : U.Grows W :=
  ⟨h.toExtends.trans h'.toExtends, h'.same.trans h.same⟩

end Grows

/-- Under these names, in this environment, and where this list is seen. The three are built together:
by opening a scope and by declaring a name in the innermost one. -/
inductive Chain (W : World) : Names → EnvId → Locals → Prop
  | top : Chain W [] .global []
  | opened {Γ : Names} {e up : EnvId} {all : List String} {locals : Locals}
      (he : W.outline[e]? = some (some up, all)) (h : Chain W Γ up locals) : Chain W ([] :: Γ) e locals
  | declared {names : List String} {Γ : Names} {e : EnvId} {locals : Locals} {name : String}
      {link : Option EnvId} {all : List String} {cell : Cell}
      (h : Chain W (names :: Γ) e locals) (he : W.outline[e]? = some (link, all))
      (hn : all[names.length]? = some name) (hc : W.places[cell]? = some (e, names.length))
      (fresh : name ∉ names) : Chain W ((names ++ [name]) :: Γ) e ((name, cell) :: locals)

/-- From the environment the binding leads to a variable of that name, for which the cell stands. -/
def Finds (W : World) (e : EnvId) (name : String) (b : Binding) (cell : Cell) : Prop :=
  ∃ up link names, W.up? e b.distance = some up ∧ W.places[cell]? = some (up, b.slot) ∧
    W.outline[up]? = some (link, names) ∧ names[b.slot]? = some name

namespace Chain

variable {W V : World} {Γ : Names} {e : EnvId} {locals : Locals}

theorem extend (h : W.Chain Γ e locals) (hw : W.Extends V) : V.Chain Γ e locals := by
  induction h with
  | top => exact .top
  | opened he h ih =>
    obtain ⟨more, hm⟩ := hw.outline he
    exact .opened hm ih
  | declared h he hn hc fresh ih =>
    obtain ⟨more, hm⟩ := hw.outline he
    refine .declared ih hm ?_ (hw.place hc) fresh
    rw [List.getElem?_append_left (List.getElem?_eq_some_iff.mp hn).1, hn]

/-- Where scoping finds a binding for a name the list has a cell for it, and both lead to the same
variable; where it finds none, there is none in the list. -/
theorem lookup (h : W.Chain Γ e locals) (x : String) :
    match Γ.binding? x with
    | none => locals.lookup x = none
    | some b => ∃ cell, locals.lookup x = some cell ∧ W.Finds e x b cell := by
  induction h with
  | top => rfl
  | @opened Γ e outer all locals he h ih =>
    have step (distance : Nat) : W.up? e (distance + 1) = W.up? outer distance := by
      rw [up?, he]
      rfl
    rw [Names.binding?, List.findIdx?_nil]
    cases hb : Γ.binding? x with
    | none =>
      rw [hb] at ih
      exact ih
    | some b =>
      rw [hb] at ih
      obtain ⟨cell, hl, up, link, names, hu, hf⟩ := ih
      exact ⟨cell, hl, up, link, names, (step _).trans hu, hf⟩
  | @declared names Γ e locals name link all cell h he hn hc fresh ih =>
    by_cases hx : x = name
    · subst hx
      have hi : (names ++ [x]).findIdx? (· == x) = some names.length := by
        rw [List.findIdx?_append, List.findIdx?_eq_none_iff.mpr fun y hy => by
          simpa using fun he : y = x => fresh (he ▸ hy)]
        simp
      rw [Names.binding?, hi]
      refine ⟨cell, ?_, e, link, all, rfl, hc, he, hn⟩
      rw [List.lookup_cons, beq_self_eq_true]
    · have hb := Names.binding?_declare_of_ne hx (names :: Γ)
      rw [Names.declare_cons_of_fresh fresh] at hb
      have hl : ((name, cell) :: locals).lookup x = locals.lookup x := by
        rw [List.lookup_cons, beq_eq_false_iff_ne.mpr hx]
      rw [hb, hl]
      exact ih

/-- The chain as it is to be seen in the environments. -/
theorem mirrors {α : Type} {s : Environments α} (h : W.Chain Γ e locals)
    (hs : s.outline = W.outline) : s.Mirrors Γ e := by
  have entry {e : EnvId} {link : Option EnvId} {names : List String}
      (he : W.outline[e]? = some (link, names)) :
      ∃ env, s.all[e]? = some env ∧ env.enclosing = link ∧ env.names = names := by
    rw [← hs, s.outline_get] at he
    obtain ⟨env, hv, hp⟩ := Option.map_eq_some_iff.mp he
    exact ⟨env, hv, congrArg Prod.fst hp, congrArg Prod.snd hp⟩
  induction h with
  | top => rfl
  | opened he h ih =>
    obtain ⟨env, hv, hl, hn⟩ := entry he
    exact ⟨env, _, hv, List.nil_prefix, hl, ih⟩
  | declared h he hn hc fresh ih =>
    obtain ⟨env, up, hv, hp, hl, hm⟩ := ih
    obtain ⟨env', hv', _, he'⟩ := entry he
    obtain rfl : env = env' := Option.some.inj (hv.symm.trans hv')
    refine ⟨env, up, hv, ?_, hl, hm⟩
    rw [he'] at hp ⊢
    obtain ⟨more, rfl⟩ := hp
    cases more with
    | nil => simp at hn
    | cons next more =>
      obtain rfl : next = _ := by simpa using hn
      exact ⟨more, by rw [List.append_assoc, List.singleton_append]⟩

end Chain

end World

end Lox
