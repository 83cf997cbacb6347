import Lox.Proofs.Lexical.Agreement

/-!
The smallest steps of the evaluator agree with those of lexical scoping. A phrase stands in a program
without faults; the chain of environments mirrors the names that scoping has declared there, and the
bindings are those that scoping has found.
-/

namespace Lox

open Lexical (Cell Locals Scope)

/-- Programs without faults, with bindings as scoping has found them. -/
structure Setting where
  programs : List Program
  site : RefId → Option Binding
  faultless : ∀ p ∈ programs, Faultless p
  bound : ∀ p ∈ programs, ∀ r ∈ (resolve p).references, site r.id = r.binding

namespace World

/-- The environment has the names of the innermost scope and no others. -/
def Exact (W : World) (e : EnvId) : Names → Prop
  | [] => True
  | names :: _ => ∃ link, W.outline[e]? = some (link, names)

/-- What is to be seen from a place between statements. Only there the next declaration gets the slot
that scoping has counted, and outside of all blocks none. -/
structure Seen (W : World) (Γ : Names) (e : EnvId) (scope : Scope) : Prop where
  chain : W.Chain Γ e scope.locals
  exact : W.Exact e Γ
  outside : scope = none ↔ Γ = []

end World

namespace Setting

/-- A phrase of the program is about to run under these names. -/
structure Before (S : Setting) (W : World) (p : Program) (Γ : Names) (m : Machine RefId)
    (s : Lexical.Store RefId) (locals : Locals) : Prop where
  sees : W.Sees m s
  programs : W.programs = S.programs
  member : p ∈ S.programs
  chain : W.Chain Γ m.scope locals

end Setting

namespace World

variable {own : Option EnvId} {W V : World} {m m' : Machine RefId} {s s' : Lexical.Store RefId}
  {S : Setting} {p : Program} {Γ : Names} {locals : Locals} {e : EnvId}

theorem Later.exact (h : Later none W m V m' s') (he : W.Exact e Γ) : V.Exact e Γ := by
  cases Γ with
  | nil => trivial
  | cons names Γ =>
    obtain ⟨link, hl⟩ := he
    exact ⟨link, h.kept (fun he => nomatch he) hl⟩

theorem Later.seen {scope : Scope} (h : Later none W m V m' s') (hs : W.Seen Γ e scope) :
    V.Seen Γ e scope :=
  ⟨hs.chain.extend h.extension, h.exact hs.exact, hs.outside⟩

theorem Later.before (h : Later own W m V m' s') (hb : S.Before W p Γ m s locals) :
    S.Before V p Γ m' s' locals :=
  ⟨h.sees, h.grows.same.trans hb.programs, hb.member, h.chain hb.chain⟩

/-- An environment with a scope of its own is not the global one. -/
theorem Sees.ne_global {names : List String} (h : W.Sees m s)
    (hc : W.Chain (names :: Γ) e locals) : e ≠ .global := by
  rintro rfl
  obtain ⟨env, up, he, _, hl, _⟩ := hc.mirrors h.outline
  obtain ⟨global, hg, top, _⟩ := h.globals
  obtain rfl : env = global := Option.some.inj (he.symm.trans hg)
  rw [hl] at top
  cases top

end World

namespace Setting.Before

variable {S : Setting} {W : World} {p : Program} {Γ : Names} {m : Machine RefId}
  {s : Lexical.Store RefId} {locals : Locals} (hb : S.Before W p Γ m s locals)

include hb

theorem faultless : Faultless p := S.faultless p hb.member

theorem site_eq {id : RefId} {b : Option Binding} (h : ⟨id, b⟩ ∈ (resolve p).references) :
    S.site id = b := S.bound p hb.member _ h

/-- What scoping binds is there. -/
theorem held {name : String} {b : Binding} (h : Γ.binding? name = some b) :
    ∃ cell e v v', locals.lookup name = some cell ∧ W.Held m s name b cell e v v' := by
  have found := hb.chain.lookup name
  rw [h] at found
  obtain ⟨cell, hl, hf⟩ := found
  obtain ⟨e, v, v', held⟩ := hb.sees.find hf
  exact ⟨cell, e, v, v', hl, held⟩

theorem lookup_none {name : String} (h : Γ.binding? name = none) : locals.lookup name = none := by
  have found := hb.chain.lookup name
  rw [h] at found
  exact found

end Setting.Before

namespace World

variable {own : Option EnvId} {W V : World} {m m' : Machine RefId} {s s' : Lexical.Store RefId}
  {S : Setting} {p : Program} {Γ : Names} {locals : Locals} {e : EnvId}

/-! Variables. -/

/-- The same is known of a variable on both sides. -/
inductive Lookups (W : World) : Lookup (Value RefId EnvId) → Lookup (Value RefId Locals) → Prop
  | missing : Lookups W .missing .missing
  | unassigned : Lookups W .unassigned .unassigned
  | found {v v'} (h : W.Values v v') : Lookups W (.found v) (.found v')

theorem Sees.slot? (h : W.Sees m s) (name : String) :
    s.globals.slot? name = m.environments.slot? .global name := by
  obtain ⟨env, he, hl, hs⟩ := h.globals
  rw [Environments.slot?, he]
  exact Entries.slot?_eq hs name

theorem Sees.getSlot (h : W.Sees m s) (slot : Nat) :
    W.Lookups (m.environments.getSlot .global slot) (s.globals.getSlot slot) := by
  obtain ⟨env, he, hl, hs⟩ := h.globals
  have entries := hs.rel_getElem? slot
  rw [Environments.getSlot, he]
  simp only [Option.map_some, Option.getD_some, Environment.getSlot]
  generalize env.entries[slot]? = x, s.globals.entries[slot]? = y at entries
  cases entries with
  | none => exact .missing
  | @some x y hx =>
    obtain ⟨name, v⟩ := x
    obtain ⟨name', v'⟩ := y
    obtain ⟨_, hv⟩ := hx
    cases hv with
    | none => exact .unassigned
    | some hv => exact .found hv

section Variables

variable (hb : S.Before W p Γ m s locals)

include hb

theorem read_agrees {id : RefId} {name : Lexeme} (hi : S.site id = Γ.binding? name.text) :
    Agrees own W m s Values (Run.read (S.site id) name) (Run.read (S.site id) name)
      (Lexical.read locals name) := by
  rw [hi]
  apply Agrees.get
  cases h : Γ.binding? name.text with
  | some b =>
    obtain ⟨cell, e, v, v', hl, held⟩ := hb.held h
    simp only [held.place?, held.getSlot, hl, held.value? hl]
    cases held.values with
    | some hv => exact .pure hb.sees hv
    | none => exact .raise hb.sees _ _
  | none =>
    simp only [hb.lookup_none h, Machine.place?, Environment.get, hb.sees.slot?]
    cases m.environments.slot? .global name.text with
    | none => exact .raise hb.sees _ _
    | some slot =>
      have known := hb.sees.getSlot slot
      simp only [Option.map_some]
      generalize m.environments.getSlot .global slot = x, s.globals.getSlot slot = y at known
      cases known with
      | found hv => exact .pure hb.sees hv
      | missing | unassigned => exact .raise hb.sees _ _

theorem assign_agrees {id : RefId} {name : Lexeme} (hi : S.site id = Γ.binding? name.text)
    (ordinary : name.Ordinary) {v : Value RefId EnvId} {v' : Value RefId Locals}
    (hv : W.Values v v') :
    Agrees own W m s (fun _ _ _ => True) (Run.assign (S.site id) name v)
      (Run.assign (S.site id) name v) (Lexical.assign locals name v') := by
  rw [hi]
  apply Agrees.getLeft
  unfold Lexical.assign
  cases h : Γ.binding? name.text with
  | some b =>
    obtain ⟨cell, e, w, w', hl, held⟩ := hb.held h
    simp only [held.place?, hl]
    exact .step rfl rfl (.same (held.put hb.sees hv (special_of_ordinary ordinary _)) rfl) trivial
  | none =>
    simp only [hb.lookup_none h, Machine.place?]
    apply Agrees.getRight
    rw [hb.sees.slot?]
    cases m.environments.slot? .global name.text with
    | none => exact .raise hb.sees _ _
    | some slot => exact .step rfl rfl (.same (hb.sees.putGlobal slot hv) rfl) trivial

end Variables

/-! Declarations. -/

theorem Later.define {names : List String} {name : String} (hs : W.Sees m s)
    (seen : W.Seen (names :: Γ) e (some locals)) (fresh : name ∉ names)
    {v : Option (Value RefId EnvId)} {v' : Option (Value RefId Locals)}
    (hv : Option.Rel W.Values v v') (special : Special name v) :
    Later (some e) W m ((W.declared e name).placed (e, names.length))
      { m with environments := m.environments.define e name v } { s with cells := s.cells.push v' } := by
  obtain ⟨link, he⟩ := seen.exact
  have grows := (W.grows_declared e name).trans (grows_placed _ (e, names.length))
  refine ⟨grows, hs.declare he (hs.ne_global seen.chain) fresh hv special, rfl, fun {i x} hi hx => ?_⟩
  have other : e ≠ i := fun h => hi (h ▸ rfl)
  simp only [placed, declared, List.getElem?_modify, if_neg other, hx]
  rfl

theorem Seen.declared {names : List String} {name : String} (hs : W.Sees m s)
    (seen : W.Seen (names :: Γ) e (some locals)) (fresh : name ∉ names) :
    ((W.declared e name).placed (e, names.length)).Seen ((names ++ [name]) :: Γ) e
      (some ((name, s.cells.size) :: locals)) := by
  obtain ⟨link, he⟩ := seen.exact
  have grows := (W.grows_declared e name).trans (grows_placed _ (e, names.length))
  have outline : ((W.declared e name).placed (e, names.length)).outline[e]? =
      some (link, names ++ [name]) := by
    simp [placed, World.declared, he, Environments.withName, fresh]
  have place : ((W.declared e name).placed (e, names.length)).places[s.cells.size]? =
      some (e, names.length) := by
    rw [placed, hs.cells]
    exact List.getElem?_concat_length
  exact ⟨.declared (seen.chain.extend grows.toExtends) outline List.getElem?_concat_length place fresh,
    ⟨link, outline⟩, by simp⟩

/-- A name that is new to the innermost scope gets the next slot and a new cell. -/
theorem define_agrees {names : List String} {name : String} (hs : W.Sees m s)
    (seen : W.Seen (names :: Γ) e (some locals)) (fresh : name ∉ names)
    {v : Option (Value RefId EnvId)} {v' : Option (Value RefId Locals)}
    (hv : Option.Rel W.Values v v') (special : Special name v) :
    Agrees (some e) W m s
      (fun V _ cell => V.Seen ((names ++ [name]) :: Γ) e (some ((name, cell) :: locals)))
      (Run.define e name v) (Run.define e name v) (Lexical.newCell v') :=
  .step rfl rfl (.define hs seen fresh hv special) (seen.declared hs fresh)

theorem Later.defineGlobal (hs : W.Sees m s) (name : String) {v : Option (Value RefId EnvId)}
    {v' : Option (Value RefId Locals)} (hv : Option.Rel W.Values v v') :
    Later (some .global) W m (W.declared .global name)
      { m with environments := m.environments.define .global name v }
      { s with globals := s.globals.define name v' } := by
  refine ⟨W.grows_declared .global name, hs.defineGlobal name hv, rfl, fun {i x} hi hx => ?_⟩
  have other : EnvId.global ≠ i := fun h => hi (h ▸ rfl)
  simp only [declared, List.getElem?_modify, if_neg other, hx]
  rfl

/-- The parameters of a routine get its arguments, one after another. -/
theorem params_agree {params : List Lexeme} {vs : List (Value RefId EnvId)}
    {vs' : List (Value RefId Locals)} (hs : W.Sees m s) {names : List String}
    (seen : W.Seen (names :: Γ) e (some locals)) (fresh : Names.FreshAll (names :: Γ) params)
    (ordinary : ∀ name ∈ params, name.Ordinary) (hv : List.Forall₂ W.Values vs vs')
    (length : vs.length = params.length) :
    Agrees (some e) W m s
      (fun V _ locals => V.Seen (Names.declareAll params (names :: Γ)) e (some locals))
      (defineAll e params vs) (defineAll e params vs) (Lexical.push locals params vs') := by
  induction params generalizing vs vs' W m s names locals with
  | nil =>
    obtain rfl := List.length_eq_zero_iff.mp length
    cases hv
    exact .pure hs seen
  | cons name params ih =>
    cases hv with
    | nil => cases length
    | @cons v v' vs vs' hv hvs =>
      have new : name.text ∉ names := fresh.1
      refine (define_agrees hs seen new (.some hv)
        (special_of_ordinary (ordinary _ List.mem_cons_self) _)).bind fun later seen => ?_
      have declared : Names.declare name.text (names :: Γ) = (names ++ [name.text]) :: Γ :=
        Names.declare_cons_of_fresh new
      have rest := ih later.sees seen (declared ▸ fresh.2)
        (fun x hx => ordinary x (List.mem_cons_of_mem _ hx))
        (hvs.imp fun _ _ h => h.extend later.extension) (Nat.succ.inj length)
      rw [← declared] at rest
      exact rest

/-! Objects and the surroundings. -/

theorem newObject_agrees (hs : W.Sees m s) :
    Agrees own W m s (fun _ id id' => id' = id) Run.newObject Run.newObject Lexical.newObject :=
  .step rfl rfl (.same hs.newObject rfl) hs.size_objects

theorem setField_agrees (hs : W.Sees m s) (id : ObjectId) (name : String) {v : Value RefId EnvId}
    {v' : Value RefId Locals} (hv : W.Values v v') :
    Agrees own W m s (fun _ _ _ => True) (Run.setField id name v) (Run.setField id name v)
      (Lexical.setField id name v') :=
  .step rfl rfl (.same (hs.setField id name hv) rfl) trivial

theorem write_agrees (hs : W.Sees m s) (text : String) :
    Agrees own W m s (fun _ _ _ => True) (Run.write text) (Run.write text) (Lexical.write text) := by
  refine ⟨rfl, ?_⟩
  obtain ⟨environments, scope, objects, ⟨console, files, clock, explored⟩⟩ := m
  obtain ⟨globals, cells, objects', host⟩ := s
  obtain rfl : host = ⟨console, files, clock, explored⟩ := hs.host
  simp only [Run.write, Lexical.write]
  rcases console.write (Text.Utf8.encode text) with ⟨written, console⟩
  have later {console : Console} := hs.setHost ⟨console, files, clock, explored⟩
  cases written with
  | true => exact .ok (.same later rfl) trivial
  | false => exact .error _ (.same later rfl)

theorem flush_agrees (hs : W.Sees m s) :
    Agrees own W m s (fun _ _ _ => True) Run.flush Run.flush Lexical.flush := by
  refine Agrees.get ?_
  rw [hs.host]
  split
  · exact .throw hs _
  · exact .pure hs trivial

theorem native_agrees (hs : W.Sees m s) (n : Native) {vs : List (Value RefId EnvId)}
    {vs' : List (Value RefId Locals)} (hv : List.Forall₂ W.Values vs vs') (h : vs.length = n.arity)
    (h' : vs'.length = n.arity) :
    Agrees own W m s Values (Run.native n vs h) (Run.native n vs h) (Lexical.native n vs' h') := by
  refine ⟨rfl, ?_⟩
  obtain ⟨environments, scope, objects, host⟩ := m
  obtain ⟨globals, cells, objects', host'⟩ := s
  obtain rfl : host' = host := hs.host
  obtain ⟨w, hw, hw'⟩ := n.run_alike (Values.map_bare hv).symm h h'
  simp only [Run.native, Lexical.native, hw, hw', Functor.map, EStateM.map]
  cases w host' with
  | ok v host => exact .ok (.same (hs.setHost host) rfl) (.ofBare v)
  | error fault host => exact .error _ (.same (hs.setHost host) rfl)

end World

end Lox
