import Lox.Proofs.Lexical.Memory
import Lox.Proofs.Marked.Evaluator
import Lox.Proofs.Scoping.Cleared

/-!
What two machines have in common. An outline says which environments there are, with the names in them
and the marked ones among these; it only grows. Both machines have these environments, and the same in
all variables without marks. Every routine in there sees, through its chain of environments, names under
which nothing is read in the places that are marked.
-/

section Related

variable {α β : Type} {R : α → β → Prop} {xs : List α} {ys : List β}

/-- A change in one place, which may depend on what is there. -/
theorem List.Forall₂.modifyAt (h : List.Forall₂ R xs ys) (i : Nat) {f : α → α} {g : β → β}
    (hf : ∀ x y, xs[i]? = some x → ys[i]? = some y → R x y → R (f x) (g y)) :
    List.Forall₂ R (xs.modify i f) (ys.modify i g) := by
  induction h generalizing i with
  | nil =>
    rw [List.modify_nil, List.modify_nil]
    exact .nil
  | cons hx ht ih =>
    cases i with
    | zero => exact .cons (hf _ _ rfl rfl hx) ht
    | succ i => exact .cons hx (ih i hf)

end Related

namespace Lox

open Scoping

namespace Environments

variable {α β : Type} {s : Environments α} {t : Environments β}

/-- Where a name is, and what lies around it, can be told from the outline alone. -/
theorem ancestor?_of_outline (h : s.outline = t.outline) (e : EnvId) (distance : Nat) :
    s.ancestor? e distance = t.ancestor? e distance := by
  rw [World.ancestor?_eq (W := ⟨t.outline, [], []⟩) h, World.ancestor?_eq (W := ⟨t.outline, [], []⟩) rfl]

theorem slot?_of_outline (h : s.outline = t.outline) (e : EnvId) (name : String) :
    s.slot? e name = t.slot? e name := by
  have known {γ : Type} (s : Environments γ) :
      s.slot? e name = s.outline[e]?.bind (·.2.findIdx? (· == name)) := by
    rw [slot?, outline_get]
    cases s.all[e]? with
    | none => rfl
    | some env => exact env.slot?_names name
  rw [known, known, h]

theorem hasSlot_of_outline (h : s.outline = t.outline) (e : EnvId) (slot : Nat) :
    s.hasSlot e slot = t.hasSlot e slot := by
  have known {γ : Type} (s : Environments γ) :
      s.hasSlot e slot = s.outline[e]?.any (decide <| slot < ·.2.length) := by
    rw [hasSlot, outline_get]
    cases s.all[e]? with
    | none => rfl
    | some env => simp [Environment.hasSlot, Environment.names]
  rw [known, known, h]

theorem slotFor_of_outline (h : s.outline = t.outline) (e : EnvId) (name : String) :
    s.slotFor e name = t.slotFor e name := by
  have known {γ : Type} (s : Environments γ) : s.slotFor e name =
      (s.outline[e]?.map fun x => (x.2.findIdx? (· == name)).getD x.2.length).getD 0 := by
    rw [slotFor, outline_get]
    cases s.all[e]? with
    | none => rfl
    | some env => simp [Environment.slotFor, env.slot?_names name, Environment.names]
  rw [known, known, h]

theorem fresh_of_outline (h : s.outline = t.outline) : s.fresh = t.fresh := by
  have known {γ : Type} (s : Environments γ) : s.fresh = s.outline.length := by
    rw [outline, List.length_map, Array.length_toList, fresh]
  rw [known, known, h]

end Environments

namespace Marked

/-- An environment: what it is nested in, its names, and those that are marked. -/
structure Place where
  enclosing : Option EnvId
  names : List String
  marks : List String

abbrev Outline := List Place

namespace Outline

variable {O P Q : Outline}

def links (O : Outline) : List (Option EnvId × List String) := O.map fun x => (x.enclosing, x.names)

def marksAt (O : Outline) (e : EnvId) : List String := (O[e]?.map Place.marks).getD []

theorem links_get (O : Outline) (e : EnvId) : O.links[e]? = O[e]?.map fun x => (x.enclosing, x.names) :=
  List.getElem?_map

theorem marksAt_eq {e : EnvId} {x : Place} (h : O[e]? = some x) : O.marksAt e = x.marks := by
  rw [marksAt, h]
  rfl

/-- There are more environments and names; the marks stay. -/
structure Extends (O P : Outline) : Prop where
  place : ∀ {e : EnvId} {x : Place}, O[e]? = some x →
    ∃ more, P[e]? = some { x with names := x.names ++ more }

theorem Extends.refl (O : Outline) : O.Extends O := ⟨fun h => ⟨[], by rw [List.append_nil, h]⟩⟩

theorem Extends.trans (h : O.Extends P) (h' : P.Extends Q) : O.Extends Q := by
  refine ⟨fun hx => ?_⟩
  obtain ⟨more, hm⟩ := h.place hx
  obtain ⟨further, hf⟩ := h'.place hm
  exact ⟨more ++ further, by rw [hf, List.append_assoc]⟩

/-- From the environment outwards, one for each of the scopes and then the global one. The names of the
scope are its first ones. -/
inductive Chain (O : Outline) : Names → Marks → EnvId → Prop
  | top : Chain O [] [] .global
  | inner {names all : List String} {Γ : Names} {marks : List String} {Δ : Marks} {e up : EnvId}
      (he : O[e]? = some ⟨some up, all, marks⟩) (hn : names <+: all) (h : Chain O Γ Δ up) :
      Chain O (names :: Γ) (marks :: Δ) e

namespace Chain

variable {Γ : Names} {Δ : Marks} {e : EnvId}

theorem extend (h : O.Chain Γ Δ e) (hO : O.Extends P) : P.Chain Γ Δ e := by
  induction h with
  | top => exact .top
  | inner he hn _ ih =>
    obtain ⟨more, hm⟩ := hO.place he
    exact .inner hm (hn.trans (List.prefix_append _ _)) ih

theorem global (h : O.Chain [] Δ e) : e = .global := by
  cases h
  rfl

/-- What scoping finds for a name leads to an environment that has the name there. -/
theorem finds {α : Type} {s : Environments α} (h : O.Chain Γ Δ e) (hs : s.outline = O.links)
    {name : String} {b : Binding} (hb : Γ.binding? name = some b) :
    ∃ up x, s.ancestor? e b.distance = some up ∧ O[up]? = some x ∧ x.names[b.slot]? = some name ∧
      x.marks = Δ.at b.distance := by
  induction h generalizing b with
  | top => cases hb
  | @inner names all Γ marks Δ e up he hn h ih =>
    rw [Names.binding?] at hb
    cases hi : names.findIdx? (· == name) with
    | some slot =>
      simp only [hi] at hb
      cases hb
      obtain ⟨hl, hx, -⟩ := List.findIdx?_eq_some_iff_getElem.mp hi
      obtain ⟨more, rfl⟩ := hn
      refine ⟨e, _, rfl, he, ?_, rfl⟩
      rw [List.getElem?_append_left hl, List.getElem?_eq_getElem hl, beq_iff_eq.mp hx]
    | none =>
      simp only [hi] at hb
      obtain ⟨outer, ho, rfl⟩ := Option.map_eq_some_iff.mp hb
      obtain ⟨top, x, ha, hx, rest⟩ := ih ho
      have link : s.all[e]?.bind (·.enclosing) = some up := by
        have entry := s.outline_get e
        rw [hs, links_get, he, Option.map_some] at entry
        obtain ⟨env, hv, hp⟩ := Option.map_eq_some_iff.mp entry.symm
        rw [hv, Option.bind_some]
        exact congrArg Prod.fst hp
      refine ⟨top, x, ?_, hx, rest⟩
      rw [Environments.ancestor?, link, Option.bind_some]
      exact ha

end Chain

/-- A method is written inside of the scope of `this`, which its receiver makes later. -/
def Beneath (O : Outline) (Γ : Names) (Δ : Marks) (e : EnvId) : Prop :=
  ∃ Γ' Δ', Γ = ["this"] :: Γ' ∧ Δ = [] :: Δ' ∧ O.Chain Γ' Δ' e

theorem Beneath.extend {Γ : Names} {Δ : Marks} {e : EnvId} (h : O.Beneath Γ Δ e)
    (hO : O.Extends P) : P.Beneath Γ Δ e := by
  obtain ⟨Γ', Δ', hΓ, hΔ, chain⟩ := h
  exact ⟨Γ', Δ', hΓ, hΔ, chain.extend hO⟩

/-- What the slot holds is not marked. -/
def Spares (O : Outline) (e : EnvId) (slot : Nat) : Prop :=
  ∀ {x : Place} {name : String}, O[e]? = some x → x.names[slot]? = some name → name ∉ x.marks

theorem spares_of_free {e : EnvId} (h : O.marksAt e = []) (slot : Nat) : O.Spares e slot := by
  intro x name hx _
  rw [marksAt_eq hx] at h
  exact h ▸ List.not_mem_nil

end Outline

/-! Values. -/

/-- The routine comes from a program. Under the names that it sees, nothing is read in places that are
marked. -/
def Stems (ps : List Program) (seen : Names → Marks → EnvId → Prop) (initializer : Bool)
    (k : Closure RefId EnvId) : Prop :=
  ∃ p ∈ ps, ∃ c s kind Δ, seen s.names Δ k.scope ∧ Cleared p Δ ⟨c, s, .routine kind k.routine⟩ ∧
    (initializer → ∃ Γ' Δ', s.names = ["this"] :: Γ' ∧ Δ = [] :: Δ')

theorem Stems.imp {ps qs : List Program} {seen seen' : Names → Marks → EnvId → Prop}
    {initializer : Bool} {k : Closure RefId EnvId} (h : Stems ps seen initializer k) (hp : ps ⊆ qs)
    (hs : ∀ {Γ Δ e}, seen Γ Δ e → seen' Γ Δ e) : Stems qs seen' initializer k := by
  obtain ⟨p, member, c, s, kind, Δ, chain, rest⟩ := h
  exact ⟨p, hp member, c, s, kind, Δ, hs chain, rest⟩

namespace Outline

variable {ps qs : List Program} {O P : Outline}

/-- A method as a class has it, without a receiver. -/
def Method (ps : List Program) (O : Outline) (f : Function RefId EnvId) : Prop :=
  Stems ps O.Beneath f.initializer f.closure

inductive Classes (ps : List Program) (O : Outline) : Class RefId EnvId → Prop
  | base (id : ObjectId) (name : String) {ms cs : List (Function RefId EnvId)}
      (hm : ∀ f ∈ ms, O.Method ps f) (hc : ∀ f ∈ cs, O.Method ps f) : Classes ps O ⟨id, name, none, ms, cs⟩
  | derived (id : ObjectId) (name : String) {parent : Class RefId EnvId}
      {ms cs : List (Function RefId EnvId)} (hp : Classes ps O parent) (hm : ∀ f ∈ ms, O.Method ps f)
      (hc : ∀ f ∈ cs, O.Method ps f) : Classes ps O ⟨id, name, some parent, ms, cs⟩

/-- All routines in the value do. -/
def Good (ps : List Program) (O : Outline) : Value RefId EnvId → Prop
  | .function _ f => Stems ps O.Chain f.initializer f.closure
  | .lambda _ _ k => Stems ps O.Chain false k
  | .class c | .instance _ c => O.Classes ps c
  | _ => True

theorem Classes.extend {c : Class RefId EnvId} (h : O.Classes ps c) (hp : ps ⊆ qs)
    (hO : O.Extends P) : P.Classes qs c := by
  have method {f : Function RefId EnvId} (h : O.Method ps f) : P.Method qs f :=
    Stems.imp h hp fun chain => chain.extend hO
  induction h with
  | base id name hm hc => exact .base id name (fun f hf => method (hm f hf)) fun f hf => method (hc f hf)
  | derived id name _ hm hc ih =>
    exact .derived id name ih (fun f hf => method (hm f hf)) fun f hf => method (hc f hf)

theorem Good.extend {v : Value RefId EnvId} (h : O.Good ps v) (hp : ps ⊆ qs) (hO : O.Extends P) :
    P.Good qs v := by
  cases v with
  | function | lambda => exact Stems.imp h hp fun chain => chain.extend hO
  | «class» | «instance» => exact Classes.extend h hp hO
  | _ => trivial

theorem Good.later {v : Value RefId EnvId} (h : O.Good ps v) (hO : O.Extends P) : P.Good ps v :=
  h.extend (List.Subset.refl ps) hO

theorem Classes.of (id : ObjectId) (name : String) {parent : Option (Class RefId EnvId)}
    {ms cs : List (Function RefId EnvId)} (hp : ∀ c, parent = some c → O.Classes ps c)
    (hm : ∀ f ∈ ms, O.Method ps f) (hc : ∀ f ∈ cs, O.Method ps f) :
    O.Classes ps ⟨id, name, parent, ms, cs⟩ := by
  cases parent with
  | none => exact .base id name hm hc
  | some c => exact .derived id name (hp c rfl) hm hc

theorem Classes.findMethod? {c : Class RefId EnvId} (h : O.Classes ps c) (name : String)
    {f : Function RefId EnvId} (hf : c.findMethod? name = some f) : O.Method ps f := by
  induction h with
  | base id n hm hc => exact hm f (List.mem_of_find?_eq_some hf)
  | derived id n hp hm hc ih =>
    rw [Class.findMethod?, Option.orElse_eq_orElse, Option.orElse_eq_or] at hf
    obtain hf | ⟨-, hf⟩ := Option.or_eq_some_iff.mp hf
    · exact hm f (List.mem_of_find?_eq_some hf)
    · exact ih hf

theorem Classes.findClassMethod? {c : Class RefId EnvId} (h : O.Classes ps c) (name : String)
    {f : Function RefId EnvId} (hf : c.findClassMethod? name = some f) : O.Method ps f := by
  induction h with
  | base id n hm hc => exact hc f (List.mem_of_find?_eq_some hf)
  | derived id n hp hm hc ih =>
    rw [Class.findClassMethod?, Option.orElse_eq_orElse, Option.orElse_eq_or] at hf
    obtain hf | ⟨-, hf⟩ := Option.or_eq_some_iff.mp hf
    · exact hc f (List.mem_of_find?_eq_some hf)
    · exact ih hf

theorem good_ofLiteral (l : Literal) : O.Good ps (.ofLiteral l) := by
  cases l <;> trivial

theorem good_ofBare (v : Value Unit Unit) : O.Good ps v.ofBare := by
  cases v <;> trivial

end Outline

/-! Memory. -/

/-- The environments of the other machine, and its marks. -/
structure Shade where
  environments : Environments (Value RefId EnvId)
  marks : List (EnvId × List String)

/-- The other machine. All but its environments are those of the first one. -/
def Shade.over (d : Shade) (m : Lox.Machine RefId) : Machine :=
  ⟨{ m with environments := d.environments }, d.marks⟩

variable {ps qs : List Program} {O P : Outline} {m : Lox.Machine RefId} {d : Shade} {e : EnvId}

/-- The same name, and the same value unless the name is marked. -/
def Entry (ps : List Program) (O : Outline) (marks : List String)
    (x y : String × Option (Value RefId EnvId)) : Prop :=
  y.1 = x.1 ∧ (x.1 ∉ marks → y.2 = x.2 ∧ ∀ v, x.2 = some v → O.Good ps v)

/-- Both machines have these environments, and the same in them but for marked variables. -/
structure Sees (ps : List Program) (O : Outline) (m : Lox.Machine RefId) (d : Shade) : Prop where
  outline : m.environments.outline = O.links
  shade : d.environments.outline = O.links
  marks : ∀ e, (d.over m).marksOf e = O.marksAt e
  globals : ∃ names, O[EnvId.global]? = some ⟨none, names, []⟩
  entries : ∀ {e env env'}, m.environments.all[e]? = some env → d.environments.all[e]? = some env' →
    List.Forall₂ (Entry ps O (O.marksAt e)) env.entries env'.entries
  fields : ∀ fs ∈ m.objects, ∀ x ∈ fs, O.Good ps x.2

theorem Entry.extend {marks : List String} {x y : String × Option (Value RefId EnvId)}
    (h : Entry ps O marks x y) (hp : ps ⊆ qs) (hO : O.Extends P) : Entry qs P marks x y :=
  ⟨h.1, fun hn => ⟨(h.2 hn).1, fun v hv => ((h.2 hn).2 v hv).extend hp hO⟩⟩

namespace Sees

theorem same (h : Sees ps O m d) : d.environments.outline = m.environments.outline :=
  h.shade.trans h.outline.symm

theorem mono (h : Sees ps O m d) (hp : ps ⊆ qs) : Sees qs O m d where
  outline := h.outline
  shade := h.shade
  marks := h.marks
  globals := h.globals
  entries he he' := (h.entries he he').imp fun _ _ hx => hx.extend hp (.refl O)
  fields fs hf x hx := (h.fields fs hf x hx).extend hp (.refl O)

/-- Another current environment, or other surroundings. -/
theorem around (h : Sees ps O m d) (scope : EnvId) (host : Host) :
    Sees ps O { m with scope, host } d :=
  ⟨h.outline, h.shade, h.marks, h.globals, h.entries, h.fields⟩

theorem environment (h : Sees ps O m d) {x : Place} (he : O[e]? = some x) :
    ∃ env env', m.environments.all[e]? = some env ∧ d.environments.all[e]? = some env' ∧
      env.names = x.names ∧ env'.names = x.names ∧ List.Forall₂ (Entry ps O x.marks) env.entries env'.entries := by
  have entry := h.outline ▸ m.environments.outline_get e
  have entry' := h.shade ▸ d.environments.outline_get e
  rw [Outline.links_get, he, Option.map_some] at entry entry'
  obtain ⟨env, hv, hp⟩ := Option.map_eq_some_iff.mp entry.symm
  obtain ⟨env', hv', hp'⟩ := Option.map_eq_some_iff.mp entry'.symm
  have entries := h.entries hv hv'
  rw [Outline.marksAt_eq he] at entries
  exact ⟨env, env', hv, hv', congrArg Prod.snd hp, congrArg Prod.snd hp', entries⟩

theorem nameAt? (h : Sees ps O m d) (e : EnvId) (slot : Nat) :
    (d.over m).nameAt? e slot = O[e]?.bind (·.names[slot]?) := by
  have entry := h.shade ▸ d.environments.outline_get e
  rw [Outline.links_get] at entry
  change d.environments.all[e]?.bind _ = _
  cases hO : O[e]? with
  | none =>
    rw [hO, Option.map_none] at entry
    rw [Option.map_eq_none_iff.mp entry.symm]
    rfl
  | some x =>
    rw [hO, Option.map_some] at entry
    obtain ⟨env, hv, hp⟩ := Option.map_eq_some_iff.mp entry.symm
    rw [hv]
    exact congrArg (·[slot]?) (congrArg Prod.snd hp)

/-- A variable without a mark may be read, and is the same on both sides. -/
theorem unmarked (h : Sees ps O m d) {slot : Nat} (hs : O.Spares e slot) :
    (d.over m).isMarked e slot = false ∧
      d.environments.getSlot e slot = m.environments.getSlot e slot ∧
      ∀ v, m.environments.getSlot e slot = .found v → O.Good ps v := by
  have free : (d.over m).isMarked e slot = false := by
    rw [Machine.isMarked, h.nameAt?, h.marks, Option.any_eq_false]
    intro name hn
    obtain ⟨x, hx, hn⟩ := Option.bind_eq_some_iff.mp hn
    rw [Outline.marksAt_eq hx]
    exact decide_eq_false (hs hx hn)
  refine ⟨free, ?_⟩
  cases hO : O[e]? with
  | none =>
    have missing {s : Environments (Value RefId EnvId)} (hs : s.outline = O.links) :
        s.getSlot e slot = .missing := by
      have entry := hs ▸ s.outline_get e
      rw [Outline.links_get, hO, Option.map_none] at entry
      rw [Environments.getSlot, Option.map_eq_none_iff.mp entry.symm]
      rfl
    rw [missing h.outline, missing h.shade]
    exact ⟨rfl, fun _ hv => by cases hv⟩
  | some x =>
    obtain ⟨env, env', he, he', names, -, entries⟩ := h.environment hO
    have at_slot := entries.rel_getElem? slot
    simp only [Environments.getSlot, he, he', Option.map_some, Option.getD_some, Environment.getSlot]
    cases hx : env.entries[slot]? with
    | none =>
      rw [hx] at at_slot
      generalize env'.entries[slot]? = y at at_slot
      cases at_slot
      exact ⟨rfl, fun _ hv => by cases hv⟩
    | some entry =>
      rw [hx] at at_slot
      generalize env'.entries[slot]? = y at at_slot
      obtain ⟨name, a⟩ := entry
      cases at_slot with
      | @some _ y hy =>
        obtain ⟨name', a'⟩ := y
        have known : x.names[slot]? = some name := by
          rw [← names, Environment.names, List.getElem?_map, hx]
          rfl
        obtain ⟨equal, good⟩ := hy.2 (hs hO known)
        obtain rfl : a' = a := equal
        cases a' with
        | none => exact ⟨rfl, fun _ hv => by cases hv⟩
        | some v => exact ⟨rfl, fun w hw => good w (by cases hw; rfl)⟩

end Sees

/-! What the operations on memory leave. -/

namespace Outline

variable {O : Outline}

def nested (O : Outline) (e : EnvId) (marks : List String) : Outline := O ++ [⟨some e, [], marks⟩]

/-- The name is added to an environment, unless it is there. -/
def declared (O : Outline) (e : EnvId) (name : String) : Outline :=
  O.modify e fun x => { x with names := if name ∈ x.names then x.names else x.names ++ [name] }

theorem nested_get (e : EnvId) (marks : List String) (i : EnvId) : (O.nested e marks)[i]? =
    if i = O.length then some ⟨some e, [], marks⟩ else O[i]? := by
  rw [nested, List.getElem?_append]
  rcases Nat.lt_trichotomy i O.length with h | rfl | h
  · rw [if_pos h, if_neg (Nat.ne_of_lt h)]
  · simp
  · rw [if_neg (Nat.not_lt.mpr (Nat.le_of_lt h)), if_neg (Nat.ne_of_gt h),
      List.getElem?_eq_none (Nat.le_of_lt h)]
    exact List.getElem?_eq_none (Nat.sub_pos_of_lt h)

theorem nested_of_some {e i : EnvId} {marks : List String} {x : Place} (h : O[i]? = some x) :
    (O.nested e marks)[i]? = some x := by
  rw [nested_get, if_neg (Nat.ne_of_lt (List.getElem?_eq_some_iff.mp h).1), h]

theorem extends_nested (e : EnvId) (marks : List String) : O.Extends (O.nested e marks) :=
  ⟨fun h => ⟨[], by rw [List.append_nil, nested_of_some h]⟩⟩

theorem extends_declared (e : EnvId) (name : String) : O.Extends (O.declared e name) := by
  refine ⟨fun {i x} h => ?_⟩
  rw [declared, List.getElem?_modify, h]
  by_cases he : e = i
  · by_cases hn : name ∈ x.names
    · exact ⟨[], by simp [he, hn]⟩
    · exact ⟨[name], by simp [he, hn]⟩
  · exact ⟨[], by simp [he]⟩

theorem links_declared (e : EnvId) (name : String) :
    (O.declared e name).links = O.links.modify e (Environments.withName name) := by
  apply List.ext_getElem?
  intro i
  rw [links_get, declared, List.getElem?_modify, List.getElem?_modify, links_get]
  by_cases he : e = i
  · cases O[i]? <;> simp [he, Environments.withName]
  · simp [he]

theorem marksAt_declared (e : EnvId) (name : String) (i : EnvId) :
    (O.declared e name).marksAt i = O.marksAt i := by
  rw [marksAt, declared, List.getElem?_modify, marksAt]
  by_cases he : e = i
  · cases O[i]? <;> simp [he]
  · simp [he]

end Outline

section Entries

variable {marks : List String} {env env' : Environment (Value RefId EnvId)}
  (h : List.Forall₂ (Entry ps O marks) env.entries env'.entries)

include h

theorem names_of_entries : env'.names = env.names := by
  rw [Environment.names, Environment.names]
  generalize env.entries = xs, env'.entries = ys at h
  induction h with
  | nil => rfl
  | cons hx _ ih => rw [List.map_cons, List.map_cons, hx.1, ih]

theorem entries_putSlot {slot : Nat} {v v' : Option (Value RefId EnvId)}
    (hv : ∀ name, env.names[slot]? = some name → Entry ps O marks (name, v) (name, v')) :
    List.Forall₂ (Entry ps O marks) (env.putSlot slot v).entries (env'.putSlot slot v').entries := by
  refine h.modifyAt slot fun x y hx _ hxy => ⟨hxy.1, (hv x.1 ?_).2⟩
  rw [Environment.names, List.getElem?_map, hx, Option.map_some]

theorem entries_define {name : String} {v v' : Option (Value RefId EnvId)}
    (hv : Entry ps O marks (name, v) (name, v')) :
    List.Forall₂ (Entry ps O marks) (env.define name v).entries (env'.define name v').entries := by
  have same : env'.slot? name = env.slot? name := by
    rw [Environment.slot?_names, Environment.slot?_names, names_of_entries h]
  rw [Environment.define, Environment.define, same]
  cases hs : env.slot? name with
  | none => exact h.concat hv
  | some slot =>
    refine entries_putSlot h fun x hx => ?_
    obtain ⟨a, ha⟩ := Environment.exists_of_slot? hs
    rw [Environment.names, List.getElem?_map, ha] at hx
    cases hx
    exact hv

end Entries

namespace Sees

variable (h : Sees ps O m d)

include h

theorem length : m.environments.all.size = O.length := by
  have lengths := congrArg List.length h.outline
  rw [Environments.outline, Outline.links, List.length_map, List.length_map,
    Array.length_toList] at lengths
  exact lengths

/-- A new environment. Either the marks of the machine tell of it, or it has none. -/
theorem nest (e : EnvId) {marks : List String} {listed : List (EnvId × List String)}
    (hm : ∀ i, (listed.lookup i).getD [] =
      if i = O.length then marks else (d.over m).marksOf i) :
    Sees ps (O.nested e marks) { m with environments := m.environments.nest e }
      ⟨d.environments.nest e, listed⟩ := by
  have links : (O.nested e marks).links = O.links ++ [(some e, [])] := by
    rw [Outline.nested, Outline.links, List.map_append]
    rfl
  obtain ⟨names, globals⟩ := h.globals
  refine ⟨?_, ?_, fun i => ?_, ⟨names, Outline.nested_of_some globals⟩, ?_, fun fs hf x hx =>
    (h.fields fs hf x hx).later (Outline.extends_nested e marks)⟩
  · rw [Environments.outline_nest, h.outline, links]
  · rw [Environments.outline_nest, h.shade, links]
  · refine (hm i).trans ?_
    rw [Outline.marksAt, Outline.nested_get, h.marks]
    split <;> rfl
  · intro i env env' he he'
    have fresh : m.environments.fresh = O.length := h.length
    rw [Environments.all_nest, fresh] at he
    rw [Environments.all_nest, Environments.fresh_of_outline h.same, fresh] at he'
    rw [Outline.marksAt, Outline.nested_get]
    by_cases hi : i = O.length
    · rw [if_pos hi] at he he' ⊢
      cases he
      cases he'
      exact .nil
    · rw [if_neg hi] at he he' ⊢
      exact (h.entries he he').imp fun _ _ hx =>
        hx.extend (List.Subset.refl ps) (Outline.extends_nested e marks)

theorem define {name : String} {v v' : Option (Value RefId EnvId)}
    (hv : Entry ps (O.declared e name) (O.marksAt e) (name, v) (name, v')) :
    Sees ps (O.declared e name) { m with environments := m.environments.define e name v }
      ⟨d.environments.define e name v', d.marks⟩ := by
  have grows := O.extends_declared e name
  refine ⟨?_, ?_, fun i => ?_, ?_, ?_, fun fs hf x hx => (h.fields fs hf x hx).later grows⟩
  · rw [Environments.outline_define, h.outline, Outline.links_declared]
  · rw [Environments.outline_define, h.shade, Outline.links_declared]
  · rw [Outline.marksAt_declared, ← h.marks]
    rfl
  · obtain ⟨names, globals⟩ := h.globals
    obtain ⟨more, hm⟩ := grows.place globals
    exact ⟨names ++ more, hm⟩
  · intro i env env' he he'
    rw [Outline.marksAt_declared]
    rw [Environments.all_define] at he he'
    by_cases hi : e = i
    · subst hi
      rw [if_pos rfl] at he he'
      obtain ⟨old, ho, rfl⟩ := Option.map_eq_some_iff.mp he
      obtain ⟨old', ho', rfl⟩ := Option.map_eq_some_iff.mp he'
      exact entries_define ((h.entries ho ho').imp fun _ _ hx =>
        hx.extend (List.Subset.refl ps) grows) hv
    · rw [if_neg hi] at he he'
      exact (h.entries he he').imp fun _ _ hx => hx.extend (List.Subset.refl ps) grows

theorem put {slot : Nat} {v v' : Value RefId EnvId}
    (hv : ∀ x name, O[e]? = some x → x.names[slot]? = some name →
      Entry ps O x.marks (name, some v) (name, some v')) :
    Sees ps O { m with environments := m.environments.put e slot v }
      ⟨d.environments.put e slot v', d.marks⟩ := by
  refine ⟨?_, ?_, h.marks, h.globals, ?_, h.fields⟩
  · rw [Environments.outline_put, h.outline]
  · rw [Environments.outline_put, h.shade]
  · intro i env env' he he'
    rw [Environments.all_put] at he he'
    by_cases hi : e = i
    · subst hi
      rw [if_pos rfl] at he he'
      obtain ⟨old, ho, rfl⟩ := Option.map_eq_some_iff.mp he
      obtain ⟨old', ho', rfl⟩ := Option.map_eq_some_iff.mp he'
      refine entries_putSlot (h.entries ho ho') fun name hn => ?_
      have entry := h.outline ▸ m.environments.outline_get e
      rw [Outline.links_get, ho, Option.map_some] at entry
      obtain ⟨x, hx, hp⟩ := Option.map_eq_some_iff.mp entry
      have names : x.names = old.names := congrArg Prod.snd hp
      rw [Outline.marksAt_eq hx]
      exact hv x name hx (names ▸ hn)
    · rw [if_neg hi] at he he'
      exact h.entries he he'

theorem objects {objects : Array (Fields RefId EnvId)}
    (hf : ∀ fs ∈ objects, ∀ x ∈ fs, O.Good ps x.2) : Sees ps O { m with objects } d :=
  ⟨h.outline, h.shade, h.marks, h.globals, h.entries, hf⟩

theorem field? {id : ObjectId} {name : String} {v : Value RefId EnvId}
    (hv : m.field? id name = some v) : O.Good ps v := by
  obtain ⟨fs, hf, hl⟩ := Option.bind_eq_some_iff.mp hv
  obtain ⟨before, after, rfl, -⟩ := List.lookup_eq_some_iff.mp hl
  exact h.fields _ (Array.mem_of_getElem? hf) (name, v) (by simp)

theorem newObject : Sees ps O { m with objects := m.objects.push [] } d := by
  refine h.objects fun fs hf x hx => ?_
  obtain hf | rfl := Array.mem_push.mp hf
  · exact h.fields fs hf x hx
  · cases hx

theorem setField (id : ObjectId) (name : String) {v : Value RefId EnvId} (hv : O.Good ps v) :
    Sees ps O { m with objects := m.objects.modify id (Fields.insert name v) } d := by
  have inserted (fs : Fields RefId EnvId) (hf : ∀ x ∈ fs, O.Good ps x.2) :
      ∀ x ∈ fs.insert name v, O.Good ps x.2 := by
    induction fs with
    | nil => simpa [Fields.insert] using hv
    | cons x fs ih =>
      obtain ⟨first, rest⟩ := List.forall_mem_cons.mp hf
      rw [Fields.insert]
      split
      · exact List.forall_mem_cons.mpr ⟨hv, rest⟩
      · exact List.forall_mem_cons.mpr ⟨first, ih rest⟩
  refine h.objects fun fs hf => ?_
  obtain ⟨i, hi⟩ := Array.mem_iff_getElem?.mp hf
  rw [Array.getElem?_modify] at hi
  split at hi
  · obtain ⟨old, ho, rfl⟩ := Option.map_eq_some_iff.mp hi
    exact inserted old (h.fields old (Array.mem_of_getElem? ho))
  · exact h.fields fs (Array.mem_of_getElem? hi)

end Sees

end Marked

end Lox
