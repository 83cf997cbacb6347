import Lox.Proofs.Receivers.Dispatch

/-!
The classes of a session. Each object has an identity of its own, and a ledger tells for all of them in
turn which are classes. A class is entered behind the one above it. So the way up from a class leads to
ever older ones, and a search for a method ends at the nearest class that declares it.
-/

namespace Lox

variable {ρ κ : Type}

/-- The class that the value is, or is an instance of. -/
def Value.class? : Value ρ κ → Option (Class ρ κ)
  | .class c | .instance _ c => some c
  | _ => none

/-- How a search for a member of this name ends that goes through classes in turn: at the first class
that has one, with the one declared last, which is the first in the table; or nowhere. -/
inductive Class.Searched (name : String) (members : Class ρ κ → List (Function ρ κ)) :
    List (Class ρ κ) → Option (Function ρ κ) → Prop
  | found {nearer farther : List (Class ρ κ)} {c : Class ρ κ} {later earlier : List (Function ρ κ)}
      {f : Function ρ κ} (without : ∀ k ∈ nearer, ∀ g ∈ members k, g.name ≠ name)
      (own : members c = later ++ f :: earlier) (named : f.name = name)
      (last : ∀ g ∈ later, g.name ≠ name) : Searched name members (nearer ++ c :: farther) (some f)
  | missing {cs : List (Class ρ κ)} (without : ∀ k ∈ cs, ∀ g ∈ members k, g.name ≠ name) :
      Searched name members cs none

namespace Class

theorem ownMethod?_eq_none {name : String} {fs : List (Function ρ κ)} (h : ownMethod? name fs = none) :
    ∀ g ∈ fs, g.name ≠ name := by
  intro g hg same
  exact List.find?_eq_none.mp h g hg (beq_iff_eq.mpr same)

theorem searched (name : String) (members : Class ρ κ → List (Function ρ κ)) (cs : List (Class ρ κ)) :
    Searched name members cs (cs.findSome? (ownMethod? name <| members ·)) := by
  cases hf : cs.findSome? (ownMethod? name <| members ·) with
  | none => exact .missing fun k hk => ownMethod?_eq_none (List.findSome?_eq_none_iff.mp hf k hk)
  | some f =>
    obtain ⟨nearer, c, farther, rfl, own, without⟩ := List.findSome?_eq_some_iff.mp hf
    obtain ⟨named, later, earlier, split, last⟩ := List.find?_eq_some_iff_append.mp own
    refine .found (fun k hk => ownMethod?_eq_none (without k hk)) split (beq_iff_eq.mp named) ?_
    intro g hg same
    have other := last g hg
    simp [same] at other

end Class

/-- For all objects made so far, in turn: the class, if the object is one. -/
abbrev Ledger (ρ : Type) := List (Option (Class ρ EnvId))

namespace Ledger

variable {made made' : Ledger ρ} {c k : Class ρ EnvId} {v : Value ρ EnvId}

/-- The class is the object of its identity. -/
def Has (made : Ledger ρ) (c : Class ρ EnvId) : Prop := made[c.id]? = some (some c)

/-- The value is no class that is not in the ledger, and no instance of one. -/
def Knows (made : Ledger ρ) (v : Value ρ EnvId) : Prop := ∀ c, v.class? = some c → made.Has c

/-- A search that goes from class to class by their identities. It asks each class, and without an answer
goes on to the class above. It may run out of fuel, or come to what is no class. -/
def search? {α : Type} (made : Ledger ρ) (own : Class ρ EnvId → Option α) :
    Nat → ObjectId → Option (Option α)
  | 0, _ => none
  | fuel + 1, id =>
    match made[id]? with
    | some (some c) => match own c, c.superclass with
      | some a, _ => some (some a)
      | none, some parent => search? made own fuel parent.id
      | none, none => some none
    | _ => none

/-- A class is entered as it is made: by a declaration, with the next identity, and behind the class
above it. -/
inductive Kept : Ledger ρ → Prop
  | nil : Kept []
  | object {made : Ledger ρ} (h : Kept made) : Kept (made ++ [none])
  | class {made : Ledger ρ} (h : Kept made) (name : Lexeme) (ms cs : List (Definition ρ))
      (scope : EnvId) {parent : Option (Class ρ EnvId)} (above : ∀ k, parent = some k → made.Has k) :
      Kept (made ++ [some (Stmt.makes name ms cs scope made.length parent)])

theorem Has.lt (h : made.Has c) : c.id < made.length := (List.getElem?_eq_some_iff.mp h).1

theorem Has.grow (h : made.Has c) (le : made <+: made') : made'.Has c := by
  obtain ⟨rest, rfl⟩ := le
  rw [Has, List.getElem?_append_left h.lt]
  exact h

/-- What was there before is in the older ledger. -/
theorem Has.of_lt (h : made'.Has c) (le : made <+: made') (old : c.id < made.length) : made.Has c := by
  obtain ⟨rest, rfl⟩ := le
  rwa [Has, List.getElem?_append_left old] at h

/-- Most values are neither classes nor instances. -/
theorem Knows.of_none (h : v.class? = none) : made.Knows v := by
  intro c hc
  cases h.symm.trans hc

theorem Knows.grow (h : made.Knows v) (le : made <+: made') : made'.Knows v :=
  fun c hc => (h c hc).grow le

/-- The identity of a class tells which one it is. -/
theorem Has.unique (h : made.Has c) (h' : made.Has k) (same : c.id = k.id) : c = k := by
  rw [Has, ← same] at h'
  exact Option.some.inj (Option.some.inj (h.symm.trans h'))

theorem has_append {entry : Option (Class ρ EnvId)} (h : Has (made ++ [entry]) c) :
    made.Has c ∨ entry = some c ∧ c.id = made.length := by
  by_cases old : c.id < made.length
  · exact .inl (h.of_lt (List.prefix_append _ _) old)
  · have bound : c.id < made.length + 1 := by simpa using h.lt
    have there : c.id = made.length := Nat.le_antisymm (Nat.le_of_lt_succ bound) (Nat.le_of_not_lt old)
    rw [Has, there, List.getElem?_append_right (Nat.le_refl _)] at h
    simp at h
    exact .inr ⟨h, there⟩

/-- The class was made by a declaration, and the class above it, if any, is in the ledger as an older
one. -/
structure Entered (made : Ledger ρ) (c : Class ρ EnvId) : Prop where
  declared : ∃ name ms cs scope, c = Stmt.makes name ms cs scope c.id c.superclass
  above : ∀ k, c.superclass = some k → made.Has k ∧ k.id < c.id

theorem Entered.grow (h : made.Entered c) (le : made <+: made') : made'.Entered c where
  declared := h.declared
  above k hk := ⟨(h.above k hk).1.grow le, (h.above k hk).2⟩

namespace Kept

theorem entered (h : made.Kept) (hc : made.Has c) : made.Entered c := by
  induction h with
  | nil => exact absurd hc.lt (Nat.not_lt_zero _)
  | object h ih =>
    obtain old | ⟨new, _⟩ := has_append hc
    · exact (ih old).grow (List.prefix_append _ _)
    · cases new
  | «class» h name ms cs scope above ih =>
    obtain old | ⟨new, _⟩ := has_append hc
    · exact (ih old).grow (List.prefix_append _ _)
    · cases new
      refine ⟨⟨name, ms, cs, scope, rfl⟩, fun k hk => ?_⟩
      exact ⟨(above k hk).grow (List.prefix_append _ _), (above k hk).lt⟩

/-- All classes from a class upwards are in the ledger, each older than the ones below it. -/
theorem lineage (h : made.Kept) : ∀ {c}, made.Has c →
    (∀ k ∈ c.lineage, made.Has k ∧ k.id ≤ c.id) ∧ c.lineage.Pairwise (fun k l => l.id < k.id) ∧
      c.lineage.length ≤ c.id + 1
  | ⟨id, name, none, ms, cs⟩, hc => by simpa [Class.lineage] using hc
  | ⟨id, name, some parent, ms, cs⟩, hc => by
    obtain ⟨there, lt⟩ := (h.entered hc).above parent rfl
    obtain ⟨all, sorted, length⟩ := h.lineage there
    have older {k : Class ρ EnvId} (hk : k ∈ parent.lineage) : k.id < id :=
      Nat.lt_of_le_of_lt (all k hk).2 lt
    rw [Class.lineage]
    refine ⟨fun k hk => ?_, .cons (fun k hk => older hk) sorted, Nat.succ_le_succ (Nat.le_trans length lt)⟩
    obtain rfl | hk := List.mem_cons.mp hk
    · exact ⟨hc, Nat.le_refl _⟩
    · exact ⟨(all k hk).1, Nat.le_of_lt (older hk)⟩

/-- A search by identities ends, and where the way up from the class would. -/
theorem search?_eq {α : Type} (h : made.Kept) (own : Class ρ EnvId → Option α) :
    ∀ {c}, made.Has c → ∀ {fuel}, c.id < fuel →
      made.search? own fuel c.id = some (c.lineage.findSome? own)
  | ⟨id, name, none, ms, cs⟩, hc, fuel + 1, _ => by
    have there : made[id]? = some (some ⟨id, name, none, ms, cs⟩) := hc
    rw [search?, there, Class.lineage, List.findSome?_singleton]
    cases hf : own ⟨id, name, none, ms, cs⟩ <;> simp only [hf]
  | ⟨id, name, some parent, ms, cs⟩, hc, fuel + 1, lt => by
    have there : made[id]? = some (some ⟨id, name, some parent, ms, cs⟩) := hc
    obtain ⟨above, older⟩ := (h.entered hc).above parent rfl
    have further := h.search?_eq own above (Nat.lt_of_lt_of_le older (Nat.le_of_lt_succ lt))
    rw [search?, there, Class.lineage, List.findSome?_cons]
    cases hf : own ⟨id, name, some parent, ms, cs⟩ <;> simp only [hf, further]

end Kept

/-- What is so of every class in a ledger. From it upwards there are only older and older classes, no
more than its identity allows. A search for a member goes through these, up to the nearest that declares
the name; one that goes by identities finds the same, with as much fuel as there may be classes on its
way. -/
structure Inherits (made : Ledger ρ) (c : Class ρ EnvId) : Prop extends made.Entered c where
  lineage : ∀ k ∈ c.lineage, made.Has k
  older : c.lineage.Pairwise fun k l => l.id < k.id
  length : c.lineage.length ≤ c.id + 1
  methods : ∀ name, Class.Searched name (·.methods) c.lineage (c.findMethod? name) ∧
    ∀ fuel, c.id < fuel →
      made.search? (Class.ownMethod? name ·.methods) fuel c.id = some (c.findMethod? name)
  classMethods : ∀ name, Class.Searched name (·.classMethods) c.lineage (c.findClassMethod? name) ∧
    ∀ fuel, c.id < fuel →
      made.search? (Class.ownMethod? name ·.classMethods) fuel c.id = some (c.findClassMethod? name)

theorem Kept.inherits (h : made.Kept) (hc : made.Has c) : made.Inherits c where
  toEntered := h.entered hc
  lineage k hk := ((h.lineage hc).1 k hk).1
  older := (h.lineage hc).2.1
  length := (h.lineage hc).2.2
  methods name := by
    rw [Class.findMethod?_eq]
    exact ⟨Class.searched name (·.methods) c.lineage, fun fuel lt => h.search?_eq _ hc lt⟩
  classMethods name := by
    rw [Class.findClassMethod?_eq]
    exact ⟨Class.searched name (·.classMethods) c.lineage, fun fuel lt => h.search?_eq _ hc lt⟩

end Ledger

end Lox
