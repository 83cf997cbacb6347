import Lox.Proofs.Native
import Lox.Proofs.Receivers.Values

/-!
Memory of which all is known: what its environments are, and the values of all variables and fields. Each
smallest step of a program keeps that, and only lets the machine grow.
-/

namespace Lox

namespace Environments

variable {α : Type}

/-- A new environment with one variable. -/
theorem define_nest (s : Environments α) (up : EnvId) (name : String) (a : Option α) :
    (s.nest up).define s.fresh name a = ⟨s.all.push ⟨[(name, a)], some up⟩⟩ := by
  have all : ((s.nest up).define s.fresh name a).all = s.all.push ⟨[(name, a)], some up⟩ := by
    apply Array.ext_getElem?
    intro i
    rw [all_define, all_nest, Array.getElem?_push]
    by_cases h : i = s.fresh
    · subst h
      simp only [if_true, fresh]
      rfl
    · rw [if_neg (Ne.symm h), if_neg h]
      exact (if_neg h).symm
  exact congrArg Environments.mk all

end Environments

theorem Fields.mem_insert {ρ : Type} {name : String} {v : Value ρ EnvId} {fields : Fields ρ EnvId}
    {x : String × Value ρ EnvId} (h : x ∈ fields.insert name v) : x ∈ fields ∨ x = (name, v) := by
  induction fields with
  | nil => exact .inr (List.mem_singleton.mp h)
  | cons field fields ih =>
    obtain ⟨n, w⟩ := field
    rw [Fields.insert] at h
    split at h
    · next hn =>
      obtain rfl | h := List.mem_cons.mp h
      · exact .inr (congrArg (·, v) (beq_iff_eq.mp hn))
      · exact .inl (List.mem_cons_of_mem _ h)
    · obtain rfl | h := List.mem_cons.mp h
      · exact .inl List.mem_cons_self
      · exact (ih h).imp (List.mem_cons_of_mem _) id

namespace Machine

theorem Grows.push (m : Machine RefId) (env : Environment (Value RefId EnvId)) :
    m.Grows { m with environments := ⟨m.environments.all.push env⟩ } := by
  refine ⟨Nat.le_refl _, fun {i env'} hi => ⟨env', ?_, rfl, .inl rfl⟩⟩
  obtain ⟨hl, hi⟩ := Array.getElem?_eq_some_iff.mp hi
  rw [Array.getElem?_push_lt hl, hi]

variable {ps qs : List Program} {m m' : Machine RefId} {e up : EnvId} {link : Option EnvId}

/-- All environments are known, and so are the values of all variables and fields. -/
structure Sound (ps : List Program) (m : Machine RefId) : Prop where
  global : m.Plain .global none
  known : ∀ {e : EnvId} {env : Environment (Value RefId EnvId)},
    m.environments.all[e]? = some env → env.Known
  values : ∀ {e : EnvId} {env : Environment (Value RefId EnvId)} {x : String} {v : Value RefId EnvId},
    m.environments.all[e]? = some env → (x, some v) ∈ env.entries → m.Trusts ps v
  fields : ∀ {id : ObjectId} {fields : Fields RefId EnvId} {x : String} {v : Value RefId EnvId},
    m.objects[id]? = some fields → (x, v) ∈ fields → m.Trusts ps v

namespace Sound

variable {v : Value RefId EnvId}

theorem receiver {r : Value RefId EnvId} {up : EnvId} (h : m.Sound ps) (hr : m.Receiver e r up) :
    m.Trusts ps r := h.values hr List.mem_cons_self

/-- It is enough to look at environments that are new or have changed, and at the fields. -/
theorem grow (h : m.Sound ps) (grows : m.Grows m')
    (environments : ∀ {e : EnvId} {env : Environment (Value RefId EnvId)},
      m'.environments.all[e]? = some env → m.environments.all[e]? = some env ∨
        env.Known ∧ ∀ {x v}, (x, some v) ∈ env.entries → m.Trusts ps v)
    (fields : ∀ {id : ObjectId} {fields : Fields RefId EnvId} {x : String} {v : Value RefId EnvId},
      m'.objects[id]? = some fields → (x, v) ∈ fields → m.Trusts ps v) : m'.Sound ps where
  global := h.global.grow grows
  known he := (environments he).elim h.known And.left
  values he hx := by
    obtain old | ⟨_, values⟩ := environments he
    · exact (h.values old hx).grow (List.Subset.refl ps) grows
    · exact (values hx).grow (List.Subset.refl ps) grows
  fields hi hx := (fields hi hx).grow (List.Subset.refl ps) grows

theorem withPrograms (h : m.Sound ps) (hp : ps ⊆ qs) : m.Sound qs :=
  ⟨h.global, h.known, fun he hx => (h.values he hx).grow hp (.refl m),
    fun hi hx => (h.fields hi hx).grow hp (.refl m)⟩

theorem enter (h : m.Sound ps) (e : EnvId) : { m with scope := e }.Sound ps :=
  h.grow (.of_eq rfl (Nat.le_refl _)) .inl h.fields

theorem getSlot (h : m.Sound ps) {slot : Nat} (hv : m.environments.getSlot e slot = .found v) :
    m.Trusts ps v := by
  rw [Environments.getSlot] at hv
  cases he : m.environments.all[e]? with
  | none =>
    rw [he] at hv
    cases hv
  | some env =>
    rw [he, Option.map_some, Option.getD_some, Environment.getSlot] at hv
    split at hv
    · cases hv
    · cases hv
    · next x w hx =>
      cases hv
      exact h.values he (List.mem_of_getElem? hx)

theorem field? (h : m.Sound ps) {id : ObjectId} {name : String} (hv : m.field? id name = some v) :
    m.Trusts ps v := by
  obtain ⟨fields, hf, hl⟩ := Option.bind_eq_some_iff.mp hv
  obtain ⟨before, after, rfl, _⟩ := List.lookup_eq_some_iff.mp hl
  exact h.fields hf List.mem_append_cons_self

end Sound

end Machine

namespace Receivers

open Machine

variable {ps : List Program} {m m' m'' : Machine RefId} {e up : EnvId} {link : Option EnvId}

/-- What follows a machine in a run. -/
structure Later (ps : List Program) (m m' : Machine RefId) : Prop where
  sound : m'.Sound ps
  grows : m.Grows m'
  scope : m'.scope = m.scope

namespace Later

theorem refl (h : m.Sound ps) : Later ps m m := ⟨h, .refl m, rfl⟩

theorem trans (h : Later ps m m') (h' : Later ps m' m'') : Later ps m m'' :=
  ⟨h'.sound, h.grows.trans h'.grows, h'.scope.trans h.scope⟩

theorem trusts (h : Later ps m m') {v : Value RefId EnvId} (hv : m.Trusts ps v) : m'.Trusts ps v :=
  hv.grow (List.Subset.refl ps) h.grows

theorem trustsAll (h : Later ps m m') {vs : List (Value RefId EnvId)}
    (hv : ∀ v ∈ vs, m.Trusts ps v) : ∀ v ∈ vs, m'.Trusts ps v := fun v hm => h.trusts (hv v hm)

end Later

/-! How memory changes. -/

section Steps

variable (hs : m.Sound ps)

include hs

/-- A plain environment changes, and stays plain. -/
theorem Later.modify (hp : m.Plain e link) {f : Environment (Value RefId EnvId) → Environment (Value RefId EnvId)}
    (plain : ∀ env, env.Plain → (f env).Plain) (links : ∀ env, (f env).enclosing = env.enclosing)
    (values : ∀ env x v, (x, some v) ∈ (f env).entries → (x, some v) ∈ env.entries ∨ m.Trusts ps v) :
    Later ps m { m with environments := m.environments.modify e f } := by
  obtain ⟨env₀, he₀, _, hp₀⟩ := hp
  have grows : m.Grows { m with environments := m.environments.modify e f } := by
    refine ⟨Nat.le_refl _, fun {i env} hi => ?_⟩
    by_cases h : e = i
    · subst h
      obtain rfl := Option.some.inj (hi.symm.trans he₀)
      refine ⟨f env, ?_, links env, .inr ⟨hp₀, plain env hp₀⟩⟩
      rw [Environments.all_modify, if_pos rfl, hi]
      rfl
    · exact ⟨env, by rw [Environments.all_modify, if_neg h, hi], rfl, .inl rfl⟩
  refine ⟨hs.grow grows (fun {i env} hi => ?_) hs.fields, grows, rfl⟩
  rw [Environments.all_modify] at hi
  split at hi
  · next h =>
    rw [← h, he₀] at hi
    cases hi
    refine .inr ⟨.plain (plain env₀ hp₀), fun hx => ?_⟩
    exact (values env₀ _ _ hx).elim (hs.values he₀) id
  · exact .inl hi

theorem Later.define (hp : m.Plain e link) {name : Lexeme} (ordinary : name.Ordinary)
    {a : Option (Value RefId EnvId)} (ha : ∀ v, a = some v → m.Trusts ps v) :
    Later ps m { m with environments := m.environments.define e name.text a } :=
  modify hs hp (fun _ h => h.define ordinary a) (fun env => env.enclosing_define name.text a)
    fun _ _ v hx => (Environment.mem_entries_define hx).imp id fun h => ha v h.symm

theorem Later.put (hp : m.Plain e link) (slot : Nat) {v : Value RefId EnvId} (hv : m.Trusts ps v) :
    Later ps m { m with environments := m.environments.put e slot v } :=
  modify hs hp (fun _ h => h.putSlot slot _) (fun env => env.enclosing_putSlot slot _)
    fun _ _ _ hx => (Environment.mem_entries_putSlot hx).imp id fun h => by
      cases h
      exact hv

/-- There is a new environment. -/
theorem Later.push {env : Environment (Value RefId EnvId)} (known : env.Known)
    (values : ∀ x v, (x, some v) ∈ env.entries → m.Trusts ps v) :
    Later ps m { m with environments := ⟨m.environments.all.push env⟩ } := by
  refine ⟨hs.grow (.push m env) (fun {i env'} hi => ?_) hs.fields, .push m env, rfl⟩
  rw [Array.getElem?_push] at hi
  split at hi
  · obtain rfl := Option.some.inj hi
    exact .inr ⟨known, fun hx => values _ _ hx⟩
  · exact .inl hi

theorem Later.nest (up : EnvId) : Later ps m { m with environments := m.environments.nest up } :=
  push hs (.plain ⟨List.not_mem_nil, List.not_mem_nil⟩) nofun

theorem Later.newObject : Later ps m { m with objects := m.objects.push [] } := by
  have grows : m.Grows { m with objects := m.objects.push [] } := .of_eq rfl (by simp)
  refine ⟨hs.grow grows .inl fun {i fields x v} hi hx => ?_, grows, rfl⟩
  rw [Array.getElem?_push] at hi
  split at hi
  · obtain rfl := Option.some.inj hi
    cases hx
  · exact hs.fields hi hx

theorem Later.setField (id : ObjectId) (name : String) {v : Value RefId EnvId} (hv : m.Trusts ps v) :
    Later ps m { m with objects := m.objects.modify id (Fields.insert name v) } := by
  have grows : m.Grows { m with objects := m.objects.modify id (Fields.insert name v) } :=
    .of_eq rfl (by simp)
  refine ⟨hs.grow grows .inl fun {i fields x w} hi hx => ?_, grows, rfl⟩
  rw [Array.getElem?_modify] at hi
  split at hi
  · obtain ⟨old, ho, rfl⟩ := Option.map_eq_some_iff.mp hi
    obtain hx | hx := Fields.mem_insert hx
    · exact hs.fields ho hx
    · cases hx
      exact hv
  · exact hs.fields hi hx

theorem Later.setHost (host : Host) : Later ps m { m with host } := by
  have grows : m.Grows { m with host } := .of_eq rfl (Nat.le_refl _)
  exact ⟨hs.grow grows .inl hs.fields, grows, rfl⟩

end Steps

end Receivers

end Lox
