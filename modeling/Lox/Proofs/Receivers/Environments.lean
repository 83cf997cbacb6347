import Lox.Proofs.Lexical.Memory

/-!
Environments that the language itself makes. The one around a method that has got its receiver holds
`this` alone, and the one around the methods of a class with a class above holds `super` alone. They
never change. All others are plain: they hold variables of the program only. As a program runs there are
more environments, and no plain one becomes anything else.
-/

namespace Lox

namespace Environment

variable {α : Type}

/-- No variable of the language itself is in the environment. -/
def Plain (e : Environment α) : Prop := "this" ∉ e.names ∧ "super" ∉ e.names

theorem Plain.putSlot {e : Environment α} (h : e.Plain) (slot : Nat) (a : Option α) :
    (e.putSlot slot a).Plain := by
  rw [Plain, names_putSlot]
  exact h

theorem Plain.define {e : Environment α} (h : e.Plain) {name : Lexeme} (hn : name.Ordinary)
    (a : Option α) : (e.define name.text a).Plain := by
  rw [Plain, names_define]
  split
  · exact h
  · simp only [List.mem_append, List.mem_singleton, not_or]
    exact ⟨⟨h.1, hn.1.symm⟩, h.2, hn.2.symm⟩

theorem mem_entries_putSlot {e : Environment α} {slot : Nat} {a : Option α} {x : String × Option α}
    (h : x ∈ (e.putSlot slot a).entries) : x ∈ e.entries ∨ x.2 = a := by
  obtain ⟨i, hi⟩ := List.getElem?_of_mem h
  simp only [putSlot, List.getElem?_modify] at hi
  split at hi
  · obtain ⟨y, _, rfl⟩ := Option.map_eq_some_iff.mp hi
    exact .inr rfl
  · simp only [Option.map_eq_map, Option.map_id'] at hi
    exact .inl (List.mem_of_getElem? hi)

theorem mem_entries_define {e : Environment α} {name : String} {a : Option α}
    {x : String × Option α} (h : x ∈ (e.define name a).entries) : x ∈ e.entries ∨ x.2 = a := by
  unfold define at h
  split at h
  · exact mem_entries_putSlot h
  · obtain h | h := List.mem_append.mp h
    · exact .inl h
    · exact .inr (congrArg Prod.snd (List.mem_singleton.mp h))

/-- An environment that the language itself makes has one variable of its own, and any other is plain. -/
inductive Known : Environment (Value RefId EnvId) → Prop
  | plain {e : Environment (Value RefId EnvId)} (h : e.Plain) : Known e
  | receiver (r : Value RefId EnvId) (up : EnvId) : Known ⟨[("this", some r)], some up⟩
  | above (k : Class RefId EnvId) (up : EnvId) : Known ⟨[("super", some (.class k))], some up⟩

end Environment

/-- The scope has no variable of the language itself. -/
def Names.Plain (names : List String) : Prop := "this" ∉ names ∧ "super" ∉ names

namespace Machine

variable {m m' m'' : Machine RefId} {e up : EnvId} {link : Option EnvId} {r : Value RefId EnvId}
  {k : Class RefId EnvId} {Γ : Names}

/-- The environment is plain, and linked so. -/
def Plain (m : Machine RefId) (e : EnvId) (link : Option EnvId) : Prop :=
  ∃ env, m.environments.all[e]? = some env ∧ env.enclosing = link ∧ env.Plain

/-- The environment has the receiver of a method as its only variable. -/
def Receiver (m : Machine RefId) (e : EnvId) (r : Value RefId EnvId) (up : EnvId) : Prop :=
  m.environments.all[e]? = some ⟨[("this", some r)], some up⟩

/-- The environment has the class above as its only variable. -/
def Above (m : Machine RefId) (e : EnvId) (k : Class RefId EnvId) (up : EnvId) : Prop :=
  m.environments.all[e]? = some ⟨[("super", some (.class k))], some up⟩

/-- The environment is the one around the methods of a class that is declared in the second one: this
itself, or one for the class above. -/
def Surrounds (m : Machine RefId) (parent : Option (Class RefId EnvId)) (e up : EnvId) : Prop :=
  match parent with
  | none => e = up
  | some k => m.Above e k up

theorem Receiver.not_plain (h : m.Receiver e r up) : ¬ m.Plain e link := by
  rintro ⟨env, he, _, plain⟩
  obtain rfl := Option.some.inj (h.symm.trans he)
  exact plain.1 List.mem_cons_self

theorem Above.not_plain (h : m.Above e k up) : ¬ m.Plain e link := by
  rintro ⟨env, he, _, plain⟩
  obtain rfl := Option.some.inj (h.symm.trans he)
  exact plain.2 List.mem_cons_self

theorem Receiver.unique {r' : Value RefId EnvId} {up' : EnvId} (h : m.Receiver e r up)
    (h' : m.Receiver e r' up') : r = r' := by
  obtain ⟨⟩ := Option.some.inj (h.symm.trans h')
  rfl

theorem Above.unique {k' : Class RefId EnvId} {up' : EnvId} (h : m.Above e k up)
    (h' : m.Above e k' up') : k = k' := by
  obtain ⟨⟩ := Option.some.inj (h.symm.trans h')
  rfl

/-- The second machine has what the first one has. Environments that are not plain are the same, and
the others stay plain. -/
structure Grows (m m' : Machine RefId) : Prop where
  objects : m.objects.size ≤ m'.objects.size
  environments : ∀ {e : EnvId} {env : Environment (Value RefId EnvId)},
    m.environments.all[e]? = some env → ∃ env' : Environment (Value RefId EnvId),
      m'.environments.all[e]? = some env' ∧ env'.enclosing = env.enclosing ∧
        (env' = env ∨ env.Plain ∧ env'.Plain)

namespace Grows

theorem refl (m : Machine RefId) : m.Grows m :=
  ⟨Nat.le_refl _, fun he => ⟨_, he, rfl, .inl rfl⟩⟩

theorem trans (h : m.Grows m') (h' : m'.Grows m'') : m.Grows m'' where
  objects := Nat.le_trans h.objects h'.objects
  environments he := by
    obtain ⟨env', he', hl', hk'⟩ := h.environments he
    obtain ⟨env'', he'', hl'', hk''⟩ := h'.environments he'
    refine ⟨env'', he'', hl''.trans hl', ?_⟩
    obtain rfl | ⟨plain, plain'⟩ := hk'
    · exact hk''
    · obtain rfl | ⟨_, plain''⟩ := hk''
      · exact .inr ⟨plain, plain'⟩
      · exact .inr ⟨plain, plain''⟩

/-- A machine that differs in other things only. -/
theorem of_eq (he : m'.environments = m.environments) (ho : m.objects.size ≤ m'.objects.size) :
    m.Grows m' :=
  ⟨ho, fun h => ⟨_, he ▸ h, rfl, .inl rfl⟩⟩

end Grows

theorem Plain.grow (h : m.Plain e link) (hm : m.Grows m') : m'.Plain e link := by
  obtain ⟨env, he, hl, plain⟩ := h
  obtain ⟨env', he', hl', kept⟩ := hm.environments he
  refine ⟨env', he', hl'.trans hl, ?_⟩
  obtain rfl | ⟨_, plain'⟩ := kept
  · exact plain
  · exact plain'

theorem Receiver.grow (h : m.Receiver e r up) (hm : m.Grows m') : m'.Receiver e r up := by
  obtain ⟨env', he', _, rfl | ⟨plain, _⟩⟩ := hm.environments h
  · exact he'
  · exact absurd List.mem_cons_self plain.1

theorem Above.grow (h : m.Above e k up) (hm : m.Grows m') : m'.Above e k up := by
  obtain ⟨env', he', _, rfl | ⟨plain, _⟩⟩ := hm.environments h
  · exact he'
  · exact absurd List.mem_cons_self plain.2

/-! The environments of scopes. -/

/-- From an environment outwards there is one environment for each of the scopes, of the same kind, and
then the global environment. -/
inductive Scoped (m : Machine RefId) : Names → EnvId → Prop
  | top : Scoped m [] .global
  | receiver {Γ : Names} {e up : EnvId} {r : Value RefId EnvId} (h : m.Receiver e r up)
      (outer : Scoped m Γ up) : Scoped m (["this"] :: Γ) e
  | above {Γ : Names} {e up : EnvId} {k : Class RefId EnvId} (h : m.Above e k up)
      (outer : Scoped m Γ up) : Scoped m (["super"] :: Γ) e
  | plain {names : List String} {Γ : Names} {e up : EnvId} (hn : Names.Plain names)
      (h : m.Plain e (some up)) (outer : Scoped m Γ up) : Scoped m (names :: Γ) e

theorem Scoped.grow (h : m.Scoped Γ e) (hm : m.Grows m') : m'.Scoped Γ e := by
  induction h with
  | top => exact .top
  | receiver h _ ih => exact .receiver (h.grow hm) ih
  | above h _ ih => exact .above (h.grow hm) ih
  | plain hn h _ ih => exact .plain hn (h.grow hm) ih

theorem ancestor?_succ {env : Environment (Value RefId EnvId)} (he : m.environments.all[e]? = some env)
    (hl : env.enclosing = some up) (distance : Nat) :
    m.environments.ancestor? e (distance + 1) = m.environments.ancestor? up distance := by
  rw [Environments.ancestor?, he, Option.bind_some, hl, Option.bind_some]

/-- `this` has this value in an environment: it is the receiver of the innermost environment that has
one, of those from there outwards. -/
inductive This (m : Machine RefId) : EnvId → EnvId → Value RefId EnvId → Prop
  | here {e up : EnvId} {r : Value RefId EnvId} (h : m.Receiver e r up) : This m e e r
  | outside {e up found : EnvId} {r : Value RefId EnvId} (h : m.Plain e (some up))
      (outer : This m up found r) : This m e found r

end Machine

namespace Names

variable {names : List String} {Γ : Names} {x : String} {b : Binding}

theorem Plain.findIdx?_this (h : Plain names) : names.findIdx? (· == "this") = none := by
  rw [List.findIdx?_eq_none_iff]
  exact fun y hy => beq_eq_false_iff_ne.mpr fun he => h.1 (he ▸ hy)

theorem Plain.findIdx?_super (h : Plain names) : names.findIdx? (· == "super") = none := by
  rw [List.findIdx?_eq_none_iff]
  exact fun y hy => beq_eq_false_iff_ne.mpr fun he => h.2 (he ▸ hy)

/-- What a scope does not have is found further out. -/
theorem binding?_outer (h : names.findIdx? (· == x) = none) (hb : binding? x (names :: Γ) = some b) :
    ∃ b', binding? x Γ = some b' ∧ b = ⟨b'.distance + 1, b'.slot⟩ := by
  rw [binding?, h] at hb
  obtain ⟨b', hb', rfl⟩ := Option.map_eq_some_iff.mp hb
  exact ⟨b', hb', rfl⟩

theorem Plain.declare (h : Plain names) {name : Lexeme} (hn : name.Ordinary) :
    ∃ names', Names.declare name.text (names :: Γ) = names' :: Γ ∧ Plain names' := by
  by_cases hm : name.text ∈ names
  · exact ⟨names, if_pos hm, h⟩
  · refine ⟨names ++ [name.text], if_neg hm, ?_⟩
    simp only [Plain, List.mem_append, List.mem_singleton, not_or]
    exact ⟨⟨h.1, hn.1.symm⟩, h.2, hn.2.symm⟩

theorem Plain.declareAll (h : Plain names) {params : List Lexeme}
    (hn : ∀ name ∈ params, name.Ordinary) :
    ∃ names', Names.declareAll params (names :: Γ) = names' :: Γ ∧ Plain names' := by
  induction params generalizing names with
  | nil => exact ⟨names, rfl, h⟩
  | cons name params ih =>
    obtain ⟨names', declared, plain⟩ := h.declare (Γ := Γ) (hn name List.mem_cons_self)
    obtain ⟨names'', all, plain'⟩ := ih plain fun n hm => hn n (List.mem_cons_of_mem _ hm)
    refine ⟨names'', ?_, plain'⟩
    rw [Names.declareAll, List.foldl_cons, declared]
    exact all

end Names

/-- Where `super` is the first variable the environment is one for a class above. -/
theorem Machine.Scoped.above_of_super {m : Machine RefId} {Γ : Names} {e : EnvId} (h : m.Scoped Γ e)
    (hb : Γ.binding? "super" = some ⟨0, 0⟩) : ∃ k up, m.Above e k up := by
  cases h with
  | top => cases hb
  | receiver h =>
    obtain ⟨_, _, hb⟩ := Names.binding?_outer rfl hb
    cases hb
  | above h => exact ⟨_, _, h⟩
  | plain hn h =>
    obtain ⟨_, _, hb⟩ := Names.binding?_outer hn.findIdx?_super hb
    cases hb

/-- A variable of the program is found in a plain environment. -/
theorem Machine.Scoped.found {m : Machine RefId} {Γ : Names} {e : EnvId} (h : m.Scoped Γ e) {x : String}
    (hx : x ≠ "this" ∧ x ≠ "super") {b : Binding} (hb : Γ.binding? x = some b) :
    ∃ found link, m.environments.ancestor? e b.distance = some found ∧ m.Plain found link := by
  induction h generalizing b with
  | top => cases hb
  | receiver h _ ih =>
    obtain ⟨b', hb', rfl⟩ := Names.binding?_outer (by simp [Ne.symm hx.1]) hb
    rw [ancestor?_succ h rfl]
    exact ih hb'
  | above h _ ih =>
    obtain ⟨b', hb', rfl⟩ := Names.binding?_outer (by simp [Ne.symm hx.2]) hb
    rw [ancestor?_succ h rfl]
    exact ih hb'
  | @plain names Γ e up hn h _ ih =>
    cases hs : names.findIdx? (· == x) with
    | some slot =>
      rw [Names.binding?, hs] at hb
      obtain rfl := Option.some.inj hb
      exact ⟨e, some up, rfl, h⟩
    | none =>
      obtain ⟨b', hb', rfl⟩ := Names.binding?_outer hs hb
      obtain ⟨env, he, hl, _⟩ := h
      rw [ancestor?_succ he hl]
      exact ih hb'

end Lox
