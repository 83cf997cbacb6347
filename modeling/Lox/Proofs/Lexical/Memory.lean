import Lox.Proofs.Lexical.Alike

/-!
What a world says of memory. Environments and cells hold values that are alike, the global environment
and the table of globals are the same, and so are the fields of all objects and the surroundings. Each
smallest step of the evaluator has its counterpart under lexical scoping, and both lead to memories of
which a larger world says the same.
-/

section Related

variable {α β : Type} {R : α → β → Prop} {xs : List α} {ys : List β}

theorem Option.Rel.imp {S : α → β → Prop} (h : ∀ a b, R a b → S a b) {a : Option α} {b : Option β}
    (hr : Option.Rel R a b) : Option.Rel S a b := by
  cases hr with
  | some hr => exact .some (h _ _ hr)
  | none => exact .none

namespace List.Forall₂

theorem rel_getElem? (h : Forall₂ R xs ys) (i : Nat) : Option.Rel R xs[i]? ys[i]? := by
  induction h generalizing i with
  | nil => exact .none
  | cons hx _ ih =>
    cases i with
    | zero => exact .some hx
    | succ i => exact ih i

theorem modify (h : Forall₂ R xs ys) (i : Nat) {f : α → α} {g : β → β}
    (hf : ∀ x y, R x y → R (f x) (g y)) : Forall₂ R (xs.modify i f) (ys.modify i g) := by
  induction h generalizing i with
  | nil =>
    rw [modify_nil, modify_nil]
    exact .nil
  | cons hx ht ih =>
    cases i with
    | zero => exact .cons (hf _ _ hx) ht
    | succ i => exact .cons hx (ih i)

theorem concat (h : Forall₂ R xs ys) {x : α} {y : β} (hr : R x y) :
    Forall₂ R (xs ++ [x]) (ys ++ [y]) := by
  induction h with
  | nil => exact .cons hr .nil
  | cons hx _ ih => exact .cons hx ih

end List.Forall₂

end Related

namespace Lox

open Lexical (Cell Locals)

namespace Environment

variable {α : Type}

theorem entries_define_of_notMem {e : Environment α} {name : String} (h : name ∉ e.names)
    (a : Option α) : (e.define name a).entries = e.entries ++ [(name, a)] := by
  simp only [define, slot?_eq_none_iff.mpr h]

/-- Of two definitions of a name the later one counts. -/
theorem define_define (e : Environment α) (name : String) (a b : Option α) :
    (e.define name a).define name b = e.define name b := by
  have put (e : Environment α) (slot : Nat) :
      (e.putSlot slot a).putSlot slot b = e.putSlot slot b := by
    simp only [putSlot, List.modify_modify_eq]
    rfl
  cases h : e.slot? name with
  | some slot => simp only [define, h, slot?_putSlot, put]
  | none =>
    have hd : (e.define name a).slot? name = some e.entries.length := by
      rw [slot?_define, slotFor, h, Option.getD_none]
    rw [define, hd]
    simp only [define, h, putSlot]
    rw [List.modify_eq_take_cons_drop (by simp)]
    simp

/-- A variable that is declared first gets its value in its slot. -/
theorem define_putSlot (e : Environment α) (name : String) (a : Option α) :
    (e.define name none).putSlot (e.slotFor name) a = e.define name a := by
  rw [← e.define_define name none a]
  have known := e.slot?_define name none
  generalize e.define name none = d at known ⊢
  simp only [define, known]

end Environment

namespace Environments

variable {α : Type} (s : Environments α)

theorem define_put (e : EnvId) (name : String) (a : α) :
    (s.define e name none).put e (s.slotFor e name) a = s.define e name (some a) := by
  have all : ((s.define e name none).put e (s.slotFor e name) a).all =
      (s.define e name (some a)).all := by
    apply Array.ext_getElem?
    intro i
    rw [all_put, all_define, all_define]
    by_cases h : e = i
    · subst h
      cases he : s.all[e]? with
      | none => simp
      | some env => simp [slotFor, he, Environment.define_putSlot]
    · simp [h]
  exact congrArg Environments.mk all

/-- A name is added to an outline, unless it is there. -/
def withName (name : String) : Option EnvId × List String → Option EnvId × List String
  | (link, names) => (link, if name ∈ names then names else names ++ [name])

theorem outline_nest (e : EnvId) : (s.nest e).outline = s.outline ++ [(some e, [])] := by
  simp only [outline, nest, Array.toList_push, List.map_append]
  rfl

theorem outline_define (e : EnvId) (name : String) (a : Option α) :
    (s.define e name a).outline = s.outline.modify e (withName name) := by
  apply List.ext_getElem?
  intro i
  rw [outline_get, all_define, List.getElem?_modify, outline_get]
  by_cases h : e = i
  · subst h
    cases s.all[e]? with
    | none => simp
    | some env => simp [withName, Environment.names_define]
  · simp [h]

theorem outline_put (e : EnvId) (slot : Nat) (a : α) : (s.put e slot a).outline = s.outline := by
  apply List.ext_getElem?
  intro i
  rw [outline_get, all_put, outline_get]
  by_cases h : e = i
  · subst h
    cases s.all[e]? <;> simp
  · simp [h]

end Environments

def Value.isReceiver {ρ κ : Type} : Value ρ κ → Bool
  | .instance _ _ | .class _ => true
  | _ => false

namespace World

variable {W V : World}

/-- The variables that the language itself declares always have a value of the right kind. -/
def Special (name : String) (v : Option (Value RefId EnvId)) : Prop :=
  (name = "this" → ∃ w, v = some w ∧ w.isReceiver) ∧ (name = "super" → ∃ c, v = some (.class c))

theorem special_of_ordinary {name : Lexeme} (h : name.Ordinary) (v : Option (Value RefId EnvId)) :
    Special name.text v := ⟨fun he => absurd he h.1, fun he => absurd he h.2⟩

/-- A variable by its name and value. -/
def Entries (W : World) (x : String × Option (Value RefId EnvId))
    (y : String × Option (Value RefId Locals)) : Prop :=
  y.1 = x.1 ∧ Option.Rel W.Values x.2 y.2

/-- A field by its name and value. -/
def Fields (W : World) (x : String × Value RefId EnvId) (y : String × Value RefId Locals) : Prop :=
  y.1 = x.1 ∧ W.Values x.2 y.2

theorem Fields.lookup {xs : Lox.Fields RefId EnvId} {ys : Lox.Fields RefId Locals}
    (h : List.Forall₂ W.Fields xs ys) (name : String) :
    Option.Rel W.Values (xs.lookup name) (ys.lookup name) := by
  induction h with
  | nil => exact .none
  | @cons x y xs ys hx _ ih =>
    obtain ⟨n, v⟩ := x
    obtain ⟨n', v'⟩ := y
    obtain ⟨he, hv⟩ := hx
    obtain rfl : n' = n := he
    simp only [List.lookup_cons]
    cases name == n' with
    | true => exact .some hv
    | false => exact ih

theorem Fields.insert {xs : Lox.Fields RefId EnvId} {ys : Lox.Fields RefId Locals}
    (h : List.Forall₂ W.Fields xs ys) (name : String) {v : Value RefId EnvId}
    {v' : Value RefId Locals} (hv : W.Values v v') :
    List.Forall₂ W.Fields (xs.insert name v) (ys.insert name v') := by
  induction h with
  | nil => exact .cons ⟨rfl, hv⟩ .nil
  | @cons x y xs ys hx ht ih =>
    obtain ⟨n, w⟩ := x
    obtain ⟨n', w'⟩ := y
    obtain ⟨rfl, hw⟩ := hx
    simp only [Lox.Fields.insert]
    split
    · exact .cons ⟨rfl, hv⟩ ht
    · exact .cons ⟨rfl, hw⟩ ih

/-- The cell stands for the slot, and both hold the same. -/
def Holds (W : World) (environments : Environments (Value RefId EnvId))
    (cells : Array (Option (Value RefId Locals))) (cell : Cell) (place : EnvId × Nat) : Prop :=
  place.1 ≠ EnvId.global ∧ ∃ env name v v', environments.all[place.1]? = some env ∧
    env.entries[place.2]? = some (name, v) ∧ cells[cell]? = some v' ∧
    Option.Rel W.Values v v' ∧ Special name v

theorem Entries.slot?_eq {env : Environment (Value RefId EnvId)} {table : Environment (Value RefId Locals)}
    (he : List.Forall₂ W.Entries env.entries table.entries) (name : String) :
    table.slot? name = env.slot? name := by
  have names : table.names = env.names := by
    unfold Environment.names
    generalize env.entries = xs, table.entries = ys at he
    induction he with
    | nil => rfl
    | cons hx _ ih => rw [List.map_cons, List.map_cons, hx.1, ih]
  rw [Environment.slot?_names, Environment.slot?_names, names]

/-- What the world says of a machine and of a store. -/
structure Sees (W : World) (m : Machine RefId) (s : Lexical.Store RefId) : Prop where
  outline : m.environments.outline = W.outline
  globals : ∃ env, m.environments.all[EnvId.global]? = some env ∧ env.enclosing = none ∧
    List.Forall₂ W.Entries env.entries s.globals.entries
  cells : s.cells.size = W.places.length
  places : W.places.Nodup
  held : ∀ {cell place}, W.places[cell]? = some place → W.Holds m.environments s.cells cell place
  objects : List.Forall₂ (List.Forall₂ W.Fields) m.objects.toList s.objects.toList
  host : s.host = m.host

section Extend

variable (hw : W.Extends V)

include hw

theorem Entries.extend {x : String × Option (Value RefId EnvId)}
    {y : String × Option (Value RefId Locals)} (h : W.Entries x y) : V.Entries x y :=
  ⟨h.1, h.2.imp fun _ _ hv => hv.extend hw⟩

theorem Fields.extend {x : String × Value RefId EnvId} {y : String × Value RefId Locals}
    (h : W.Fields x y) : V.Fields x y := ⟨h.1, h.2.extend hw⟩

theorem Holds.extend {environments : Environments (Value RefId EnvId)}
    {cells : Array (Option (Value RefId Locals))} {cell : Cell} {place : EnvId × Nat}
    (h : W.Holds environments cells cell place) : V.Holds environments cells cell place := by
  obtain ⟨hg, env, name, v, v', he, hn, hc, hv, hs⟩ := h
  exact ⟨hg, env, name, v, v', he, hn, hc, hv.imp fun _ _ hv => hv.extend hw, hs⟩

end Extend

/-! How worlds grow. -/

/-- A new environment. -/
def nested (W : World) (e : EnvId) : World := { W with outline := W.outline ++ [(some e, [])] }

/-- A name in an environment. -/
def declared (W : World) (e : EnvId) (name : String) : World :=
  { W with outline := W.outline.modify e (Environments.withName name) }

/-- A new cell. -/
def placed (W : World) (place : EnvId × Nat) : World := { W with places := W.places ++ [place] }

theorem grows_nested (W : World) (e : EnvId) : W.Grows (W.nested e) where
  outline h := ⟨[], by
    rw [nested, List.append_nil, List.getElem?_append_left (List.getElem?_eq_some_iff.mp h).1, h]⟩
  places := List.prefix_rfl
  programs := List.Subset.refl _
  same := rfl

theorem grows_declared (W : World) (e : EnvId) (name : String) : W.Grows (W.declared e name) where
  outline {i link names} h := by
    simp only [declared, List.getElem?_modify, h]
    by_cases hi : e = i
    · by_cases hm : name ∈ names
      · exact ⟨[], by simp [hi, Environments.withName, hm]⟩
      · exact ⟨[name], by simp [hi, Environments.withName, hm]⟩
    · exact ⟨[], by simp [hi]⟩
  places := List.prefix_rfl
  programs := List.Subset.refl _
  same := rfl

theorem grows_placed (W : World) (place : EnvId × Nat) : W.Grows (W.placed place) where
  outline h := ⟨[], by rw [placed, List.append_nil, h]⟩
  places := List.prefix_append _ _
  programs := List.Subset.refl _
  same := rfl

/-- A declaration leaves the other variables as they are. -/
theorem Holds.declare {environments : Environments (Value RefId EnvId)}
    {cells : Array (Option (Value RefId Locals))} {cell : Cell} {place : EnvId × Nat}
    (h : W.Holds environments cells cell place) {e : EnvId} {env : Environment (Value RefId EnvId)}
    (he : environments.all[e]? = some env) {name : String} (fresh : name ∉ env.names)
    (v : Option (Value RefId EnvId)) (v' : Option (Value RefId Locals)) :
    W.Holds (environments.define e name v) (cells.push v') cell place := by
  obtain ⟨hg, env', x, w, w', hm, hx, hc, rest⟩ := h
  have pushed : (cells.push v')[cell]? = some w' := by
    obtain ⟨hl, hw⟩ := Array.getElem?_eq_some_iff.mp hc
    rw [Array.getElem?_push_lt hl, hw]
  by_cases hp : e = place.1
  · obtain rfl : env = env' := Option.some.inj (he.symm.trans (hp ▸ hm))
    refine ⟨hg, env.define name v, x, w, w', ?_, ?_, pushed, rest⟩
    · rw [Environments.all_define, if_pos hp, hm]
      rfl
    · rw [Environment.entries_define_of_notMem fresh,
        List.getElem?_append_left (List.getElem?_eq_some_iff.mp hx).1, hx]
  · exact ⟨hg, env', x, w, w', by rw [Environments.all_define, if_neg hp, hm], hx, pushed, rest⟩

namespace Sees

variable {m : Machine RefId} {s : Lexical.Store RefId} (h : W.Sees m s)

include h

/-- An environment of the world is one of the machine. -/
theorem environment {e : EnvId} {link : Option EnvId} {names : List String}
    (he : W.outline[e]? = some (link, names)) :
    ∃ env, m.environments.all[e]? = some env ∧ env.enclosing = link ∧ env.names = names := by
  rw [← h.outline, m.environments.outline_get] at he
  obtain ⟨env, hv, hp⟩ := Option.map_eq_some_iff.mp he
  exact ⟨env, hv, congrArg Prod.fst hp, congrArg Prod.snd hp⟩

theorem enter (e : EnvId) : W.Sees { m with scope := e } s :=
  ⟨h.outline, h.globals, h.cells, h.places, h.held, h.objects, h.host⟩

theorem nest (e : EnvId) :
    (W.nested e).Sees { m with environments := m.environments.nest e } s where
  outline := by rw [Environments.outline_nest, h.outline]; rfl
  globals := by
    obtain ⟨env, he, hl, hs⟩ := h.globals
    have hi : EnvId.global ≠ m.environments.fresh := fun hi => by
      rw [hi, Environments.fresh, Array.getElem?_size] at he
      cases he
    rw [Environments.all_nest, if_neg hi]
    exact ⟨env, he, hl, hs.imp fun _ _ => .extend (W.grows_nested e).toExtends⟩
  cells := h.cells
  places := h.places
  held {cell place} hp := by
    have held := (h.held hp).extend (W.grows_nested e).toExtends
    obtain ⟨hg, env, name, v, v', he, rest⟩ := held
    have hi : place.1 ≠ m.environments.fresh := fun hi => by
      rw [hi, Environments.fresh, Array.getElem?_size] at he
      cases he
    exact ⟨hg, env, name, v, v', by rw [Environments.all_nest, if_neg hi, he], rest⟩
  objects := h.objects.imp fun _ _ hf => hf.imp fun _ _ => .extend (W.grows_nested e).toExtends
  host := h.host

/-- A local variable is declared. -/
theorem declare {e : EnvId} {link : Option EnvId} {names : List String} {name : String}
    (he : W.outline[e]? = some (link, names)) (hg : e ≠ .global) (fresh : name ∉ names)
    {v : Option (Value RefId EnvId)} {v' : Option (Value RefId Locals)}
    (hv : Option.Rel W.Values v v') (hs : Special name v) :
    ((W.declared e name).placed (e, names.length)).Sees
      { m with environments := m.environments.define e name v } { s with cells := s.cells.push v' } := by
  have grows := ((W.grows_declared e name).trans (grows_placed _ (e, names.length))).toExtends
  obtain ⟨env, hm, hl, hn⟩ := h.environment he
  have length : env.entries.length = names.length := by rw [← hn, Environment.names, List.length_map]
  have entries : (env.define name v).entries = env.entries ++ [(name, v)] :=
    Environment.entries_define_of_notMem (hn ▸ fresh) v
  have slots {cell : Cell} {place : EnvId × Nat} (hp : W.places[cell]? = some place) :
      place ≠ (e, names.length) := by
    rintro rfl
    obtain ⟨_, env', x, w, w', hm', hx, _⟩ := h.held hp
    obtain rfl : env = env' := Option.some.inj (hm.symm.trans hm')
    rw [← length, List.getElem?_eq_none (Nat.le_refl _)] at hx
    cases hx
  constructor
  · rw [Environments.outline_define, h.outline]
    rfl
  · obtain ⟨global, hm, hl, hs⟩ := h.globals
    rw [Environments.all_define, if_neg hg]
    exact ⟨global, hm, hl, hs.imp fun _ _ => .extend grows⟩
  · simp [placed, declared, h.cells]
  · change (W.places ++ [(e, names.length)]).Nodup
    rw [List.nodup_append]
    refine ⟨h.places, List.pairwise_singleton _ _, fun p hp q hq => ?_⟩
    obtain ⟨cell, hc⟩ := List.getElem?_of_mem hp
    rw [List.mem_singleton.mp hq]
    exact slots hc
  · intro cell place hp
    change (W.places ++ [(e, names.length)])[cell]? = some place at hp
    by_cases hc : cell < W.places.length
    · rw [List.getElem?_append_left hc] at hp
      exact ((h.held hp).extend grows).declare hm (hn ▸ fresh) v v'
    · rw [List.getElem?_append_right (Nat.le_of_not_lt hc), List.getElem?_singleton] at hp
      obtain ⟨hl, hp⟩ := Option.ite_none_right_eq_some.mp hp
      obtain rfl := Option.some.inj hp
      refine ⟨hg, env.define name v, name, v, v', ?_, ?_, ?_, hv.imp fun _ _ hv => hv.extend grows, hs⟩
      · rw [Environments.all_define, if_pos rfl, hm]
        rfl
      · rw [entries, ← length, List.getElem?_concat_length]
      · have last : cell = W.places.length := Nat.le_antisymm (Nat.sub_eq_zero_iff_le.mp hl)
          (Nat.le_of_not_lt hc)
        rw [last, ← h.cells, Array.getElem?_push_size]
  · exact h.objects.imp fun _ _ hf => hf.imp fun _ _ => .extend grows
  · exact h.host

/-- A local variable gets a value. -/
theorem put {cell : Cell} {e : EnvId} {slot : Nat} (hp : W.places[cell]? = some (e, slot))
    {link : Option EnvId} {names : List String} (he : W.outline[e]? = some (link, names))
    {name : String} (hn : names[slot]? = some name) {v : Value RefId EnvId} {v' : Value RefId Locals}
    (hv : W.Values v v') (hs : Special name (some v)) :
    W.Sees { m with environments := m.environments.put e slot v }
      { s with cells := s.cells.setIfInBounds cell (some v') } where
  outline := by rw [Environments.outline_put, h.outline]
  globals := by
    obtain ⟨global, hm, rest⟩ := h.globals
    rw [Environments.all_put, if_neg (h.held hp).1]
    exact ⟨global, hm, rest⟩
  cells := by rw [Array.size_setIfInBounds, h.cells]
  places := h.places
  held {other place} ho := by
    obtain ⟨hg, env, x, w, w', hm, hx, hc, rest⟩ := h.held ho
    by_cases hi : cell = other
    · subst hi
      obtain rfl : (e, slot) = place := Option.some.inj (hp.symm.trans ho)
      refine ⟨hg, env.putSlot slot (some v), x, some v, some v', ?_, ?_, ?_, .some hv, ?_⟩
      · rw [Environments.all_put, if_pos rfl, hm]
        rfl
      · exact Environment.entries_putSlot_self hx (some v)
      · rw [Array.getElem?_setIfInBounds_self_of_lt (Array.getElem?_eq_some_iff.mp hc).1]
      · obtain ⟨env', hm', _, names'⟩ := h.environment he
        obtain rfl : env' = env := Option.some.inj (hm'.symm.trans hm)
        have hx' : env'.names[slot]? = some x := by
          rw [Environment.names, List.getElem?_map, hx]
          rfl
        rw [names', hn] at hx'
        exact Option.some.inj hx' ▸ hs
    · have untouched : (s.cells.setIfInBounds cell (some v'))[other]? = some w' := by
        rw [Array.getElem?_setIfInBounds_ne hi, hc]
      by_cases hj : e = place.1
      · have slots : slot ≠ place.2 := by
          rintro rfl
          have same : (e, place.2) = place := by rw [hj]
          exact hi ((List.getElem?_inj (List.getElem?_eq_some_iff.mp hp).1 h.places).mp
            (hp.trans (same ▸ ho.symm)))
        refine ⟨hg, env.putSlot slot (some v), x, w, w', ?_, ?_, untouched, rest⟩
        · rw [Environments.all_put, if_pos hj, hm]
          rfl
        · exact (List.getElem?_modify_ne _ _ slots).trans hx
      · exact ⟨hg, env, x, w, w', by rw [Environments.all_put, if_neg hj, hm], hx, untouched, rest⟩
  objects := h.objects
  host := h.host

/-- A global variable gets a value. -/
theorem putGlobal (slot : Nat) {v : Value RefId EnvId} {v' : Value RefId Locals} (hv : W.Values v v') :
    W.Sees { m with environments := m.environments.put .global slot v }
      { s with globals := s.globals.putSlot slot (some v') } where
  outline := by rw [Environments.outline_put, h.outline]
  globals := by
    obtain ⟨global, hm, hl, hs⟩ := h.globals
    refine ⟨global.putSlot slot (some v), ?_, hl, ?_⟩
    · rw [Environments.all_put, if_pos rfl, hm]
      rfl
    · exact hs.modify slot fun x y hx => ⟨hx.1, .some hv⟩
  cells := h.cells
  places := h.places
  held {cell place} hp := by
    obtain ⟨hg, env, x, w, w', hm, rest⟩ := h.held hp
    exact ⟨hg, env, x, w, w', by rw [Environments.all_put, if_neg hg.symm, hm], rest⟩
  objects := h.objects
  host := h.host

/-- A global variable is declared, with a value or without one. -/
theorem defineGlobal (name : String) {v : Option (Value RefId EnvId)}
    {v' : Option (Value RefId Locals)} (hv : Option.Rel W.Values v v') :
    (W.declared .global name).Sees { m with environments := m.environments.define .global name v }
      { s with globals := s.globals.define name v' } where
  outline := by rw [Environments.outline_define, h.outline]; rfl
  globals := by
    have grows := (W.grows_declared .global name).toExtends
    obtain ⟨global, hm, hl, hs⟩ := h.globals
    refine ⟨global.define name v, ?_, (global.enclosing_define name v).trans hl, ?_⟩
    · rw [Environments.all_define, if_pos rfl, hm]
      rfl
    · have hs : List.Forall₂ (W.declared .global name).Entries global.entries s.globals.entries :=
        hs.imp fun _ _ => Entries.extend grows
      have hv : Option.Rel (W.declared .global name).Values v v' :=
        hv.imp fun _ _ hv => hv.extend grows
      simp only [Environment.define, Entries.slot?_eq hs]
      cases global.slot? name with
      | some slot => exact hs.modify slot fun x y hx => ⟨hx.1, hv⟩
      | none => exact hs.concat ⟨rfl, hv⟩
  cells := h.cells
  places := h.places
  held {cell place} hp := by
    obtain ⟨hg, env, x, w, w', hm, rest⟩ :=
      (h.held hp).extend (W.grows_declared .global name).toExtends
    exact ⟨hg, env, x, w, w', by rw [Environments.all_define, if_neg hg.symm, hm], rest⟩
  objects := h.objects.imp fun _ _ hf =>
    hf.imp fun _ _ => .extend (W.grows_declared .global name).toExtends
  host := h.host

theorem newObject : W.Sees { m with objects := m.objects.push [] }
    { s with objects := s.objects.push [] } where
  outline := h.outline
  globals := h.globals
  cells := h.cells
  places := h.places
  held := h.held
  objects := by
    rw [Array.toList_push, Array.toList_push]
    exact h.objects.concat .nil
  host := h.host

theorem size_objects : s.objects.size = m.objects.size := by
  rw [← Array.length_toList, ← Array.length_toList]
  exact h.objects.length_eq.symm

theorem setField (id : ObjectId) (name : String) {v : Value RefId EnvId} {v' : Value RefId Locals}
    (hv : W.Values v v') :
    W.Sees { m with objects := m.objects.modify id (Lox.Fields.insert name v) }
      { s with objects := s.objects.modify id (Lox.Fields.insert name v') } where
  outline := h.outline
  globals := h.globals
  cells := h.cells
  places := h.places
  held := h.held
  objects := by
    rw [Array.toList_modify, Array.toList_modify]
    exact h.objects.modify id fun _ _ hf => Fields.insert hf name hv
  host := h.host

theorem field? (id : ObjectId) (name : String) :
    Option.Rel W.Values (m.field? id name) (s.field? id name) := by
  have fields := h.objects.rel_getElem? id
  rw [Array.getElem?_toList, Array.getElem?_toList] at fields
  unfold Machine.field? Lexical.Store.field?
  generalize m.objects[id]? = xs, s.objects[id]? = ys at fields
  cases fields with
  | some hf => exact Fields.lookup hf name
  | none => exact .none

theorem setHost (host : Host) : W.Sees { m with host } { s with host } :=
  ⟨h.outline, h.globals, h.cells, h.places, h.held, h.objects, rfl⟩

end Sees

/-- What machine and store hold of a variable: where it is, and its value. -/
structure Held (W : World) (m : Machine RefId) (s : Lexical.Store RefId) (name : String) (b : Binding)
    (cell : Cell) (e : EnvId) (v : Option (Value RefId EnvId)) (v' : Option (Value RefId Locals)) :
    Prop where
  ancestor : m.environments.ancestor? m.scope b.distance = some e
  entry : ∃ env, m.environments.all[e]? = some env ∧ env.entries[b.slot]? = some (name, v)
  place : W.places[cell]? = some (e, b.slot)
  cell : s.cells[cell]? = some v'
  values : Option.Rel W.Values v v'
  special : Special name v

theorem Sees.find {m : Machine RefId} {s : Lexical.Store RefId} (h : W.Sees m s) {name : String}
    {b : Binding} {cell : Cell} (hf : W.Finds m.scope name b cell) :
    ∃ e v v', W.Held m s name b cell e v v' := by
  obtain ⟨e, link, names, hu, hp, he, hn⟩ := hf
  obtain ⟨_, env, x, v, v', hm, hx, hc, hv, hs⟩ := h.held hp
  obtain ⟨env', hm', _, rfl⟩ := h.environment he
  obtain rfl : env' = env := Option.some.inj (hm'.symm.trans hm)
  have hx' : env'.names[b.slot]? = some x := by
    rw [Environment.names, List.getElem?_map, hx]
    rfl
  obtain rfl : x = name := Option.some.inj (hx'.symm.trans hn)
  exact ⟨e, v, v', (ancestor?_eq h.outline _ _).trans hu, ⟨env', hm, hx⟩, hp, hc, hv, hs⟩

namespace Held

variable {m : Machine RefId} {s : Lexical.Store RefId} {name : String} {b : Binding} {cell : Cell}
  {e : EnvId} {v : Option (Value RefId EnvId)} {v' : Option (Value RefId Locals)}
  (h : W.Held m s name b cell e v v')

include h

theorem place? (x : String) : m.place? (some b) x = some (e, b.slot) := by
  obtain ⟨env, he, hx⟩ := h.entry
  have slot : m.environments.hasSlot e b.slot = true := by
    rw [Environments.hasSlot, he]
    exact decide_eq_true (List.getElem?_eq_some_iff.mp hx).1
  simp only [Machine.place?, h.ancestor, Option.bind_some, slot, if_true]

theorem getSlot : m.environments.getSlot e b.slot = .ofOption v := by
  obtain ⟨env, he, hx⟩ := h.entry
  rw [Environments.getSlot, he]
  exact Environment.getSlot_eq hx

theorem getAt : m.environments.getAt m.scope b.distance b.slot = .ofOption v := by
  rw [Environments.getAt, h.ancestor]
  exact h.getSlot

theorem value? {locals : Locals} (hl : locals.lookup name = some cell) :
    s.value? locals name = v' := by
  rw [Lexical.Store.value?, hl, Option.bind_some, h.cell]
  rfl

theorem put (hs : W.Sees m s) {w : Value RefId EnvId} {w' : Value RefId Locals} (hw : W.Values w w')
    (special : Special name (some w)) :
    W.Sees { m with environments := m.environments.put e b.slot w }
      { s with cells := s.cells.setIfInBounds cell (some w') } := by
  obtain ⟨env, he, hx⟩ := h.entry
  have outline : W.outline[e]? = some (env.enclosing, env.names) := by
    rw [← hs.outline, m.environments.outline_get, he]
    rfl
  have names : env.names[b.slot]? = some name := by
    rw [Environment.names, List.getElem?_map, hx]
    rfl
  exact hs.put h.place outline names hw special

end Held

end World

end Lox
