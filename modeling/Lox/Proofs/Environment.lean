import Lox.Environment
import Mathlib.Data.List.Nodup

/-!
What the operations on environments leave in each of them. A definition gives its name a value and
changes nothing else; no operation takes an environment away.
-/

namespace Lox

variable {α : Type}

/-- What is known of a variable that was declared with a value or without one. -/
def Lookup.ofOption : Option α → Lookup α
  | none => .unassigned
  | some a => .found a

namespace Environment

theorem getSlot_eq {e : Environment α} {slot : Nat} {name : String} {a : Option α}
    (h : e.entries[slot]? = some (name, a)) : e.getSlot slot = .ofOption a := by
  rw [getSlot, h]
  cases a <;> rfl

@[simp] theorem names_putSlot (e : Environment α) (slot : Nat) (a : Option α) :
    (e.putSlot slot a).names = e.names := by
  apply List.ext_getElem?
  intro i
  simp only [names, putSlot, List.getElem?_map, List.getElem?_modify]
  split
  · cases e.entries[i]? <;> rfl
  · simp

theorem slot?_names (e : Environment α) (name : String) :
    e.slot? name = e.names.findIdx? (· == name) := by
  rw [names, List.findIdx?_map]
  rfl

theorem slot?_putSlot (e : Environment α) (slot : Nat) (a : Option α) (name : String) :
    (e.putSlot slot a).slot? name = e.slot? name := by
  rw [slot?_names, slot?_names, names_putSlot]

theorem exists_of_slot? {e : Environment α} {name : String} {slot : Nat}
    (h : e.slot? name = some slot) : ∃ a, e.entries[slot]? = some (name, a) := by
  obtain ⟨hl, hn, _⟩ := List.findIdx?_eq_some_iff_getElem.mp h
  refine ⟨e.entries[slot].2, ?_⟩
  rw [List.getElem?_eq_getElem hl, ← beq_iff_eq.mp hn]

theorem name_of_slot? {e : Environment α} {name : String} {slot : Nat}
    (h : e.slot? name = some slot) : e.names[slot]? = some name := by
  obtain ⟨a, ha⟩ := exists_of_slot? h
  rw [names, List.getElem?_map, ha]
  rfl

theorem slot?_eq_none_iff {e : Environment α} {name : String} :
    e.slot? name = none ↔ name ∉ e.names := by
  rw [slot?_names, List.findIdx?_eq_none_iff]
  constructor
  · intro h hm
    simpa using h name hm
  · exact fun h x hx => beq_eq_false_iff_ne.mpr fun he => h (he ▸ hx)

/-- Where no name is there twice, slots are counted along the names. -/
theorem slot?_eq_some_iff {e : Environment α} (h : e.names.Nodup) {name : String} {slot : Nat} :
    e.slot? name = some slot ↔ e.names[slot]? = some name := by
  refine ⟨name_of_slot?, fun hn => ?_⟩
  obtain ⟨hl, he⟩ := List.getElem?_eq_some_iff.mp hn
  rw [slot?_names, List.findIdx?_eq_some_iff_getElem]
  refine ⟨hl, beq_iff_eq.mpr he, fun i hi same => ?_⟩
  have first : e.names[i] = e.names[slot] := (beq_iff_eq.mp same).trans he.symm
  exact Nat.ne_of_lt hi (h.getElem_inj_iff.mp first)

theorem getSlot_eq_get {e : Environment α} (h : e.names.Nodup) (slot : Nat) :
    e.getSlot slot = (e.names[slot]?.map e.get).getD .missing := by
  cases hn : e.names[slot]? with
  | none =>
    have hl : e.entries[slot]? = none := by simpa [names] using hn
    rw [getSlot, hl]
    rfl
  | some name =>
    rw [Option.map_some, Option.getD_some, get, (slot?_eq_some_iff h).mpr hn]

theorem entries_putSlot_self {e : Environment α} {slot : Nat} {name : String} {a : Option α}
    (h : e.entries[slot]? = some (name, a)) (b : Option α) :
    (e.putSlot slot b).entries[slot]? = some (name, b) := by
  simp only [putSlot, List.getElem?_modify_eq, h]
  rfl

/-- To store something in the slot of a name is to define the name again. -/
theorem putSlot_eq_define {e : Environment α} {name : String} {slot : Nat}
    (h : e.slot? name = some slot) (a : Option α) : e.putSlot slot a = e.define name a := by
  simp only [define, h]

theorem names_define (e : Environment α) (name : String) (a : Option α) :
    (e.define name a).names = if name ∈ e.names then e.names else e.names ++ [name] := by
  unfold define
  cases h : e.slot? name with
  | some slot =>
    rw [if_pos (List.mem_of_getElem? (name_of_slot? h))]
    exact e.names_putSlot slot a
  | none =>
    rw [if_neg (slot?_eq_none_iff.mp h), names, List.map_append]
    rfl

/-- A definition keeps the slot of its name, or takes the next one. -/
theorem slot?_define (e : Environment α) (name : String) (a : Option α) :
    (e.define name a).slot? name = some (e.slotFor name) := by
  unfold define slotFor
  cases h : e.slot? name with
  | some slot => exact (slot?_putSlot e slot a name).trans h
  | none =>
    have h : e.entries.findIdx? (·.1 == name) = none := h
    simp [slot?, List.findIdx?_append, h]

theorem get_putSlot {e : Environment α} {name : String} {slot : Nat} (h : e.slot? name = some slot)
    (a : Option α) : (e.putSlot slot a).get name = .ofOption a := by
  obtain ⟨b, hb⟩ := exists_of_slot? h
  rw [get, slot?_putSlot, h]
  exact getSlot_eq (entries_putSlot_self hb a)

/-- A definition gives its name the value. -/
theorem get_define (e : Environment α) (name : String) (a : Option α) :
    (e.define name a).get name = .ofOption a := by
  cases h : e.slot? name with
  | some slot =>
    have hd : e.define name a = e.putSlot slot a := by simp only [define, h]
    rw [hd]
    exact get_putSlot h a
  | none =>
    have hd : e.define name a = { e with entries := e.entries ++ [(name, a)] } := by
      simp only [define, h]
    have hs : e.slotFor name = e.entries.length := by rw [slotFor, h, Option.getD_none]
    rw [get, slot?_define, hs, hd]
    exact getSlot_eq List.getElem?_concat_length

theorem slot?_define_of_ne (e : Environment α) {name other : String} (h : other ≠ name)
    (a : Option α) : (e.define name a).slot? other = e.slot? other := by
  rw [slot?_names, slot?_names, names_define]
  split
  · rfl
  · simp [List.findIdx?_append, Ne.symm h]

/-- A definition keeps what is in the other slots. -/
theorem getSlot_define_of_ne (e : Environment α) {name : String} {slot : Nat}
    (h : e.slotFor name ≠ slot) (a : Option α) : (e.define name a).getSlot slot = e.getSlot slot := by
  have same : (e.define name a).entries[slot]? = e.entries[slot]? := by
    cases hs : e.slot? name with
    | some i =>
      rw [slotFor, hs, Option.getD_some] at h
      simp only [define, hs, putSlot, List.getElem?_modify, if_neg h, Option.map_eq_map,
        Option.map_id']
    | none =>
      rw [slotFor, hs, Option.getD_none] at h
      simp only [define, hs, List.getElem?_append]
      split
      · rfl
      · rw [List.getElem?_eq_none (by simp; omega), List.getElem?_eq_none (by omega)]
  rw [getSlot, getSlot, same]

/-- A definition keeps what the other names stand for. -/
theorem get_define_of_ne (e : Environment α) {name other : String} (h : other ≠ name)
    (a : Option α) : (e.define name a).get other = e.get other := by
  have kept := e.slot?_define_of_ne h a
  rw [get, get, kept]
  cases ho : e.slot? other with
  | none => rfl
  | some slot =>
    refine e.getSlot_define_of_ne (fun hs => h ?_) a
    have hn := name_of_slot? (e.slot?_define name a)
    rw [hs, name_of_slot? (kept.trans ho)] at hn
    exact Option.some.inj hn

end Environment

namespace Environments

variable {s : Environments α} {e i : EnvId}

theorem all_modify (s : Environments α) (e i : EnvId) (f : Environment α → Environment α) :
    (s.modify e f).all[i]? = if e = i then s.all[i]?.map f else s.all[i]? := by
  rw [modify, Array.getElem?_modify]

theorem all_define (s : Environments α) (e i : EnvId) (name : String) (a : Option α) :
    (s.define e name a).all[i]? =
      if e = i then s.all[i]?.map (·.define name a) else s.all[i]? :=
  s.all_modify e i _

theorem all_put (s : Environments α) (e i : EnvId) (slot : Nat) (a : α) :
    (s.put e slot a).all[i]? =
      if e = i then s.all[i]?.map (·.putSlot slot (some a)) else s.all[i]? :=
  s.all_modify e i _

theorem all_nest (s : Environments α) (e i : EnvId) :
    (s.nest e).all[i]? = if i = s.fresh then some { enclosing := some e } else s.all[i]? := by
  rw [nest, Array.getElem?_push]
  rfl

theorem put_eq_define {name : String} {slot : Nat} (h : s.slot? e name = some slot) (a : α) :
    s.put e slot a = s.define e name (some a) := by
  obtain ⟨env, he, hs⟩ := Option.bind_eq_some_iff.mp h
  suffices same : (s.put e slot a).all = (s.define e name (some a)).all from congrArg mk same
  apply Array.ext_getElem?
  intro i
  rw [all_put, all_define]
  by_cases hi : e = i
  · subst hi
    rw [if_pos rfl, if_pos rfl, he, Option.map_some, Option.map_some,
      Environment.putSlot_eq_define hs]
  · rw [if_neg hi, if_neg hi]

theorem all_nest_of_lt (h : i < s.all.size) (e : EnvId) : (s.nest e).all[i]? = s.all[i]? := by
  rw [all_nest]
  exact if_neg (Nat.ne_of_lt h)

/-- The new environment was not there, and is empty. -/
theorem all_nest_cases (s : Environments α) (e i : EnvId) : (s.nest e).all[i]? = s.all[i]? ∨
    s.all[i]? = none ∧ (s.nest e).all[i]? = some { enclosing := some e } := by
  rw [all_nest]
  split
  · next new => exact .inr ⟨new ▸ Array.getElem?_size, rfl⟩
  · exact .inl rfl

theorem slot?_nest (s : Environments α) (e i : EnvId) (name : String) :
    (s.nest e).slot? i name = s.slot? i name := by
  obtain h | ⟨h, h'⟩ := s.all_nest_cases e i
  · rw [slot?, slot?, h]
  · rw [slot?, slot?, h, h']
    rfl

theorem get_nest (s : Environments α) (e i : EnvId) (name : String) :
    (s.nest e).get i name = s.get i name := by
  obtain h | ⟨h, h'⟩ := s.all_nest_cases e i
  · rw [get, get, h]
  · rw [get, get, h, h']
    rfl

theorem getSlot_nest (s : Environments α) (e i : EnvId) (slot : Nat) :
    (s.nest e).getSlot i slot = s.getSlot i slot := by
  obtain h | ⟨h, h'⟩ := s.all_nest_cases e i
  · rw [getSlot, getSlot, h]
  · rw [getSlot, getSlot, h, h']
    rfl

theorem size_modify (s : Environments α) (e : EnvId) (f : Environment α → Environment α) :
    (s.modify e f).all.size = s.all.size := Array.size_modify

theorem size_nest (s : Environments α) (e : EnvId) : (s.nest e).all.size = s.all.size + 1 :=
  Array.size_push _

theorem slotFor_eq (he : e < s.all.size) (name : String) :
    s.slotFor e name = s.all[e].slotFor name := by
  rw [slotFor, Array.getElem?_eq_getElem he]
  rfl

theorem get_define (he : e < s.all.size) (name : String) (a : Option α) :
    (s.define e name a).get e name = .ofOption a := by
  rw [get, all_define, if_pos rfl, Array.getElem?_eq_getElem he]
  exact Environment.get_define _ name a

theorem slot?_define (he : e < s.all.size) (name : String) (a : Option α) :
    (s.define e name a).slot? e name = some (s.slotFor e name) := by
  rw [slot?, all_define, if_pos rfl, slotFor_eq he, Array.getElem?_eq_getElem he]
  exact Environment.slot?_define _ name a

/-! A definition keeps what it does not define. -/

theorem map_all_define {β : Type} {f : Environment α → β} {name : String} {a : Option α}
    (h : ∀ env, e = i → s.all[i]? = some env → f (env.define name a) = f env) :
    (s.define e name a).all[i]?.map f = s.all[i]?.map f := by
  rw [all_define]
  split
  · next hi =>
    cases he : s.all[i]? with
    | none => rfl
    | some env => exact congrArg some (h env hi he)
  · rfl

theorem slot?_define_of_ne {name other : String} (h : i ≠ e ∨ other ≠ name) (a : Option α) :
    (s.define e name a).slot? i other = s.slot? i other := by
  have kept : (s.define e name a).all[i]?.map (·.slot? other) = s.all[i]?.map (·.slot? other) :=
    map_all_define fun env hi _ => env.slot?_define_of_ne (h.resolve_left (not_not.mpr hi.symm)) a
  simpa only [slot?, Option.bind_map, Function.id_comp] using congrArg (·.bind id) kept

theorem get_define_of_ne {name other : String} (h : i ≠ e ∨ other ≠ name) (a : Option α) :
    (s.define e name a).get i other = s.get i other := by
  rw [get, get, map_all_define]
  exact fun env hi _ => env.get_define_of_ne (h.resolve_left (not_not.mpr hi.symm)) a

theorem getSlot_define_of_ne {name : String} {slot : Nat} (h : i ≠ e ∨ s.slotFor e name ≠ slot)
    (a : Option α) : (s.define e name a).getSlot i slot = s.getSlot i slot := by
  rw [getSlot, getSlot, map_all_define]
  rintro env rfl he
  have hs := h.resolve_left (not_not.mpr rfl)
  rw [slotFor, he] at hs
  exact env.getSlot_define_of_ne hs a

end Environments

end Lox
