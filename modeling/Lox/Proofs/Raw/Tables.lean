import Lox.Proofs.Environment
import Mathlib.Logic.Function.Basic

/-!
Environments as two tables, one from names to slots and one from slots to values. Nothing in the tables
themselves says that the slot of a name is there, so an operation that goes from a name to its value may
miss. The tables that operations lead to, one after another, are those of environments, and there the
slots of all names are.
-/

namespace Lox

variable {α : Type}

structure Tables (α : Type) where
  slots : List (Option α) := []
  names : String → Option Nat := fun _ => none
  enclosing : Option EnvId := none

namespace Tables

/-- Replaces what is in a slot, if the slot is there. -/
def store? (t : Tables α) (slot : Nat) (a : Option α) : Option (Tables α) :=
  if slot < t.slots.length then some { t with slots := t.slots.set slot a } else none

/-- Declares a name, and answers its slot. A name that has one must have it in the other table. -/
def define? (t : Tables α) (name : String) (a : Option α) : Option (Nat × Tables α) :=
  match t.names name with
  | some slot => (t.store? slot a).map (slot, ·)
  | none => some (t.slots.length, { t with
      slots := t.slots ++ [a]
      names := Function.update t.names name (some t.slots.length) })

/-- Assigns to a name, and answers whether it is declared. -/
def assign? (t : Tables α) (name : String) (a : α) : Option (Bool × Tables α) :=
  match t.names name with
  | some slot => (t.store? slot (some a)).map (true, ·)
  | none => some (false, t)

/-- Assigns to a slot, and answers whether it is there. -/
def setSlot (t : Tables α) (slot : Nat) (a : α) : Bool × Tables α :=
  match t.store? slot (some a) with
  | some t => (true, t)
  | none => (false, t)

def getSlot (t : Tables α) (slot : Nat) : Lookup α := (t.slots[slot]?.map Lookup.ofOption).getD .missing

def get (t : Tables α) (name : String) : Lookup α := ((t.names name).map t.getSlot).getD .missing

end Tables

namespace Environment

/-- The tables of an environment. -/
def tables (e : Environment α) : Tables α := ⟨e.entries.map (·.2), e.slot?, e.enclosing⟩

theorem tables_empty : ({} : Environment α).tables = {} := rfl

@[simp] theorem getSlot_tables (e : Environment α) (slot : Nat) :
    e.tables.getSlot slot = e.getSlot slot := by
  simp only [Tables.getSlot, getSlot, tables, List.getElem?_map]
  rcases e.entries[slot]? with _ | ⟨name, _ | a⟩ <;> rfl

@[simp] theorem get_tables (e : Environment α) (name : String) :
    e.tables.get name = e.get name := by
  have slots : e.tables.getSlot = e.getSlot := funext e.getSlot_tables
  rw [Tables.get, get, slots]
  simp only [tables]
  cases e.slot? name <;> rfl

theorem slots_putSlot (e : Environment α) (slot : Nat) (a : Option α) :
    (e.putSlot slot a).entries.map (·.2) = (e.entries.map (·.2)).set slot a := by
  apply List.ext_getElem?
  intro i
  simp only [putSlot, List.getElem?_map, List.getElem?_modify, List.getElem?_set, List.length_map]
  by_cases hi : slot = i
  · subst hi
    by_cases hl : slot < e.entries.length <;> simp [hl]
  · simp [hi]

theorem store?_tables {e : Environment α} {slot : Nat} (h : e.hasSlot slot) (a : Option α) :
    e.tables.store? slot a = some (e.putSlot slot a).tables := by
  have names : (e.putSlot slot a).slot? = e.slot? := funext (slot?_putSlot e slot a)
  have hl : slot < e.tables.slots.length := by
    rw [tables, List.length_map]
    exact of_decide_eq_true h
  rw [Tables.store?, if_pos hl, tables, tables, names, slots_putSlot]
  rfl

theorem setSlot_tables (e : Environment α) (slot : Nat) (a : α) :
    e.tables.setSlot slot a =
      if e.hasSlot slot then (true, (e.putSlot slot (some a)).tables) else (false, e.tables) := by
  by_cases h : e.hasSlot slot
  · rw [Tables.setSlot, store?_tables h, if_pos h]
  · have hl : ¬ slot < e.tables.slots.length := by
      rw [tables, List.length_map]
      exact fun hl => h (decide_eq_true hl)
    rw [Tables.setSlot, Tables.store?, if_neg hl, if_neg h]

theorem hasSlot_of_slot? {e : Environment α} {name : String} {slot : Nat}
    (h : e.slot? name = some slot) : e.hasSlot slot := by
  obtain ⟨a, ha⟩ := exists_of_slot? h
  exact decide_eq_true (List.getElem?_eq_some_iff.mp ha).1

/-- A declaration finds the slot of its name, and leads to the tables of the environment after it. -/
theorem define?_tables (e : Environment α) (name : String) (a : Option α) :
    e.tables.define? name a = some (e.slotFor name, (e.define name a).tables) := by
  have names : e.tables.names = e.slot? := rfl
  cases h : e.slot? name with
  | some slot =>
    have after : e.define name a = e.putSlot slot a := by simp only [define, h]
    simp only [Tables.define?, names, h, store?_tables (hasSlot_of_slot? h), slotFor, after,
      Option.map_some, Option.getD_some]
  | none =>
    have length : e.tables.slots.length = e.entries.length := List.length_map _
    have after : e.define name a = { e with entries := e.entries ++ [(name, a)] } := by
      simp only [define, h]
    have update : ({ e with entries := e.entries ++ [(name, a)] } : Environment α).slot? =
        Function.update e.slot? name (some e.entries.length) := by
      funext other
      by_cases ho : other = name
      · subst ho
        rw [Function.update_self, ← after, slot?_define, slotFor, h, Option.getD_none]
      · have hn : ((name, a).1 == other) = false := beq_eq_false_iff_ne.mpr (Ne.symm ho)
        simp [Function.update_of_ne ho, slot?, List.findIdx?_append, hn]
    simp only [Tables.define?, names, h, slotFor, after, Option.getD_none, length]
    simp only [tables, update, List.map_append]
    rfl

theorem assign?_tables (e : Environment α) (name : String) (a : α) :
    e.tables.assign? name a = some (match e.slot? name with
      | some slot => (true, (e.putSlot slot (some a)).tables)
      | none => (false, e.tables)) := by
  have names : e.tables.names = e.slot? := rfl
  cases h : e.slot? name with
  | some slot =>
    simp only [Tables.assign?, names, h, store?_tables (hasSlot_of_slot? h), Option.map_some]
  | none => simp only [Tables.assign?, names, h]

end Environment

namespace Environments

variable {s : Environments α} {e : EnvId}

def tables (s : Environments α) : Array (Tables α) := s.all.map Environment.tables

theorem tables_empty : ({} : Environments α).tables = #[{}] := by
  simp only [tables, List.map_toArray, List.map_cons, List.map_nil, Environment.tables_empty]

theorem getElem?_tables (s : Environments α) (e : EnvId) :
    s.tables[e]? = s.all[e]?.map Environment.tables := Array.getElem?_map

theorem tables_nest (s : Environments α) (e : EnvId) :
    (s.nest e).tables = s.tables.push { enclosing := some e } := Array.map_push

theorem tables_modify {env : Environment α} (h : s.all[e]? = some env)
    (f : Environment α → Environment α) :
    (s.modify e f).tables = s.tables.setIfInBounds e (f env).tables := by
  apply Array.ext_getElem?
  intro i
  rw [getElem?_tables, all_modify, Array.getElem?_setIfInBounds, getElem?_tables]
  by_cases hi : e = i
  · subst hi
    obtain ⟨hl, he⟩ := Array.getElem?_eq_some_iff.mp h
    have hl : e < s.tables.size := by rwa [tables, Array.size_map]
    rw [if_pos rfl, if_pos rfl, if_pos hl, h]
    rfl
  · rw [if_neg hi, if_neg hi]

theorem tables_modify_of_none (h : s.all[e]? = none) (f : Environment α → Environment α) :
    (s.modify e f).tables = s.tables := by
  apply Array.ext_getElem?
  intro i
  rw [getElem?_tables, all_modify, getElem?_tables]
  split
  · rename_i hi
    rw [← hi, h]
    rfl
  · rfl

theorem setIfInBounds_tables {env : Environment α} (h : s.all[e]? = some env) :
    s.tables.setIfInBounds e env.tables = s.tables := by
  apply Array.ext_getElem?
  intro i
  rw [Array.getElem?_setIfInBounds]
  split
  · rename_i hi
    obtain ⟨hl, -⟩ := Array.getElem?_eq_some_iff.mp h
    have hl : e < s.tables.size := by rwa [tables, Array.size_map]
    rw [if_pos hl, ← hi, getElem?_tables, h]
    rfl
  · rfl

end Environments

end Lox
