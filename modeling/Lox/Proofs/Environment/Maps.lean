import Lox.Proofs.Raw.Operations
import Mathlib.Data.Set.Function

/-!
Environments are maps. Whatever is done with them, the names of an environment are one-to-one with its
slots, in the order of their first definitions; by its name, by its slot and from any environment
inside, a variable is what was stored for it last; and nothing else changes.
-/

namespace Lox

variable {α : Type}

/-- The names of the list are one-to-one with the slots that there are, in their order. -/
def Tables.Numbers (t : Tables α) (names : List String) : Prop :=
  Set.BijOn t.names {name | name ∈ names} (some '' {slot | slot < t.slots.length}) ∧
    ∀ name slot, t.names name = some slot ↔ names[slot]? = some name

theorem Environment.numbers_tables {e : Environment α} (h : e.names.Nodup) :
    e.tables.Numbers e.names := by
  have order (name : String) (slot : Nat) :
      e.tables.names name = some slot ↔ e.names[slot]? = some name := slot?_eq_some_iff h
  have length : e.tables.slots.length = e.names.length := by
    rw [tables, names, List.length_map, List.length_map]
  refine ⟨⟨?_, ?_, ?_⟩, order⟩
  · intro name hn
    obtain ⟨slot, hs⟩ := List.getElem?_of_mem hn
    exact ⟨slot, length ▸ (List.getElem?_eq_some_iff.mp hs).1, ((order name slot).mpr hs).symm⟩
  · intro name hn other _ same
    obtain ⟨slot, hs⟩ := List.getElem?_of_mem hn
    have ho := (order other slot).mp (same ▸ (order name slot).mpr hs)
    exact Option.some.inj (hs.symm.trans ho)
  · rintro _ ⟨slot, hl, rfl⟩
    have hl : slot < e.names.length := length ▸ hl
    exact ⟨_, List.getElem_mem hl, (order _ slot).mpr (List.getElem?_eq_getElem hl)⟩

namespace Environments

variable {past : List (Operation α)} {op : Operation α} {s s' : Environments α} {e : EnvId}

/-- The operation reaches the slot of the name. -/
def Operation.Reaches (past : List (Operation α)) (op : Operation α) (e : EnvId) (name : String) :
    Prop := ∃ a, op.store? past = some (e, name, a)

/-- No other name, slot or environment is changed. -/
structure KeepsBut (reached : EnvId → String → Prop) (s s' : Environments α) : Prop where
  names : ∀ e name, ¬ reached e name →
    s'.slot? e name = s.slot? e name ∧ s'.get e name = s.get e name
  slots : ∀ e slot, (∀ name, reached e name → s'.slot? e name ≠ some slot) →
    s'.getSlot e slot = s.getSlot e slot
  environments : ∀ e env, s.all[e]? = some env → (∀ name, ¬ reached e name) →
    s'.all[e]? = some env

theorem Effect.keepsBut (hs : Follows past s) (h : Possible (op :: past))
    (effect : Effect past s op s') : KeepsBut (op.Reaches past) s s' := by
  cases effect with
  | nests up =>
    refine ⟨fun i n _ => ⟨slot?_nest s up i n, get_nest s up i n⟩, fun i slot _ => ?_, ?_⟩
    · exact getSlot_nest s up i slot
    · intro i env he _
      rw [all_nest_of_lt (Array.getElem?_eq_some_iff.mp he).1, he]
  | rests => exact ⟨fun _ _ _ => ⟨rfl, rfl⟩, fun _ _ _ => rfl, fun _ _ he _ => he⟩
  | @stores _ x ho apart =>
    obtain ⟨e, name, a⟩ := x
    change KeepsBut _ s (s.define e name a)
    have other {i : EnvId} {n : String} (hn : ¬ op.Reaches past i n) : i ≠ e ∨ n ≠ name := by
      by_contra same
      obtain ⟨rfl, rfl⟩ : i = e ∧ n = name := by simpa only [not_or, not_not] using same
      exact hn ⟨a, ho⟩
    refine ⟨fun i n hn => ⟨?_, ?_⟩, fun i slot hn => ?_, fun i env he hn => ?_⟩
    · exact slot?_define_of_ne (other hn) a
    · exact get_define_of_ne (other hn) a
    · refine getSlot_define_of_ne ?_ a
      by_cases hi : i = e
      · subst hi
        -- A definition stores in the slot that its name has afterwards.
        refine .inr fun taken => hn name ⟨a, ho⟩ ?_
        rw [slot?_define (hs.size ▸ store?_lt h ho), taken]
      · exact .inl hi
    · rw [all_define, if_neg]
      · exact he
      · rintro rfl
        exact hn name ⟨a, ho⟩

theorem behind_tables (h : Possible past) : Tables.behind? past = some (behind past).tables := by
  induction past with
  | nil => exact congrArg some tables_empty.symm
  | cons op past ih =>
    rw [Tables.behind?, ih h.2, Option.bind_some, (follows_behind h.2).perform?_tables h]
    rfl

/-- Names keep their slots. -/
theorem slot?_behind_append (later : List (Operation α)) (h : Possible past)
    (hl : Possible (later ++ past)) {name : String} {slot : Nat}
    (hs : (behind past).slot? e name = some slot) :
    (behind (later ++ past)).slot? e name = some slot := by
  rw [(follows_behind h).slot?_eq_some_iff h] at hs
  obtain ⟨more, hm⟩ := defined_append_extends e later past
  rw [(follows_behind hl).slot?_eq_some_iff hl, ← hm, List.getElem?_append_left, hs]
  exact (List.getElem?_eq_some_iff.mp hs).1

/-- What was stored for a name is known as soon as the name is defined. -/
theorem isSome_stored? {name : String} : (stored? e name past).isSome ↔ name ∈ defined e past := by
  induction past with
  | nil => exact iff_of_false Bool.false_ne_true List.not_mem_nil
  | cons op past ih =>
    rw [stored?]
    cases ho : op.store? past with
    | none => rw [defined_of_rest ho, ← ih]
    | some x =>
      obtain ⟨i, other, a⟩ := x
      rw [defined_of_store ho]
      dsimp only
      by_cases reached : i = e ∧ other = name
      · obtain ⟨rfl, rfl⟩ := reached
        by_cases hn : other ∈ defined i past <;> simp [hn]
      · rw [if_neg reached, ih]
        split
        · next fresh =>
          obtain ⟨rfl, -⟩ := fresh
          have apart : name ≠ other := fun hn => reached ⟨rfl, hn.symm⟩
          simp [apart]
        · exact Iff.rfl

theorem settle_unchanged {after : Option (Environments α)}
    (hr : (s.settle after).1 = .assigned false ∨ (s.settle after).1 = .known .missing) :
    (s.settle after).2 = s := by
  cases after with
  | none => rfl
  | some after => simp [settle] at hr

/-- A reply that something is not there means that nothing was done. -/
theorem perform_unchanged
    (hr : (s.perform op).1 = .assigned false ∨ (s.perform op).1 = .known .missing) :
    (s.perform op).2 = s := by
  cases op with
  | nest | define => simp [perform] at hr
  | get | getSlot | getAt => rfl
  | assign | setSlot | assignAt => exact settle_unchanged hr

theorem Follows.assigned (hs : Follows past s) (h : Possible past) {done : Bool}
    (hr : (s.perform op).1 = .assigned done) : done = (op.store? past).isSome := by
  have settled {after : Option (Environments α)} (ha : after = (op.store? past).map s.enter)
      (hr : (s.settle after).1 = .assigned done) : done = (op.store? past).isSome := by
    cases hr
    rw [ha, Option.isSome_map]
  cases op with
  | nest | define | get | getSlot | getAt => cases hr
  | assign e name a => exact settled (hs.assign?_eq h e name a) hr
  | setSlot e slot a => exact settled (hs.setSlot?_eq h e slot a) hr
  | assignAt e distance slot a => exact settled (hs.assignAt?_eq h e distance slot a) hr

/-- Environments are maps, whatever has been done with them. Their tables never miss and are linked as the
operations say, and the names of each one are one-to-one with its slots, in the order of their first
definitions, and keep them. By its name, by its slot and from any environment inside, a variable is what
the last operation that reached it stored. An operation that finds nothing does nothing, and every
operation changes only what it reaches. -/
theorem maps_faithful (h : Possible past) :
    (Tables.behind? past = some (behind past).tables ∧
      (behind past).all.toList.map (·.enclosing) = links past ∧
      ∀ e (t : Tables α), (behind past).tables[e]? = some t → t.Numbers (defined e past)) ∧
    (∀ later e name slot, Possible (later ++ past) → (behind past).slot? e name = some slot →
      (behind (later ++ past)).slot? e name = some slot) ∧
    ((∀ e name, (stored? e name past).isSome ↔ name ∈ defined e past) ∧
      (∀ e name, (behind past).get e name = .ofStored (stored? e name past)) ∧
      (∀ e slot, (behind past).getSlot e slot =
        .ofStored ((defined e past)[slot]?.bind (stored? e · past))) ∧
      ∀ e distance slot, (behind past).getAt e distance slot = .ofStored
        ((above? past e distance).bind fun e => (defined e past)[slot]?.bind (stored? e · past))) ∧
    ∀ op reply after, Possible (op :: past) → (behind past).perform op = (reply, after) →
      Tables.perform? (behind past).tables op = some (reply, after.tables) ∧
      (∀ done, reply = .assigned done → (done = true ↔ ∃ e name, op.Reaches past e name)) ∧
      (reply = .assigned false ∨ reply = .known .missing → after = behind past) ∧
      KeepsBut (op.Reaches past) (behind past) after := by
  have follows := follows_behind h
  refine ⟨⟨behind_tables h, follows.links, ?_⟩, ?_, ⟨?_, follows.values, follows.getSlot_eq h,
    follows.getAt_eq h⟩, ?_⟩
  · intro e t ht
    obtain ⟨env, he, rfl⟩ := Option.map_eq_some_iff.mp (getElem?_tables _ e ▸ ht)
    have named := follows.names he
    exact named ▸ Environment.numbers_tables (named ▸ nodup_defined e past)
  · exact fun later e name slot hl hs => slot?_behind_append later h hl hs
  · exact fun e name => isSome_stored?
  · intro op reply after ho hp
    have hr : ((behind past).perform op).1 = reply := congrArg Prod.fst hp
    have ha : ((behind past).perform op).2 = after := congrArg Prod.snd hp
    subst hr ha
    refine ⟨follows.perform?_tables ho, ?_, perform_unchanged,
      (follows.effect h op).keepsBut follows ho⟩
    intro done hr
    rw [follows.assigned h hr, Option.isSome_iff_exists]
    constructor
    · rintro ⟨⟨e, name, a⟩, ha⟩
      exact ⟨e, name, a, ha⟩
    · rintro ⟨e, name, a, ha⟩
      exact ⟨_, ha⟩

section Instance

/-- A variable of the middle one of three environments, which is assigned to from inside. -/
def assignedInside : List (Operation Nat) :=
  [.assignAt 2 1 0 7, .nest 1, .define 1 "y" none, .nest 0, .define 0 "x" (some 1)]

theorem maps_faithful_inside :
    Possible assignedInside ∧ (behind assignedInside).get 1 "y" = .found 7 ∧
      (behind assignedInside).getAt 2 1 0 = .found 7 ∧
      Possible ([.define 1 "y" none] ++ assignedInside) ∧
      (behind ([.define 1 "y" none] ++ assignedInside)).slot? 1 "y" = some 0 ∧
      Possible (.setSlot 2 0 5 :: assignedInside) ∧
      ((behind assignedInside).perform (.setSlot 2 0 5)).1 = .assigned false ∧
      behind (.setSlot 2 0 5 :: assignedInside) = behind assignedInside := by
  have possible : Possible assignedInside := by decide
  have again : Possible ([.define 1 "y" none] ++ assignedInside) := by decide
  have outside : Possible (.setSlot 2 0 5 :: assignedInside) := by decide
  obtain ⟨-, slots, ⟨-, byName, -, inside⟩, steps⟩ := maps_faithful possible
  have slot : (behind assignedInside).slot? 1 "y" = some 0 := rfl
  have refused : (behind assignedInside).perform (.setSlot 2 0 5) =
      (.assigned false, behind assignedInside) := rfl
  exact ⟨possible, byName 1 "y", inside 2 1 0, again, slots _ 1 "y" 0 again slot, outside, rfl,
    (steps _ _ _ outside refused).2.2.1 (.inl rfl)⟩

end Instance

end Environments

end Lox
