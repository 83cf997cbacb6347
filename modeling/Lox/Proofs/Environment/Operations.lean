import Lox.Proofs.Environment
import Lox.Proofs.Names

/-!
Operations on environments, one after another. Which environments and names there are, and what was
stored last, can be told from the operations alone: an environment numbers its names in the order of
their first definitions, and whatever reaches a slot stores what the name of the slot stands for.
-/

namespace Lox

variable {α : Type}

/-- What is known of a variable by what was stored for it last, if anything was. -/
def Lookup.ofStored (a : Option (Option α)) : Lookup α := (a.map Lookup.ofOption).getD .missing

namespace Environments

/-- What an environment can be asked for. -/
inductive Operation (α : Type) where
  | nest (e : EnvId)
  | define (e : EnvId) (name : String) (a : Option α)
  | get (e : EnvId) (name : String)
  | assign (e : EnvId) (name : String) (a : α)
  | getSlot (e : EnvId) (slot : Nat)
  | setSlot (e : EnvId) (slot : Nat) (a : α)
  | getAt (e : EnvId) (distance slot : Nat)
  | assignAt (e : EnvId) (distance slot : Nat) (a : α)

inductive Reply (α : Type) where
  | nested (e : EnvId)
  | defined (slot : Nat)
  | known (l : Lookup α)
  | assigned (done : Bool)

/-- The reply to an assignment, and the environments after it if it is done. -/
def settle (s : Environments α) (after : Option (Environments α)) : Reply α × Environments α :=
  (.assigned after.isSome, after.getD s)

def perform (s : Environments α) : Operation α → Reply α × Environments α
  | .nest e => (.nested s.fresh, s.nest e)
  | .define e name a => (.defined (s.slotFor e name), s.define e name a)
  | .get e name => (.known (s.get e name), s)
  | .assign e name a => s.settle (s.assign? e name a)
  | .getSlot e slot => (.known (s.getSlot e slot), s)
  | .setSlot e slot a => s.settle (s.setSlot? e slot a)
  | .getAt e distance slot => (.known (s.getAt e distance slot), s)
  | .assignAt e distance slot a => s.settle (s.assignAt? e distance slot a)

/-- The environments behind the operations, of which the last one comes first. -/
def behind : List (Operation α) → Environments α
  | [] => {}
  | op :: past => ((behind past).perform op).2

namespace Operation

/-- The environment that is asked. -/
def env : Operation α → EnvId
  | .nest e | .define e _ _ | .get e _ | .assign e _ _ | .getSlot e _ | .setSlot e _ _ | .getAt e _ _
  | .assignAt e _ _ _ => e

/-- What a new environment is nested in, if there is one. -/
def up? : Operation α → Option EnvId
  | .nest e => some e
  | _ => none

/-- The name that is defined in the environment, if one is. -/
def defines? (e : EnvId) : Operation α → Option String
  | .define i name _ => if i = e then some name else none
  | _ => none

end Operation

/-! What the operations say, the last one first. -/

/-- What the environments are nested in, from the global one on. -/
def links (past : List (Operation α)) : List (Option EnvId) :=
  none :: (past.reverse.filterMap Operation.up?).map some

def count (past : List (Operation α)) : Nat := (links past).length

/-- Each operation asks an environment that is there. -/
def Possible : List (Operation α) → Prop
  | [] => True
  | op :: past => op.env < count past ∧ Possible past

instance decidablePossible : (past : List (Operation α)) → Decidable (Possible past)
  | [] => inferInstanceAs (Decidable True)
  | op :: past =>
    have := decidablePossible past
    inferInstanceAs (Decidable (op.env < count past ∧ Possible past))

/-- The names of the environment in the order of their first definitions. -/
def defined (e : EnvId) (past : List (Operation α)) : List String :=
  (past.reverse.filterMap (Operation.defines? e)).eraseDups

/-- The environment so many links up. -/
def above? (past : List (Operation α)) (e : EnvId) : Nat → Option EnvId
  | 0 => some e
  | distance + 1 => (links past)[e]?.join.bind (above? past · distance)

/-- The name whose slot the operation reaches behind the earlier ones, and what it stores there. -/
def Operation.store? (past : List (Operation α)) : Operation α → Option (EnvId × String × Option α)
  | .define e name a => some (e, name, a)
  | .assign e name a => if name ∈ defined e past then some (e, name, some a) else none
  | .setSlot e slot a => (defined e past)[slot]?.map (e, ·, some a)
  | .assignAt e distance slot a =>
    (above? past e distance).bind fun e => (defined e past)[slot]?.map (e, ·, some a)
  | .nest _ | .get _ _ | .getSlot _ _ | .getAt _ _ _ => none

/-- What the last of the operations that reached the slot of the name stored there. -/
def stored? (e : EnvId) (name : String) : List (Operation α) → Option (Option α)
  | [] => none
  | op :: past => match op.store? past with
    | some (i, other, a) => if i = e ∧ other = name then some a else stored? e name past
    | none => stored? e name past

section

variable (op : Operation α) (past : List (Operation α)) {e : EnvId}

theorem links_cons : links (op :: past) = links past ++ (op.up?.map some).toList := by
  simp only [links, List.reverse_cons, List.filterMap_append, List.map_append, List.cons_append,
    List.filterMap_cons, List.filterMap_nil]
  cases op.up? <;> rfl

theorem count_cons : count (op :: past) = count past + (op.up?.map some).toList.length := by
  rw [count, links_cons, List.length_append, count]

theorem defined_cons : defined e (op :: past) = match op.defines? e with
    | some name => if name ∈ defined e past then defined e past else defined e past ++ [name]
    | none => defined e past := by
  simp only [defined, List.reverse_cons, List.filterMap_append, List.filterMap_cons,
    List.filterMap_nil]
  cases op.defines? e with
  | none => rw [List.append_nil]
  | some name => simp only [eraseDups_concat, List.mem_eraseDups]

theorem defined_cons_extends : defined e past <+: defined e (op :: past) := by
  rw [defined_cons]
  split
  · split
    · exact List.prefix_rfl
    · exact List.prefix_append _ _
  · exact List.prefix_rfl

end

theorem defined_append_extends (e : EnvId) (later past : List (Operation α)) :
    defined e past <+: defined e (later ++ past) := by
  induction later with
  | nil => exact List.prefix_rfl
  | cons op later ih => exact ih.trans (defined_cons_extends op (later ++ past))

theorem nodup_defined (e : EnvId) (past : List (Operation α)) : (defined e past).Nodup :=
  nodup_eraseDups _

variable {past : List (Operation α)} {op : Operation α} {e i : EnvId}

/-- Nothing is defined in an environment that is not there. -/
theorem defined_eq_nil (h : Possible past) (he : count past ≤ e) : defined e past = [] := by
  induction past with
  | nil => rfl
  | cons op past ih =>
    have before : count past ≤ e := Nat.le_trans (count_cons op past ▸ Nat.le_add_right _ _) he
    have other : op.defines? e = none := by
      cases op with
      | define i name a => exact if_neg (Nat.ne_of_lt (Nat.lt_of_lt_of_le h.1 before))
      | _ => rfl
    rw [defined_cons, other]
    exact ih h.2 before

/-- An environment is nested in one that was there before. -/
theorem link_lt (h : Possible past) {up : EnvId} (hl : (links past)[e]? = some (some up)) :
    up < e := by
  induction past with
  | nil =>
    obtain ⟨_, he⟩ := List.getElem?_eq_some_iff.mp hl
    simp [links] at he
  | cons op past ih =>
    rw [links_cons, List.getElem?_append] at hl
    split at hl
    · exact ih h.2 hl
    · next out =>
      cases op with
      | nest i =>
        have only : [some i][e - (links past).length]? = some (some up) := hl
        obtain ⟨_, he⟩ := List.getElem?_eq_some_iff.mp only
        obtain rfl : i = up := by simpa using he
        exact Nat.lt_of_lt_of_le h.1 (Nat.le_of_not_lt out)
      | _ => cases hl

theorem above?_le (h : Possible past) {distance : Nat} (ha : above? past e distance = some i) :
    i ≤ e := by
  induction distance generalizing e with
  | zero => exact Nat.le_of_eq (Option.some.inj ha).symm
  | succ distance ih =>
    obtain ⟨up, hl, ha⟩ := Option.bind_eq_some_iff.mp ha
    exact Nat.le_trans (ih ha) (Nat.le_of_lt (link_lt h (Option.join_eq_some_iff.mp hl)))

/-- Something is stored by a definition, or for a name that is defined, in the environment that is asked
or one around it. -/
theorem store?_cases {name : String} {a : Option α} (h : op.store? past = some (e, name, a)) :
    op = .define e name a ∨ name ∈ defined e past ∧ (∀ i, op.defines? i = none) ∧
      ∃ distance, above? past op.env distance = some e := by
  cases op with
  | define i other b =>
    cases h
    exact .inl rfl
  | assign i other b =>
    obtain ⟨hn, he⟩ := Option.ite_none_right_eq_some.mp h
    cases he
    exact .inr ⟨hn, fun _ => rfl, 0, rfl⟩
  | setSlot i slot b =>
    obtain ⟨other, hn, he⟩ := Option.map_eq_some_iff.mp h
    cases he
    exact .inr ⟨List.mem_of_getElem? hn, fun _ => rfl, 0, rfl⟩
  | assignAt i distance slot b =>
    obtain ⟨up, ha, h⟩ := Option.bind_eq_some_iff.mp h
    obtain ⟨other, hn, he⟩ := Option.map_eq_some_iff.mp h
    cases he
    exact .inr ⟨List.mem_of_getElem? hn, fun _ => rfl, distance, ha⟩
  | _ => cases h

/-- Something is stored in an environment that is there. -/
theorem store?_lt (h : Possible (op :: past)) {name : String} {a : Option α}
    (hs : op.store? past = some (e, name, a)) : e < count past := by
  obtain rfl | ⟨-, -, distance, ha⟩ := store?_cases hs
  · exact h.1
  · exact Nat.lt_of_le_of_lt (above?_le h.2 ha) h.1

theorem defined_of_rest (h : op.store? past = none) : defined e (op :: past) = defined e past := by
  rw [defined_cons]
  cases op with
  | define i name a => cases h
  | _ => rfl

/-- A name that something is stored for is defined from then on. -/
theorem defined_of_store {name : String} {a : Option α} (h : op.store? past = some (e, name, a)) :
    defined i (op :: past) =
      if i = e ∧ name ∉ defined e past then defined e past ++ [name] else defined i past := by
  rw [defined_cons]
  obtain rfl | ⟨hn, other, -⟩ := store?_cases h
  · by_cases hi : i = e
    · subst hi
      by_cases hn : name ∈ defined i past <;> simp [Operation.defines?, hn]
    · simp [Operation.defines?, hi, Ne.symm hi]
  · rw [other i, if_neg fun fresh => fresh.2 hn]

end Environments

end Lox
