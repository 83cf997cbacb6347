import Lox.Proofs.Scoping.Judgments
import Lox.Proofs.Scoping.Stands
import Lox.Proofs.Session.Compile

/-!
What references are bound to. A reference refers to the innermost scope around it that has declared its
name before, and says how many scopes that one lies further out and which place the name has there. The
table of a program has these bindings and no others.
-/

namespace Lox

open Scoping

namespace Names

theorem binding?_cons (names : List String) (outer : Names) (name : String) :
    binding? name (names :: outer) = if name ∈ names then some ⟨0, names.idxOf name⟩
      else (outer.binding? name).map fun b => { b with distance := b.distance + 1 } := by
  rw [binding?, List.findIdx?_eq_guard_findIdx_lt]
  by_cases h : name ∈ names
  · have bound : names.findIdx (· == name) < names.length := List.idxOf_lt_length_of_mem h
    simp [h, bound, List.idxOf]
  · have beyond : ¬ names.findIdx (· == name) < names.length := by
      rw [List.findIdx_lt_length]
      simpa using h
    simp [h, beyond, Option.guard]

/-- The names of scopes without repeats give a name its place in the innermost scope that has it. -/
theorem binding?_eraseDups {levels : List (List String)} {name : String} {b : Binding} :
    binding? name (levels.map List.eraseDups) = some b ↔
      ∃ names, levels[b.distance]? = some names ∧ name ∈ names ∧
        (∀ nearer ∈ levels.take b.distance, name ∉ nearer) ∧ b.slot = names.eraseDups.idxOf name := by
  induction levels generalizing b with
  | nil => simp [binding?]
  | cons names outer ih =>
    obtain ⟨distance, slot⟩ := b
    rw [List.map_cons, binding?_cons]
    simp only [List.mem_eraseDups]
    by_cases h : name ∈ names
    · cases distance with
      | zero => simp [h, eq_comm]
      | succ distance => simp [h]
    · cases distance with
      | zero => simp [h]
      | succ distance =>
        have shifted : (binding? name (outer.map List.eraseDups)).map
            (fun b => { b with distance := b.distance + 1 }) = some ⟨distance + 1, slot⟩ ↔
            binding? name (outer.map List.eraseDups) = some ⟨distance, slot⟩ := by
          cases binding? name (outer.map List.eraseDups) with
          | none => simp
          | some b =>
            cases b
            simp
        rw [if_neg h, shifted, ih]
        simp [h]

theorem isSome_binding? (Γ : Names) (name : String) :
    (Γ.binding? name).isSome ↔ ∃ names ∈ Γ, name ∈ names := by
  induction Γ with
  | nil => simp [binding?]
  | cons names outer ih =>
    rw [binding?_cons]
    by_cases h : name ∈ names <;> simp [h, ih]

end Names

namespace Scoping

/-- The innermost scope around that has declared the name lies so far out, and this is the place of the
name among the distinct names of that scope, whatever the scope declares later. -/
def Surroundings.Binds (S : Surroundings) (name : String) (b : Binding) : Prop :=
  ∃ names, S.levels[b.distance]? = some names ∧ name ∈ names ∧
    (∀ nearer ∈ S.levels.take b.distance, name ∉ nearer) ∧
    ∀ later, b.slot = (names ++ later).eraseDups.idxOf name

theorem Surroundings.binding?_names {S : Surroundings} {name : String} {b : Binding} :
    S.names.binding? name = some b ↔ S.Binds name b := by
  have kept {names : List String} (h : name ∈ names) (later : List String) :
      (names ++ later).eraseDups.idxOf name = names.eraseDups.idxOf name := by
    rw [List.eraseDups_append, List.idxOf_append, if_pos (List.mem_eraseDups.mpr h)]
  rw [names, Names.binding?_eraseDups]
  constructor
  · rintro ⟨names, hl, hm, nearer, slot⟩
    exact ⟨names, hl, hm, nearer, fun later => (kept hm later).symm ▸ slot⟩
  · rintro ⟨names, hl, hm, nearer, slot⟩
    exact ⟨names, hl, hm, nearer, kept hm [] ▸ slot []⟩

/-- What a word refers to, by the names around it. -/
def Mention.reference? (m : Mention) : Option Reference :=
  m.word.id?.map (⟨·, m.around.names.binding? m.word.lexeme.text⟩)

variable {α β : Type}

/-- The references in the answer are the earlier ones and those of the words. -/
structure Refers (S : Surroundings) (ds : List String) (ms : List Mention) (earlier : List Reference)
    (refs : α → List Reference) (p : Scoping α) : Prop extends Declares S ds p where
  answered : ∀ s, s.names = S.names →
    (earlier ++ ms.filterMap Mention.reference?).Perm (refs (p s).1)

namespace Refers

variable {S : Surroundings} {ds ds' : List String} {ms ms' : List Mention} {earlier : List Reference}
  {refs : α → List Reference} {refs' : β → List Reference} {p : Scoping α} {k : α → Scoping β}

theorem bind (hp : Refers S ds ms [] refs p)
    (hk : ∀ a, Refers (S.declare ds) ds' ms' (earlier ++ refs a) refs' (k a)) :
    Refers S (ds ++ ds') (ms ++ ms') earlier refs' (p >>= k) where
  toDeclares := hp.toDeclares.bind fun a => (hk a).toDeclares
  answered s hs := by
    have first : (ms.filterMap Mention.reference?).Perm (refs (p s).1) := hp.answered s hs
    have rest := (hk (p s).1).answered (p s).2 (hp.names s hs)
    rw [List.filterMap_append, ← List.append_assoc]
    exact ((first.append_left earlier).append_right _).trans rest

theorem inScope {scope : Scope} {names : List String} (h : Refers (S.opened names) ds ms earlier refs p)
    (hn : scope.names = names.eraseDups) : Refers S [] ms earlier refs (inScope scope p) where
  toDeclares := h.toDeclares.inScope hn
  answered s hs := by
    obtain ⟨last, outer, -, -, closed⟩ := h.toDeclares.closes hn hs
    rw [closed]
    exact h.answered _ (Surroundings.names_of_opened hn hs)

theorem declaring {name : Lexeme} {initial : Option (Expr RefId)}
    (h : Refers (S.declare [name.text]) [] ms [] refs p) :
    Refers S [name.text] (⟨.declaration name initial, S⟩ :: ms) [] refs (declaring name p) where
  toDeclares := h.toDeclares.declaring
  answered _ hs := h.answered _ (Surroundings.names_of_declared name hs)

/-- A word that refers to what the names around it bind it to. -/
theorem word {m : Mention} {p : Scoping Reference} {r : Reference} (declares : Declares S [] p)
    (hm : m.reference? = some r) (h : ∀ s, s.names = S.names → (p s).1 = r) :
    Refers S [] [m] [] ([·]) p where
  toDeclares := declares
  answered s hs := by
    rw [List.nil_append, List.filterMap_cons_some hm, List.filterMap_nil, h s hs]

/-- A word that refers to nothing. -/
theorem jump {m : Mention} {p : Scoping Unit} (moves : Moves p id) (hm : m.reference? = none) :
    Refers S [] [m] [] (fun _ => []) p where
  toDeclares := .of_moves moves
  answered s _ := by
    rw [List.nil_append, List.filterMap_cons_none hm, List.filterMap_nil]

end Refers

theorem refers_closed : Judgment.Closed fun _ S ds ms _ => Refers S ds ms where
  pure S _ _ a h := ⟨.of_moves (.pure a), fun _ _ => (List.append_nil _).symm ▸ h⟩
  bind hp hk := hp.bind hk
  within h := ⟨h.toDeclares.within, h.answered⟩
  block h := h.inScope rfl
  own h := h.inScope rfl
  declaration _ h := h.declaring
  reads S id name := .word (.of_moves (Moves.read id name)) rfl fun s hs =>
    (read_answers id name s).trans (hs ▸ rfl)
  assigns S id name := .word (.of_moves (Moves.bindRef id name)) rfl fun s hs =>
    (bind_answers id name (s := s) rfl).trans (hs ▸ rfl)
  this S id keyword := by
    refine .word (.of_moves (.referThis S.context id keyword)) rfl fun s hs => ?_
    exact (bind_answers id keyword ((Moves.checkThis S.context keyword).names s)).trans (hs ▸ rfl)
  super S id keyword := by
    refine .word (.of_moves (.referSuper S.context id keyword)) rfl fun s hs => ?_
    exact (bind_answers id keyword ((Moves.checkSuper S.context keyword).names s)).trans (hs ▸ rfl)
  inherits S id superclass name := .word (.referAbove name id superclass) rfl fun s hs => by
    rw [referAbove_run, read_answers]
    split <;> exact hs ▸ rfl
  returns S keyword hasValue := .jump (Moves.checkReturn _ keyword hasValue) rfl
  breaks S keyword := .jump (Moves.checkBreak _ keyword) rfl

/-- The references of a program are those of its words. -/
theorem references_mentions (p : List (Stmt RefId)) :
    ((Stmt.mentionsAll {} p).filterMap Mention.reference?).Perm (resolve p).references :=
  (Stmt.resolveAll_judged refers_closed {} p).answered {} rfl

theorem ids_mentions (p : List (Stmt RefId)) :
    ((Stmt.mentionsAll {} p).filterMap (·.word.id?)).Perm (Stmt.referencesAll p) := by
  have id_reference? (m : Mention) : m.reference?.map Reference.id = m.word.id? := by
    rw [Mention.reference?, Option.map_map]
    exact Option.map_id'
  have ids := (references_mentions p).map Reference.id
  rw [references_resolve, List.map_filterMap] at ids
  simpa only [id_reference?] using ids

end Scoping

/-- The bindings of a program on its own. -/
def Resolution.table (r : Resolution) : Bindings := ({} : Bindings).insertAll r.bindings

section Table

variable {p : List (Stmt RefId)}

theorem find?_table (distinct : (Stmt.referencesAll p).Nodup) {m : Mention}
    (hm : m ∈ Stmt.mentionsAll {} p) {id : RefId} (hi : m.word.id? = some id) :
    (resolve p).table.find? id = m.around.names.binding? m.word.lexeme.text := by
  rw [← references_resolve] at distinct
  have reference : m.reference? = some ⟨id, m.around.names.binding? m.word.lexeme.text⟩ := by
    rw [Mention.reference?, hi]
    rfl
  have listed := (references_mentions p).subset (List.mem_filterMap.mpr ⟨m, hm, reference⟩)
  exact Bindings.find?_insertAll_entries (d := 0) distinct (fun _ _ => rfl) _ listed

/-- Only references are in the table. -/
theorem mem_referencesAll_of_find?_table {id : RefId} (h : ((resolve p).table.find? id).isSome) :
    id ∈ Stmt.referencesAll p := by
  by_contra absent
  have untouched : ∀ entry ∈ (resolve p).bindings, entry.1 ≠ id := by
    rintro entry he rfl
    obtain ⟨r, hr, hid⟩ := Reference.exists_of_mem_entries (d := 0) he
    exact absent (references_resolve p ▸ hid ▸ List.mem_map_of_mem hr)
  rw [Resolution.table, Bindings.find?_insertAll_of_notMem untouched] at h
  cases h

end Table

/-- The table of a program text binds a reference exactly where a scope around it has declared its name
before, and it binds the reference to the innermost such scope and to the place that the name has among
the distinct names of this scope. Nothing else is in the table. -/
theorem bindings_match_scopes (source : String) (first : RefId) :
    let p := (parse (scan source).tokens first).statements
    ((Stmt.mentionsAll {} p).filterMap (·.word.id?)).Perm (Stmt.referencesAll p) ∧
      (∀ m ∈ Stmt.mentionsAll {} p, ∀ id, m.word.id? = some id →
        (((resolve p).table.find? id).isSome ↔
          ∃ names ∈ m.around.levels, m.word.lexeme.text ∈ names) ∧
        ∀ b, (resolve p).table.find? id = some b ↔ m.around.Binds m.word.lexeme.text b) ∧
      ∀ id, ((resolve p).table.find? id).isSome → id ∈ Stmt.referencesAll p := by
  intro p
  have distinct : (Stmt.referencesAll p).Nodup :=
    nodup_references_parse (Session.genuine_tokens source) first
  refine ⟨ids_mentions p, fun m hm id hi => ?_, fun id => mem_referencesAll_of_find?_table⟩
  rw [find?_table distinct hm hi]
  refine ⟨?_, fun b => Surroundings.binding?_names⟩
  simp [Names.isSome_binding?, Surroundings.names]

end Lox
