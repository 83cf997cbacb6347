import Lox.Proofs.Parser.Reading
import Lox.Proofs.Parser.Shift
import Lox.Proofs.Relabel.Below
import Lox.Proofs.Relabel.Scoping
import Lox.Proofs.Source
import Lox.Session

/-!
What compiling a text comes to. A text is read and scoped in the same way in every session, whatever
number its references start at; that number shows in their identities alone.
-/

namespace Lox

namespace Bindings

/-- The binding of a reference that is not among the new ones stays. -/
theorem find?_insertAll_of_notMem {new : List (RefId × Binding)} {id : RefId}
    (h : ∀ entry ∈ new, entry.1 ≠ id) (t : Bindings) : (t.insertAll new).find? id = t.find? id := by
  induction new generalizing t with
  | nil => rfl
  | cons entry new ih =>
    have hne : id ≠ entry.1 := fun he => h entry List.mem_cons_self he.symm
    have htail := ih (fun entry he => h entry (List.mem_cons_of_mem _ he)) (t.insert entry.1 entry.2)
    rw [find?_insert, if_neg hne] at htail
    exact htail

end Bindings

/-- The bindings of these references, with other numbers for them. -/
def Reference.entries (refs : List Reference) (d : RefId) : List (RefId × Binding) :=
  refs.filterMap fun r => r.binding.map (r.id + d, ·)

theorem Reference.exists_of_mem_entries {refs : List Reference} {d : RefId} {entry : RefId × Binding}
    (h : entry ∈ entries refs d) : ∃ r ∈ refs, entry.1 = r.id + d := by
  obtain ⟨r, hr, he⟩ := List.mem_filterMap.mp h
  obtain ⟨b, _, rfl⟩ := Option.map_eq_some_iff.mp he
  exact ⟨r, hr, rfl⟩

/-- A table finds the binding of each reference that was entered, if their identities differ. -/
theorem Bindings.find?_insertAll_entries {refs : List Reference} {d : RefId} {t : Bindings}
    (hn : (refs.map Reference.id).Nodup) (ht : ∀ r ∈ refs, t.find? (r.id + d) = none) :
    ∀ r ∈ refs, (t.insertAll (Reference.entries refs d)).find? (r.id + d) = r.binding := by
  induction refs generalizing t with
  | nil =>
    intro r hr
    cases hr
  | cons first refs ih =>
    rw [List.map_cons, List.nodup_cons] at hn
    have fresh : ∀ r ∈ refs, r.id ≠ first.id := fun r hr he =>
      hn.1 (he ▸ List.mem_map_of_mem hr)
    have untouched : ∀ entry ∈ Reference.entries refs d, entry.1 ≠ first.id + d := by
      intro entry he h
      obtain ⟨r, hr, hi⟩ := Reference.exists_of_mem_entries he
      exact fresh r hr (Nat.add_right_cancel (hi.symm.trans h))
    intro r hr
    cases hb : first.binding with
    | none =>
      have he : Reference.entries (first :: refs) d = Reference.entries refs d := by
        simp only [Reference.entries, List.filterMap_cons, hb, Option.map_none]
      rw [he]
      obtain rfl | hr := List.mem_cons.mp hr
      · rw [find?_insertAll_of_notMem untouched, ht r List.mem_cons_self, hb]
      · exact ih hn.2 (fun r hr => ht r (List.mem_cons_of_mem _ hr)) r hr
    | some b =>
      have he : t.insertAll (Reference.entries (first :: refs) d) =
          (t.insert (first.id + d) b).insertAll (Reference.entries refs d) := by
        simp only [Reference.entries, List.filterMap_cons, hb, Option.map_some, insertAll,
          List.foldl_cons]
      rw [he]
      obtain rfl | hr := List.mem_cons.mp hr
      · rw [find?_insertAll_of_notMem untouched, find?_insert, if_pos rfl, hb]
      · refine ih hn.2 (fun r hr => ?_) r hr
        have hne : r.id + d ≠ first.id + d := fun h => fresh r hr (Nat.add_right_cancel h)
        rw [find?_insert, if_neg hne, ht r (List.mem_cons_of_mem _ hr)]

namespace Session

/-- A text as it is read where its references are numbered from zero. -/
def reading (source : String) : Parsed := parse (scan source).tokens 0

def faults (source : String) : List Diagnostic :=
  (scan source).errors.map .source ++ (reading source).errors.map .syntactic

def scoping (source : String) : Resolution := resolve (reading source).statements

/-- What a text is rejected for, if it is. -/
def rejection (unused : Severity) (source : String) : List Diagnostic :=
  if faults source = [] then ((scoping source).errors unused).map .scoping else faults source

/-- The warnings that are noted, whether the text is accepted or not. -/
def noted (unused : Severity) (source : String) : List Scoping.Finding :=
  if faults source = [] then (scoping source).warnings unused else []

/-- The program of a text where its references are numbered from here. -/
def program (source : String) (first : RefId) : Program :=
  (reading source).statements.map (Stmt.relabel (shifting first id))

/-- The program with the binding of each reference in the place of its identity. -/
def placed (source : String) : List (Stmt (Option Binding)) :=
  (scoping source).program.map (Stmt.relabel (.onRefs Reference.binding))

theorem faults_eq_nil {source : String} (h : faults source = []) : (scan source).errors = [] := by
  have h := (List.append_eq_nil_iff.mp h).1
  exact List.map_eq_nil_iff.mp h

theorem errors_reading {source : String} (h : faults source = []) : (reading source).errors = [] :=
  List.map_eq_nil_iff.mp (List.append_eq_nil_iff.mp h).2

theorem faults_of_rejection {unused : Severity} {source : String} (h : rejection unused source = []) :
    faults source = [] := by
  by_contra hf
  rw [rejection, if_neg hf] at h
  exact hf h

theorem errors_of_rejection {unused : Severity} {source : String} (h : rejection unused source = []) :
    (scoping source).errors unused = [] := by
  rw [rejection, if_pos (faults_of_rejection h)] at h
  exact List.map_eq_nil_iff.mp h

section Reading

variable (source : String)

theorem genuine_tokens : ∀ t ∈ (Token.untilEof (scan source).tokens).1, t.Genuine := by
  rw [untilEof_scan]
  exact fun t ht => (genuine_lexemes source t ht).2

theorem tidy_reading : Stmt.TidyAll (reading source).statements :=
  parse_tidy (genuine_tokens source) 0

theorem references_reading : ∀ id ∈ Stmt.referencesAll (reading source).statements,
    id < (reading source).nextId := fun id hi =>
  (references_parse (genuine_tokens source) 0 id hi).2

theorem references_scoping :
    (scoping source).references.map Reference.id = Stmt.referencesAll (reading source).statements :=
  references_resolve _

theorem nodup_references_scoping : ((scoping source).references.map Reference.id).Nodup := by
  rw [references_scoping]
  exact nodup_references_parse (genuine_tokens source) 0

theorem references_program (first : RefId) : Stmt.referencesAll (program source first) =
    (Stmt.referencesAll (reading source).statements).map (· + first) := by
  rw [program, ← Stmt.relabelAll_eq_map, Stmt.referencesAll_relabelAll]
  rfl

theorem below_program (first : RefId) : ∀ id ∈ Stmt.referencesAll (program source first),
    first ≤ id ∧ id < (reading source).nextId + first := by
  intro id hi
  rw [references_program] at hi
  obtain ⟨i, hr, rfl⟩ := List.mem_map.mp hi
  exact ⟨Nat.le_add_left _ _, Nat.add_lt_add_right (references_reading source i hr) first⟩

end Reading

section Compile

variable (source : String) (s : Session)

theorem Finding.relabel_id (first : RefId) :
    Scoping.Finding.relabel (shifting first id) = id := rfl

/-- All references of a text are bound as they would be if they were numbered from zero. -/
theorem resolve_program (first : RefId) :
    resolve (program source first) =
      ⟨(scoping source).program.map (Stmt.relabel (shifting first id).bound),
        (scoping source).findings⟩ := by
  rw [program, resolve_relabel rfl, Finding.relabel_id, List.map_id]
  rfl

theorem bindings_resolve_program (first : RefId) :
    (resolve (program source first)).bindings = Reference.entries (scoping source).references first := by
  have h : (resolve (program source first)).references =
      (scoping source).references.map (shifting first id).bound.ref := by
    rw [resolve_program, Resolution.references, ← Stmt.relabelAll_eq_map,
      Stmt.referencesAll_relabelAll]
    rfl
  rw [Resolution.bindings, h, List.filterMap_map]
  rfl

/-- What compiling a text does: either way references are used up and warnings noted. -/
theorem compile_run :
    compile source s =
      if rejection s.unused source = [] then
        .ok (program source s.nextId)
          { s with
            bindings := s.bindings.insertAll (Reference.entries (scoping source).references s.nextId)
            nextId := (reading source).nextId + s.nextId
            warnings := s.warnings ++ noted s.unused source }
      else
        .error (.rejected (rejection s.unused source))
          { s with
            nextId := (reading source).nextId + s.nextId
            warnings := s.warnings ++ noted s.unused source } := by
  have hp : parse (scan source).tokens s.nextId = ⟨program source s.nextId, (reading source).errors,
      (reading source).nextId + s.nextId⟩ := by
    have h := parse_shift (scan source).tokens 0 s.nextId
    rw [Nat.zero_add] at h
    exact h
  have he (unused : Severity) :
      (resolve (program source s.nextId)).errors unused = (scoping source).errors unused := by
    rw [resolve_program]
    rfl
  have hw (unused : Severity) :
      (resolve (program source s.nextId)).warnings unused = (scoping source).warnings unused := by
    rw [resolve_program]
    rfl
  simp only [compile, bind, EStateM.bind, get, getThe, MonadStateOf.get, set, modify, modifyGet,
    MonadStateOf.modifyGet]
  unfold EStateM.get EStateM.set
  simp only [hp]
  have hfaults : (scan source).errors.map Diagnostic.source ++
      (reading source).errors.map .syntactic = faults source := rfl
  rw [hfaults]
  cases hf : faults source with
  | cons fault rest =>
    have hr : rejection s.unused source = fault :: rest := by
      rw [rejection, hf, if_neg (List.cons_ne_nil _ _)]
    have hn : noted s.unused source = [] := by
      rw [noted, hf, if_neg (List.cons_ne_nil _ _)]
    rw [hr, hn, List.append_nil, if_neg (List.cons_ne_nil _ _)]
    rfl
  | nil =>
    have hn : noted s.unused source = (scoping source).warnings s.unused := by
      rw [noted, if_pos hf]
    have hr : rejection s.unused source = ((scoping source).errors s.unused).map .scoping := by
      rw [rejection, if_pos hf]
    rw [hr, hn, ← hw, he]
    cases hs : (scoping source).errors s.unused with
    | cons error rest => rfl
    | nil =>
      rw [← bindings_resolve_program]
      rfl

end Compile

theorem execute_run (fuel : Nat) (p : Program) (s : Session) :
    execute fuel p s = match interpret s.bindings.find? fuel p s.machine with
      | .ok v machine => .ok v { s with machine }
      | .error stop machine => .error (.stopped stop) { s with machine } := rfl

theorem run_run (fuel : Nat) (source : String) (s : Session) :
    run fuel source s = match compile source s with
      | .ok p s => execute fuel p s
      | .error f s => .error f s := by
  simp only [run, bind, EStateM.bind]
  cases compile source s <;> rfl

theorem runLine_run (fuel : Nat) (line : String) (s : Session) :
    runLine fuel line s = match compile (completed (Text.trimEnd line)) s with
      | .ok p s => match execute fuel p s with
        | .ok v s =>
          .ok (if !isClosed (Text.trimEnd line) && isExpression p then some v else none) s
        | .error f s => .error f s
      | .error f s => .error f s := by
  simp only [runLine, bind, EStateM.bind]
  cases compile (completed (Text.trimEnd line)) s with
  | ok p s =>
    cases h : execute fuel p s with
    | ok v s =>
      simp only [h]
      rfl
    | error f s => simp only [h]
  | error f s => rfl

/-- The program of a text is placed as the table says, once it has entered the bindings. -/
theorem map_relabel_program (source : String) {first : RefId} {t : Bindings}
    (ht : ∀ id, first ≤ id → t.find? id = none) :
    (program source first).map (Stmt.relabel (.onRefs
      (t.insertAll (Reference.entries (scoping source).references first)).find?)) =
      placed source := by
  have hb := Bindings.find?_insertAll_entries (t := t) (d := first)
    (nodup_references_scoping source) fun r _ => ht _ (Nat.le_add_left _ _)
  generalize t.insertAll (Reference.entries (scoping source).references first) = u at hb
  have hu : (reading source).statements = (scoping source).program.map (Stmt.relabel unbound) :=
    (unbound_resolve _).symm
  have ht : (program source first).map (Stmt.relabel (.onRefs u.find?)) =
      (scoping source).program.map (Stmt.relabel (.onRefs fun r => u.find? (r.id + first))) := by
    rw [program, hu, List.map_map, List.map_map]
    refine List.map_congr_left fun s _ => ?_
    simp only [Function.comp, Stmt.relabel_relabel]
    rfl
  rw [ht]
  exact Stmt.map_relabel_congr hb

/-- An older program keeps its places when the bindings of a newer one are entered. -/
theorem find?_insertAll_of_lt (source : String) {first id : RefId} (t : Bindings) (h : id < first) :
    (t.insertAll (Reference.entries (scoping source).references first)).find? id = t.find? id := by
  apply Bindings.find?_insertAll_of_notMem
  intro entry he hi
  obtain ⟨r, _, hr⟩ := Reference.exists_of_mem_entries he
  exact Nat.not_lt.mpr (Nat.le_add_left first r.id) (hr ▸ hi ▸ h)

theorem find?_insertAll_of_le (source : String) {first id : RefId} {t : Bindings}
    (ht : ∀ id, first ≤ id → t.find? id = none) (h : (reading source).nextId + first ≤ id) :
    (t.insertAll (Reference.entries (scoping source).references first)).find? id = none := by
  rw [Bindings.find?_insertAll_of_notMem, ht id (Nat.le_trans (Nat.le_add_left _ _) h)]
  intro entry he hi
  obtain ⟨r, hr, hd⟩ := Reference.exists_of_mem_entries he
  have hm : r.id ∈ Stmt.referencesAll (reading source).statements :=
    references_scoping source ▸ List.mem_map_of_mem hr
  have hlt := Nat.add_lt_add_right (references_reading source r.id hm) first
  exact Nat.not_lt.mpr h (hi ▸ hd ▸ hlt)

-- what is read off a text is never computed in a proof
attribute [irreducible] reading scoping

end Session

end Lox
