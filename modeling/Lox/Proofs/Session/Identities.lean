import Lox.Proofs.Session.Grounded

/-!
The identities of references. Every text that a session reads takes new ones, also where the text is
rejected afterwards. So no two references that were ever read share an identity, and the table of
bindings only grows: what it says about a reference, that it is global included, stays for ever.
-/

namespace Lox

namespace Session

theorem parse_tokens (source : String) (first : RefId) :
    parse (scan source).tokens first =
      ⟨program source first, (reading source).errors, (reading source).nextId + first⟩ := by
  have h := parse_shift (scan source).tokens 0 first
  rw [Nat.zero_add] at h
  rw [h, program, reading]

theorem nodup_references_program (source : String) (first : RefId) :
    (Stmt.referencesAll (program source first)).Nodup := by
  have h := nodup_references_scoping source
  rw [references_scoping] at h
  rw [references_program]
  exact h.map fun _ _ => Nat.add_right_cancel

theorem references_resolve_program (source : String) (first : RefId) :
    (resolve (program source first)).references.map Reference.id =
      Stmt.referencesAll (program source first) := references_resolve _

end Session

namespace History

/-- The trees that a step reads, rejected ones too. -/
def treesAt (h : History) (step : Step) : List Program :=
  match step.source? with
  | some source => [(parse (scan source).tokens h.session.nextId).statements]
  | none => []

/-- All trees that are read in the course of these steps. -/
def trees (h : History) : List Step → List Program
  | [] => []
  | step :: steps => h.treesAt step ++ (h.perform step).2.trees steps

/-- All references in these trees, in the order they are read. -/
def identities (trees : List Program) : List RefId := trees.flatMap Stmt.referencesAll

theorem performAll_cons (h : History) (step : Step) (steps : List Step) :
    h.performAll (step :: steps) = (h.perform step).2.performAll steps := rfl

theorem treesAt_of_source {h : History} {step : Step} {source : String}
    (hs : step.source? = some source) :
    h.treesAt step = [Session.program source h.session.nextId] := by
  simp only [treesAt, hs, Session.parse_tokens]

/-- What holds of a session also holds after more steps, if steps keep it. -/
theorem performAll_keeps {P : History → Prop} (hp : ∀ h step, P h → P (h.perform step).2)
    {h : History} (hh : P h) (steps : List Step) : P (h.performAll steps) := by
  induction steps generalizing h with
  | nil => exact hh
  | cons step steps ih => exact ih (hp h step hh)

/-! What a step does to the table, to the number that references start at and to the programs. -/

/-- The same texts have been read in both: they differ in their machines and warnings at most. -/
structure SameTexts (h h' : History) : Prop where
  bindings : h'.session.bindings = h.session.bindings
  nextId : h'.session.nextId = h.session.nextId
  programs : h'.programs = h.programs

/-- The session after a text has been read. -/
def taking (h : History) (source : String) : History :=
  if Session.rejection h.session.unused source = [] then h.accepting source else h.rejecting source

theorem nextId_taking (h : History) (source : String) :
    (h.taking source).session.nextId = (Session.reading source).nextId + h.session.nextId := by
  rw [taking]
  split <;> rfl

theorem sameTexts_executing (h : History) (fuel : Nat) (p : Program)
    (answer : Value RefId EnvId → Answer RefId) : h.SameTexts (h.executing fuel p answer).2 := by
  rw [snd_executing]
  cases interpret h.session.bindings.find? fuel p h.session.machine <;> exact ⟨rfl, rfl, rfl⟩

theorem sameTexts_accept (h : History) (source : String)
    {next : History → Program → Answer RefId × History} (hn : ∀ (h : History) p, h.SameTexts (next h p).2) :
    (h.taking source).SameTexts (h.accept source next).2 := by
  rw [taking, accept]
  by_cases hr : Session.rejection h.session.unused source = []
  · rw [if_pos hr, if_pos hr]
    exact hn _ _
  · rw [if_neg hr, if_neg hr]
    exact ⟨rfl, rfl, rfl⟩

theorem sameTexts_perform (h : History) (step : Step) :
    match step.source? with
    | some source => (h.taking source).SameTexts (h.perform step).2
    | none => h.SameTexts (h.perform step).2 := by
  rw [perform_eq]
  cases step with
  | compile source => exact h.sameTexts_accept source fun _ _ => ⟨rfl, rfl, rfl⟩
  | run fuel source => exact h.sameTexts_accept source fun h p => h.sameTexts_executing fuel p _
  | runLine fuel line => exact h.sameTexts_accept _ fun h p => h.sameTexts_executing fuel p _
  | execute fuel number =>
    dsimp only [Step.source?]
    cases h.programs[number]? with
    | none => exact ⟨rfl, rfl, rfl⟩
    | some p => exact h.sameTexts_executing fuel p _
  | takeWarnings => exact ⟨rfl, rfl, rfl⟩

theorem perform_of_source {h : History} {step : Step} {source : String}
    (hs : step.source? = some source) : (h.taking source).SameTexts (h.perform step).2 := by
  have same := h.sameTexts_perform step
  rwa [hs] at same

theorem perform_of_no_source {h : History} {step : Step} (hs : step.source? = none) :
    h.SameTexts (h.perform step).2 := by
  have same := h.sameTexts_perform step
  rwa [hs] at same

theorem nextId_perform {h : History} {step : Step} {source : String}
    (hs : step.source? = some source) :
    (h.perform step).2.session.nextId = (Session.reading source).nextId + h.session.nextId := by
  rw [(perform_of_source hs).nextId, nextId_taking]

theorem le_nextId_perform (h : History) (step : Step) :
    h.session.nextId ≤ (h.perform step).2.session.nextId := by
  cases hs : step.source? with
  | none => exact Nat.le_of_eq (perform_of_no_source hs).nextId.symm
  | some source =>
    rw [nextId_perform hs]
    exact Nat.le_add_left _ _

theorem le_nextId_performAll (h : History) (steps : List Step) :
    h.session.nextId ≤ (h.performAll steps).session.nextId :=
  performAll_keeps (P := fun h' => h.session.nextId ≤ h'.session.nextId)
    (fun h' step hh => Nat.le_trans hh (h'.le_nextId_perform step)) (Nat.le_refl _) steps

/-- No step changes what the table says about a reference that was read before. -/
theorem find?_perform (h : History) (step : Step) {id : RefId} (hi : id < h.session.nextId) :
    (h.perform step).2.session.bindings.find? id = h.session.bindings.find? id := by
  cases hs : step.source? with
  | none => rw [(perform_of_no_source hs).bindings]
  | some source =>
    rw [(perform_of_source hs).bindings, taking]
    split
    · exact h.find?_accepting source hi
    · rfl

theorem find?_performAll (h : History) (steps : List Step) {id : RefId}
    (hi : id < h.session.nextId) :
    (h.performAll steps).session.bindings.find? id = h.session.bindings.find? id := by
  induction steps generalizing h with
  | nil => rfl
  | cons step steps ih =>
    rw [performAll_cons, ih _ (Nat.lt_of_lt_of_le hi (h.le_nextId_perform step)),
      h.find?_perform step hi]

/-! The trees that are read. -/

theorem identities_treesAt (h : History) (step : Step) :
    (identities (h.treesAt step)).Nodup ∧ ∀ id ∈ identities (h.treesAt step),
      h.session.nextId ≤ id ∧ id < (h.perform step).2.session.nextId := by
  cases hs : step.source? with
  | none =>
    have ht : h.treesAt step = [] := by rw [treesAt, hs]
    rw [ht]
    exact ⟨List.nodup_nil, fun id hi => absurd hi List.not_mem_nil⟩
  | some source =>
    rw [treesAt_of_source hs, nextId_perform hs, identities, List.flatMap_singleton]
    exact ⟨Session.nodup_references_program _ _, Session.below_program source _⟩

/-- References that are read later have greater identities. -/
theorem identities_trees (h : History) (steps : List Step) :
    (identities (h.trees steps)).Nodup ∧ ∀ id ∈ identities (h.trees steps),
      h.session.nextId ≤ id ∧ id < (h.performAll steps).session.nextId := by
  induction steps generalizing h with
  | nil => exact ⟨List.nodup_nil, fun id hi => absurd hi List.not_mem_nil⟩
  | cons step steps ih =>
    obtain ⟨now, within⟩ := h.identities_treesAt step
    obtain ⟨later, above⟩ := ih (h.perform step).2
    rw [trees, identities, List.flatMap_append]
    refine ⟨List.nodup_append.mpr ⟨now, later, fun i hi j hj => ?_⟩, fun id hi => ?_⟩
    · exact Nat.ne_of_lt (Nat.lt_of_lt_of_le (within i hi).2 (above j hj).1)
    · obtain hi | hi := List.mem_append.mp hi
      · exact ⟨(within id hi).1, Nat.lt_of_lt_of_le (within id hi).2 (le_nextId_performAll _ _)⟩
      · exact ⟨Nat.le_trans (h.le_nextId_perform step) (above id hi).1, (above id hi).2⟩

theorem programs_perform (h : History) (step : Step) :
    (h.perform step).2.programs.Sublist (h.programs ++ h.treesAt step) := by
  cases hs : step.source? with
  | none =>
    rw [(perform_of_no_source hs).programs]
    exact List.sublist_append_left _ _
  | some source =>
    rw [(perform_of_source hs).programs, treesAt_of_source hs, taking]
    split
    · exact List.Sublist.refl _
    · exact List.sublist_append_left _ _

/-- The programs that were accepted are among the trees. -/
theorem programs_performAll (h : History) (steps : List Step) :
    (h.performAll steps).programs.Sublist (h.programs ++ h.trees steps) := by
  induction steps generalizing h with
  | nil => exact List.sublist_append_left _ _
  | cons step steps ih =>
    rw [performAll_cons, trees, ← List.append_assoc]
    exact (ih _).trans ((h.programs_perform step).append_right _)

/-! The table of bindings. -/

theorem keys_sublist (refs : List Reference) :
    ((refs.filterMap fun r => r.binding.map (r.id, ·)).map Prod.fst).Sublist
      (refs.map Reference.id) := by
  induction refs with
  | nil => exact List.Sublist.refl _
  | cons r refs ih =>
    rw [List.filterMap_cons]
    cases r.binding with
    | none => exact ih.cons r.id
    | some b => exact ih.cons_cons r.id

/-- An accepted text gives each of its references a binding or none, and enters those that it gives
under identities that the table does not have yet, each once. -/
structure Enters (h : History) (p : Program) (s : Session) : Prop where
  references : (resolve p).references.map Reference.id = Stmt.referencesAll p
  bindings : s.bindings = h.session.bindings.insertAll (resolve p).bindings
  once : ((resolve p).bindings.map Prod.fst).Nodup
  fresh : ∀ entry ∈ (resolve p).bindings, h.session.bindings.find? entry.1 = none

section Accepted

variable {h : History} (hg : h.Grounded) {source : String} {p : Program} {s : Session}
  (hc : Session.compile source h.session = .ok p s)

include hg hc

theorem Grounded.enters : h.Enters p s := by
  obtain ⟨-, rfl, rfl⟩ := accepting_of_compile hc
  have references := Session.references_resolve_program source h.session.nextId
  have entries := Session.bindings_resolve_program source h.session.nextId
  have distinct := Session.nodup_references_program source h.session.nextId
  refine ⟨references, by rw [entries, bindings_accepting], ?_, fun entry he => ?_⟩
  · rw [← references] at distinct
    exact distinct.sublist (keys_sublist _)
  · rw [entries] at he
    obtain ⟨r, -, hi⟩ := Reference.exists_of_mem_entries he
    exact hg.bindings _ (hi ▸ Nat.le_add_left _ _)

/-- The table knows each reference of an accepted text by the binding that it was given. -/
theorem Grounded.find?_entered {r : Reference} (hr : r ∈ (resolve p).references) :
    s.bindings.find? r.id = r.binding := by
  have enters := hg.enters hc
  obtain ⟨-, rfl, rfl⟩ := accepting_of_compile hc
  have distinct := Session.nodup_references_program source h.session.nextId
  rw [← enters.references] at distinct
  have above (r : Reference) (hr : r ∈ (resolve (Session.program source h.session.nextId)).references) :
      h.session.bindings.find? (r.id + 0) = none :=
    hg.bindings _ (Session.below_program source _ _
      (enters.references ▸ List.mem_map_of_mem hr)).1
  rw [enters.bindings]
  exact Bindings.find?_insertAll_entries distinct above r hr

/-- Whatever step reads the text, and whatever steps follow. -/
theorem Grounded.find?_performAll_entered {step : Step} (hs : step.source? = some source)
    (later : List Step) {r : Reference} (hr : r ∈ (resolve p).references) :
    ((h.perform step).2.performAll later).session.bindings.find? r.id = r.binding := by
  have found := hg.find?_entered hc hr
  have listed : r.id ∈ Stmt.referencesAll p :=
    (hg.enters hc).references ▸ List.mem_map_of_mem hr
  obtain ⟨accepted, rfl, rfl⟩ := accepting_of_compile hc
  have below : r.id < (h.perform step).2.session.nextId := by
    rw [nextId_perform hs]
    exact (Session.below_program source _ _ listed).2
  rw [find?_performAll _ later below, (perform_of_source hs).bindings, taking, if_pos accepted]
  exact found

end Accepted

/-- Of all references in all trees that a session has read, accepted or not, no two have the same
identity, and all are below the next one. So a text enters its bindings beside those that are there,
and what the table says of a reference once it has been read, a binding or none, stays. -/
theorem identities_distinct (host : Host) (unused : Severity) (steps : List Step) :
    let h := (start host unused).performAll steps
    let trees := (start host unused).trees steps
    (identities trees).Nodup ∧
      (∀ id ∈ identities trees, id < h.session.nextId) ∧
      h.programs.Sublist trees ∧
      ∀ later, h.session.nextId ≤ (h.performAll later).session.nextId ∧
        (∀ id < h.session.nextId,
          (h.performAll later).session.bindings.find? id = h.session.bindings.find? id) ∧
        ∀ step source p s, step.source? = some source →
          Session.compile source h.session = .ok p s → h.Enters p s ∧
            ∀ r ∈ (resolve p).references,
              ((h.perform step).2.performAll later).session.bindings.find? r.id = r.binding := by
  intro h trees
  have hg : h.Grounded := Reachable.grounded ⟨host, unused, steps, rfl⟩
  obtain ⟨distinct, within⟩ := (start host unused).identities_trees steps
  refine ⟨distinct, fun id hi => (within id hi).2, (start host unused).programs_performAll steps, ?_⟩
  intro later
  refine ⟨h.le_nextId_performAll later, fun id hi => h.find?_performAll later hi, ?_⟩
  intro step source p s hs hc
  exact ⟨hg.enters hc, fun r hr => hg.find?_performAll_entered hc hs later hr⟩

/-- A text that is rejected for `1 = y` uses up two identities. In the text after it `a` is a local
variable and `x` is global, and so they remain where another text declares an `x` in a block. -/
theorem identities_distinct_after_rejection :
    ∃ p s, Session.compile "{ var a = 1; a = x; }"
        ((start {} .warning).performAll [.compile "x; 1 = y;"]).session = .ok p s ∧
      identities ((start {} .warning).trees [.compile "x; 1 = y;"]) = [0] ∧
      (resolve p).references = [⟨2, some ⟨0, 0⟩⟩, ⟨3, none⟩] ∧
      ∀ t, t = ((((start {} .warning).performAll [.compile "x; 1 = y;"]).perform
          (.run 9 "{ var a = 1; a = x; }")).2.performAll
            [.compile "{ var x = 1; x; }"]).session.bindings →
        t.find? 2 = some ⟨0, 0⟩ ∧ t.find? 3 = none := by
  have hread : identities ((start {} .warning).trees [.compile "x; 1 = y;"]) = [0] := by
    decide +kernel
  have hrun : Session.rejection ((start {} .warning).performAll
        [.compile "x; 1 = y;"]).session.unused "{ var a = 1; a = x; }" = [] ∧
      (resolve (Session.program "{ var a = 1; a = x; }" ((start {} .warning).performAll
        [.compile "x; 1 = y;"]).session.nextId)).references = [⟨2, some ⟨0, 0⟩⟩, ⟨3, none⟩] := by
    decide +kernel
  have stays := ((identities_distinct {} .warning [.compile "x; 1 = y;"]).2.2.2
    [.compile "{ var x = 1; x; }"]).2.2
  obtain ⟨h, hh⟩ : ∃ h, h = (start {} .warning).performAll [.compile "x; 1 = y;"] := ⟨_, rfl⟩
  rw [← hh] at hrun stays
  obtain ⟨passes, refs⟩ := hrun
  have hc := Session.compile_run "{ var a = 1; a = x; }" h.session
  rw [if_pos passes] at hc
  obtain ⟨-, kept⟩ := stays (.run 9 "{ var a = 1; a = x; }") _ _ _ rfl hc
  rw [← hh]
  refine ⟨_, _, hc, hread, refs, fun t ht => ?_⟩
  rw [refs] at kept
  have bound := kept ⟨2, some ⟨0, 0⟩⟩ List.mem_cons_self
  have global := kept ⟨3, none⟩ (List.mem_cons_of_mem _ List.mem_cons_self)
  rw [ht]
  exact ⟨bound, global⟩

end History

end Lox
