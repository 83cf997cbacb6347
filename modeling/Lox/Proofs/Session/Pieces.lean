import Lox.Proofs.Session.Grounded
import Lox.Proofs.Session.Joined
import Lox.Proofs.Surroundings

/-!
Running in pieces. Two texts that are run one after the other do what their join does when it is run
as a whole, apart from the lines on which the second one stands.
-/

namespace Lox

variable {ρ : Type}

/-- Does the program have a value of its own? -/
def hasValue : List (Stmt ρ) → Bool
  | [] => false
  | .expr _ :: _ => true
  | _ :: ss => hasValue ss

theorem hasValue_map {σ : Type} (φ : Relabeling ρ σ) (p : List (Stmt ρ)) :
    hasValue (p.map (Stmt.relabel φ)) = hasValue p := by
  induction p with
  | nil => rfl
  | cons s p ih =>
    cases s with
    | expr e => rfl
    | var name initial => cases initial <;> exact ih
    | «if» c y n => cases n <;> exact ih
    | «return» keyword value => cases value <;> exact ih
    | _ => exact ih

section Interpret

variable (site : ρ → Option Binding) (fuel : Nat)

theorem interpretFrom_append (last : Value ρ EnvId) (p q : List (Stmt ρ)) :
    interpretFrom site fuel last (p ++ q) =
      interpretFrom site fuel last p >>= fun v => interpretFrom site fuel v q := by
  induction p generalizing last with
  | nil => rfl
  | cons s p ih =>
    cases s with
    | expr e => simp only [List.cons_append, interpretFrom, bind_assoc, ih]
    | _ => simp only [List.cons_append, interpretFrom, bind_assoc, ih]

/-- Programs that end alike, up to their values if one has none of its own. -/
theorem interpretFrom_last (last last' : Value ρ EnvId) (p : List (Stmt ρ)) (m : Machine ρ) :
    match interpretFrom site fuel last p m with
    | .ok v m' => ∃ v', interpretFrom site fuel last' p m = .ok v' m' ∧ (hasValue p → v' = v)
    | .error stop m' => interpretFrom site fuel last' p m = .error stop m' := by
  induction p generalizing m with
  | nil => exact ⟨last', rfl, nofun⟩
  | cons s p ih =>
    have other (hs : hasValue (s :: p) = hasValue p)
        (hi : ∀ last, interpretFrom site fuel last (s :: p) =
          exec site fuel s >>= fun _ => interpretFrom site fuel last p) :
        match interpretFrom site fuel last (s :: p) m with
        | .ok v m' => ∃ v', interpretFrom site fuel last' (s :: p) m = .ok v' m' ∧
            (hasValue (s :: p) → v' = v)
        | .error stop m' => interpretFrom site fuel last' (s :: p) m = .error stop m' := by
      rw [hi, hi, hs]
      simp only [bind, EStateM.bind]
      cases exec site fuel s m with
      | ok o m' => exact ih m'
      | error stop m' => rfl
    cases s with
    | expr e =>
      have hi : interpretFrom site fuel last' (.expr e :: p) =
        interpretFrom site fuel last (.expr e :: p) := rfl
      rw [hi]
      cases interpretFrom site fuel last (.expr e :: p) m with
      | ok v m' => exact ⟨v, rfl, fun _ => rfl⟩
      | error stop m' => rfl
    | _ => exact other rfl fun _ => rfl

/-- Where the output can be brought to its end, nothing happens behind the last statement. -/
theorem interpret_of_flushes {m : Machine ρ} (hf : m.host.console.flushFails = false)
    (p : List (Stmt ρ)) : interpret site fuel p m = interpretFrom site fuel .nil p m := by
  have keeps := interpretFrom_keeps Run.steady_flushFails site fuel .nil p m
  simp only [interpret, bind, EStateM.bind]
  cases h : interpretFrom site fuel .nil p m with
  | error stop m' => rfl
  | ok v m' =>
    rw [h] at keeps
    have hf' : m'.host.console.flushFails = false := keeps.trans hf
    simp only [Run.flush, bind, EStateM.bind, get, getThe, MonadStateOf.get]
    unfold EStateM.get
    simp only [hf']
    rfl

end Interpret

/-- Forgets on which lines a program stands. -/
def lineless : Relabeling RefId RefId := ⟨id, fun _ => 0⟩

/-- A program does the same on other lines. -/
theorem interpretFrom_lineless (site : RefId → Option Binding) (fuel : Nat)
    (last : Value RefId EnvId) (g : Nat → Nat) (p : List (Stmt RefId)) (m : Machine RefId) :
    Run.relabelResult lineless (Value.relabel lineless)
        (interpretFrom site fuel last (p.map (Stmt.relabel ⟨id, g⟩)) m) =
      Run.relabelResult lineless (Value.relabel lineless) (interpretFrom site fuel last p m) := by
  have follows (p : List (Stmt RefId)) : Run.Follows lineless (Value.relabel lineless)
      (interpretFrom site fuel last p)
      (interpretFrom site fuel (last.relabel lineless) (p.map (Stmt.relabel lineless))) m :=
    interpretFrom_follows (fun _ => rfl) fuel last p m
  have hp : (p.map (Stmt.relabel ⟨id, g⟩)).map (Stmt.relabel lineless) =
      p.map (Stmt.relabel lineless) := by
    rw [List.map_map]
    refine List.map_congr_left fun s _ => ?_
    exact s.relabel_relabel ⟨id, g⟩ lineless
  have h := follows p
  have h' := follows (p.map (Stmt.relabel ⟨id, g⟩))
  unfold Run.Follows at h h'
  rw [← h', hp, h]

/-- The same program on other lines and behind another value ends alike. -/
theorem interpretFrom_onLines (site : RefId → Option Binding) (fuel : Nat)
    (last last' : Value RefId EnvId) (g : Nat → Nat) (p : List (Stmt RefId)) (m : Machine RefId) :
    match interpretFrom site fuel last p m with
    | .ok v t => ∃ v' t',
      interpretFrom site fuel last' (p.map (Stmt.relabel ⟨id, g⟩)) m = .ok v' t' ∧
        t'.relabel lineless = t.relabel lineless ∧
        (hasValue p → v'.relabel lineless = v.relabel lineless)
    | .error stop t => ∃ stop' t',
      interpretFrom site fuel last' (p.map (Stmt.relabel ⟨id, g⟩)) m = .error stop' t' ∧
        t'.relabel lineless = t.relabel lineless ∧
        stop'.relabel lineless = stop.relabel lineless := by
  have lines := interpretFrom_lineless site fuel last' g p m
  have values := interpretFrom_last site fuel last last' p m
  generalize interpretFrom site fuel last' (p.map (Stmt.relabel ⟨id, g⟩)) m = r at *
  cases h : interpretFrom site fuel last p m with
  | ok v t =>
    rw [h] at values
    obtain ⟨v', hv, same⟩ := values
    rw [hv] at lines
    cases r with
    | ok w t' =>
      injection lines with hw ht
      exact ⟨w, t', rfl, ht, fun hp => hw.trans (congrArg _ (same hp))⟩
    | error stop t' => cases lines
  | error stop t =>
    rw [h] at values
    rw [values] at lines
    cases r with
    | ok w t' => cases lines
    | error stop' t' =>
      injection lines with hs ht
      exact ⟨stop', t', rfl, ht, hs⟩

def Failure.lineless : Failure → Failure
  | .rejected ds => .rejected ds
  | .stopped s => .stopped (s.relabel Lox.lineless)

namespace Session

/-- The session, whatever lines its programs are on. -/
def lineless (s : Session) : Session :=
  { s with
    machine := s.machine.relabel Lox.lineless
    warnings := s.warnings.map (Scoping.Finding.relabel Lox.lineless) }

section Append

variable {unused : Severity} {first second : String}

variable (h₁ : rejection unused first = []) (h₂ : rejection unused second = [])

include h₁ h₂

theorem rejection_append : rejection unused (first ++ "\n" ++ second) = [] := by
  have hf₁ := faults_of_rejection h₁
  have hf₂ := faults_of_rejection h₂
  have he₁ := errors_of_rejection h₁
  have he₂ := errors_of_rejection h₂
  have he : ((scoping second).findings.map (Scoping.Finding.relabel (behind first))).filter
      (Resolution.isError unused) = [] := by
    rw [List.filter_map]
    exact List.map_eq_nil_iff.mpr he₂
  rw [rejection, if_pos (faults_append hf₁ hf₂), scoping_append hf₁ hf₂]
  rw [Resolution.errors] at he₁
  rw [Resolution.errors, List.filter_append, he₁, he]
  rfl

theorem noted_append : noted unused (first ++ "\n" ++ second) =
    noted unused first ++ (noted unused second).map (Scoping.Finding.relabel (behind first)) := by
  have hf₁ := faults_of_rejection h₁
  have hf₂ := faults_of_rejection h₂
  rw [noted, noted, noted, if_pos (faults_append hf₁ hf₂), if_pos hf₁, if_pos hf₂,
    scoping_append hf₁ hf₂, Resolution.warnings, List.filter_append, List.filter_map]
  rfl

theorem program_append (d : RefId) : program (first ++ "\n" ++ second) d = program first d ++
    (program second ((reading first).nextId + d)).map
      (Stmt.relabel ⟨id, linesBelow (lineCount first)⟩) := by
  rw [program, reading_append (faults_of_rejection h₁) (faults_of_rejection h₂), List.map_append,
    List.map_map, program, program, List.map_map]
  congr 2
  funext s
  simp only [Function.comp, Stmt.relabel_relabel]
  congr 1
  simp only [Relabeling.comp, behind, shifting]
  congr 1
  funext i
  exact Nat.add_assoc i _ d

theorem entries_append (d : RefId) :
    Reference.entries (scoping (first ++ "\n" ++ second)).references d =
      Reference.entries (scoping first).references d ++
        Reference.entries (scoping second).references ((reading first).nextId + d) := by
  have hr : (scoping (first ++ "\n" ++ second)).references = (scoping first).references ++
      (scoping second).references.map (behind first).bound.ref := by
    rw [scoping_append (faults_of_rejection h₁) (faults_of_rejection h₂), Resolution.references,
      Stmt.referencesAll_append, ← Stmt.relabelAll_eq_map, Stmt.referencesAll_relabelAll]
    rfl
  rw [hr, Reference.entries, List.filterMap_append, List.filterMap_map]
  congr 2
  funext r
  change Option.map (r.id + (reading first).nextId + d, ·) r.binding = _
  rw [Nat.add_assoc]

end Append

end Session

namespace History

/-- What the run of an accepted text comes to in some other machine. -/
theorem run_running {h : History} {source : String}
    (hr : Session.rejection h.session.unused source = []) {m : Machine RefId}
    (hf : m.host.console.flushFails = false) (fuel : Nat) :
    Session.run fuel source { h.session with machine := m } =
      match interpretFrom (h.accepting source).session.bindings.find? fuel .nil
        (Session.program source h.session.nextId) m with
      | .ok v machine => .ok v { (h.accepting source).session with machine }
      | .error stop machine => .error (.stopped stop) { (h.accepting source).session with machine } := by
  have run := run_accepting (h := h.running m) hr fuel
  rw [Session.execute_run] at run
  rw [← interpret_of_flushes _ fuel hf]
  exact run

variable {h : History} {first second : String}
  (h₁ : Session.rejection h.session.unused first = [])
  (h₂ : Session.rejection h.session.unused second = [])

include h₁ h₂

theorem bindings_accepting_append :
    (h.accepting (first ++ "\n" ++ second)).session.bindings =
      ((h.accepting first).accepting second).session.bindings := by
  simp only [bindings_accepting, nextId_accepting, Session.entries_append h₁ h₂,
    Bindings.insertAll, List.foldl_append]

theorem lineless_accepting_append {m m' : Machine RefId}
    (hm : m'.relabel lineless = m.relabel lineless) :
    { (h.accepting (first ++ "\n" ++ second)).session with machine := m' }.lineless =
      { ((h.accepting first).accepting second).session with machine := m }.lineless := by
  have hn : (h.accepting (first ++ "\n" ++ second)).session.nextId =
      ((h.accepting first).accepting second).session.nextId := by
    have hd := congrArg Parsed.nextId (Session.reading_append (Session.faults_of_rejection h₁)
      (Session.faults_of_rejection h₂))
    rw [nextId_accepting, nextId_accepting, nextId_accepting, hd]
    exact Nat.add_assoc _ _ _
  have hw : ((h.accepting (first ++ "\n" ++ second)).session.warnings).map
        (Scoping.Finding.relabel lineless) =
      (((h.accepting first).accepting second).session.warnings).map
        (Scoping.Finding.relabel lineless) := by
    have hj := Session.noted_append h₁ h₂
    change (h.session.warnings ++ Session.noted h.session.unused (first ++ "\n" ++ second)).map _ =
      (h.session.warnings ++ Session.noted h.session.unused first ++
        Session.noted h.session.unused second).map _
    rw [hj, ← List.append_assoc]
    simp only [List.map_append, List.map_map]
    rfl
  simp only [Session.lineless, hm, hn, hw, bindings_accepting_append h₁ h₂, unused_accepting]

/-- The first text runs as by itself, although the bindings of the second one are known already. -/
theorem interpretFrom_first (hg : h.Grounded) (fuel : Nat) :
    interpretFrom (h.accepting (first ++ "\n" ++ second)).session.bindings.find? fuel .nil
        (Session.program first h.session.nextId) h.session.machine =
      interpretFrom (h.accepting first).session.bindings.find? fuel .nil
        (Session.program first h.session.nextId) h.session.machine := by
  have hg' := hg.accepting first
  refine interpretFrom_congr (fun id hi => ?_) hg'.machine (hg'.programs _ (h.mem_accepting first))
    fuel
  rw [bindings_accepting_append h₁ h₂]
  exact (h.accepting first).find?_accepting second hi

/-- The run of the join begins with the run of the first text. -/
theorem interpret_append (hg : h.Grounded) (hf : h.session.machine.host.console.flushFails = false)
    (fuel : Nat) :
    interpret (h.accepting (first ++ "\n" ++ second)).session.bindings.find? fuel
        (Session.program (first ++ "\n" ++ second) h.session.nextId) h.session.machine =
      match interpret (h.accepting first).session.bindings.find? fuel
        (Session.program first h.session.nextId) h.session.machine with
      | .error stop m => .error stop m
      | .ok v m =>
        interpretFrom ((h.accepting first).accepting second).session.bindings.find? fuel v
          ((Session.program second (h.accepting first).session.nextId).map
            (Stmt.relabel ⟨id, linesBelow (lineCount first)⟩)) m := by
  rw [interpret_of_flushes _ fuel hf, interpret_of_flushes _ fuel hf,
    Session.program_append h₁ h₂, interpretFrom_append]
  simp only [bind, EStateM.bind]
  rw [interpretFrom_first h₁ h₂ hg, bindings_accepting_append h₁ h₂]
  cases interpretFrom (h.accepting first).session.bindings.find? fuel .nil
    (Session.program first h.session.nextId) h.session.machine <;> rfl

end History

/-- How one run of a session ends compared with another one: with the same failure or, if the program
has a value of its own, the same value, and with the same of everything else. Lines do not count. -/
def EndsAlike (p : Program) (r : EStateM.Result Failure Session (Value RefId EnvId)) :
    EStateM.Result Failure Session (Value RefId EnvId) → Prop
  | .ok v s => ∃ v' s', r = .ok v' s' ∧ s'.lineless = s.lineless ∧
    (hasValue p → v'.relabel lineless = v.relabel lineless)
  | .error f s => ∃ f' s', r = .error f' s' ∧ s'.lineless = s.lineless ∧ f'.lineless = f.lineless

namespace History

/-- Texts that are run in pieces do what their join does. If the first one fails, so does the join. -/
theorem pieces_run_as_whole {h : History} (hr : h.Reachable)
    (hf : h.session.machine.host.console.flushFails = false) {first second : String}
    {p₁ p₂ : Program} {s₁ s₂ : Session} (h₁ : Session.compile first h.session = .ok p₁ s₁)
    (h₂ : Session.compile second h.session = .ok p₂ s₂) :
    (∃ p s w₁ w₂, Session.compile (first ++ "\n" ++ second) h.session = .ok p s ∧
      s₁.warnings = h.session.warnings ++ w₁ ∧ s₂.warnings = h.session.warnings ++ w₂ ∧
      s.warnings = h.session.warnings ++ w₁ ++
        w₂.map (Scoping.Finding.relabel ⟨id, linesBelow (lineCount first)⟩)) ∧
    ∀ fuel,
      (∀ v s, Session.run fuel first h.session = .ok v s →
        EndsAlike p₂ (Session.run fuel (first ++ "\n" ++ second) h.session)
          (Session.run fuel second s)) ∧
      ∀ f s, Session.run fuel first h.session = .error f s → ∃ s',
        Session.run fuel (first ++ "\n" ++ second) h.session = .error f s' ∧
          s'.machine = s.machine := by
  obtain ⟨hr₁, rfl, rfl⟩ := accepting_of_compile h₁
  obtain ⟨hr₂, rfl, rfl⟩ := accepting_of_compile h₂
  have hr := Session.rejection_append hr₁ hr₂
  constructor
  · refine ⟨_, _, Session.noted h.session.unused first, Session.noted h.session.unused second,
      (h.compile_session _).trans (if_pos hr), rfl, rfl, ?_⟩
    rw [List.append_assoc]
    exact congrArg (h.session.warnings ++ ·) (Session.noted_append hr₁ hr₂)
  intro fuel
  rw [run_accepting hr₁, run_accepting hr, Session.execute_run, Session.execute_run,
    machine_accepting, machine_accepting, interpret_append hr₁ hr₂ ‹h.Reachable›.grounded hf]
  have keeps := interpretFrom_keeps Run.steady_flushFails
    (h.accepting first).session.bindings.find? fuel .nil
    (Session.program first h.session.nextId) h.session.machine
  rw [← interpret_of_flushes _ fuel hf] at keeps
  cases hi : interpret (h.accepting first).session.bindings.find? fuel
    (Session.program first h.session.nextId) h.session.machine with
  | error stop m =>
    dsimp only
    constructor
    · intro v s hs
      injection hs
    · intro f s hs
      injection hs with hf hs
      subst hf hs
      exact ⟨_, rfl, rfl⟩
  | ok v m =>
    rw [hi] at keeps
    have hf' : m.host.console.flushFails = false := keeps.trans hf
    have others := interpretFrom_onLines
      ((h.accepting first).accepting second).session.bindings.find? fuel .nil v
      (linesBelow (lineCount first)) (Session.program second (h.accepting first).session.nextId) m
    have hr₂' : Session.rejection (h.accepting first).session.unused second = [] := hr₂
    have run := run_running hr₂' hf' fuel
    dsimp only
    constructor
    · intro v' s hs
      injection hs with hv hs
      subst hv hs
      rw [run]
      cases hs : interpretFrom ((h.accepting first).accepting second).session.bindings.find? fuel
        .nil (Session.program second (h.accepting first).session.nextId) m with
      | ok w t =>
        rw [hs] at others
        obtain ⟨w', t', hw, ht, hv⟩ := others
        refine ⟨w', _, by rw [hw], lineless_accepting_append hr₁ hr₂ ht, fun hp => hv ?_⟩
        rw [Session.program, hasValue_map] at hp ⊢
        exact hp
      | error stop t =>
        rw [hs] at others
        obtain ⟨stop', t', hw, ht, hs⟩ := others
        exact ⟨.stopped stop', _, by rw [hw], lineless_accepting_append hr₁ hr₂ ht,
          congrArg Failure.stopped hs⟩
    · intro f s hs
      injection hs

/-- The same of a declaration and of the use of its variable. -/
theorem declaration_and_use_run_as_whole :
    ∃ p₁ p₂ s₁ s₂, Session.compile "var a = nil;" (start {} .warning).session = .ok p₁ s₁ ∧
      Session.compile "a;" (start {} .warning).session = .ok p₂ s₂ ∧
      (∃ p s, Session.compile ("var a = nil;" ++ "\n" ++ "a;") (start {} .warning).session =
        .ok p s) ∧
      ∀ fuel v s, Session.run fuel "var a = nil;" (start {} .warning).session = .ok v s →
        EndsAlike p₂
          (Session.run fuel ("var a = nil;" ++ "\n" ++ "a;") (start {} .warning).session)
          (Session.run fuel "a;" s) := by
  have accepted (source : String) (h : (Session.rejection .warning source).isEmpty = true) :
      ∃ p s, Session.compile source (start {} .warning).session = .ok p s := by
    rw [compile_session]
    exact ⟨_, _, if_pos (List.isEmpty_iff.mp h)⟩
  obtain ⟨p₁, s₁, h₁⟩ := accepted "var a = nil;" (by decide +kernel)
  obtain ⟨p₂, s₂, h₂⟩ := accepted "a;" (by decide +kernel)
  obtain ⟨⟨p, s, _, _, hp, _⟩, runs⟩ := pieces_run_as_whole (reachable_start {} .warning) rfl h₁ h₂
  exact ⟨p₁, p₂, s₁, s₂, h₁, h₂, ⟨p, s, hp⟩, fun fuel => (runs fuel).1⟩

end History

end Lox
