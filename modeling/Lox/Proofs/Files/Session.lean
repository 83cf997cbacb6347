import Lox.Proofs.Files.Apart
import Lox.Proofs.Files.Journaled
import Lox.Proofs.Files.Kept
import Lox.Proofs.Session.Running

/-!
Files in sessions. What the steps of a session do outside of their programs is told by one journal. So a
call that is rejected by its own checks changes nothing, and a stream that was closed in one step is
closed in all later ones.
-/

namespace Lox

open Text FileSystem

namespace History

/-- What happens in a step. -/
def events (h : History) (step : Step) : List (Event RefId) :=
  match h.runs? step with
  | some ((h, p), fuel) =>
    (ending (Journal.interpret h.session.bindings.find? fuel p ⟨h.session.machine, []⟩)).events
  | none => []

/-- What happens in steps one after another. -/
def journal (h : History) : List Step → List (Event RefId)
  | [] => []
  | step :: steps => h.events step ++ (h.perform step).2.journal steps

def host (h : History) : Host := h.session.machine.host

/-- What a step does outside is told by its journal. A request that is refused is the last event of the
step, which fails with it. -/
theorem perform_served (h : History) (step : Step) :
    (∀ e ∈ h.events step, e.Formed) ∧ (h.perform step).2.host = Event.after (h.events step) h.host ∧
      ∀ {before later e fault}, h.events step = before ++ e :: later →
        (e.serve (Event.after before h.host)).1 = some (.error fault) →
        later = [] ∧ ∃ line, (h.perform step).1 = .failure (.stopped (.error ⟨fault, line⟩)) := by
  cases hr : h.runs? step with
  | none =>
    have nothing : h.events step = [] := by rw [events, hr]
    rw [nothing]
    refine ⟨nofun, congrArg Machine.host (perform_of_runs_none hr).1, fun {before later e fault} split => ?_⟩
    simp at split
  | some r =>
    obtain ⟨⟨h', p⟩, fuel⟩ := r
    obtain ⟨machine, answer, performed, _⟩ := perform_of_runs hr
    have host : h'.host = h.host := congrArg Machine.host machine
    obtain ⟨new, formed, journal, served⟩ := interpret_paired Journal.Asks.paired
      h'.session.bindings.find? fuel p h'.session.machine []
    have events : h.events step = new := by
      rw [History.events, hr]
      dsimp only
      rw [journal, ending_onState, List.nil_append]
    have left : (h'.executing fuel p answer).2.host =
        (ending (interpret h'.session.bindings.find? fuel p h'.session.machine)).host := by
      rw [executing]
      cases interpret h'.session.bindings.find? fuel p h'.session.machine <;> rfl
    rw [events, performed, ← host]
    refine ⟨formed, left.trans served.left, fun {before later e fault} split refused => ?_⟩
    rw [split] at served
    obtain ⟨nothing, line, m, failed⟩ := served.last refused
    refine ⟨nothing, line, ?_⟩
    rw [executing, failed]

/-- What steps do outside is told by their journal. -/
theorem performAll_host (h : History) (steps : List Step) :
    (h.performAll steps).host = Event.after (h.journal steps) h.host := by
  induction steps generalizing h with
  | nil => rfl
  | cons step steps ih =>
    have first := (h.perform_served step).2.1
    rw [journal, Event.after_append, ← first]
    exact ih _

/-- A call that is rejected by its own checks fails, and leaves everything outside as it was. Once a
stream is closed, by whatever call in whatever step, each call that needs it open is rejected. Whatever
is asked of other streams and of paths, once or again and again, is answered as if it were open. -/
theorem closing_final (h : History) (steps : List Step) (step : Step)
    {before later : List (Event RefId)} {e : Event RefId}
    (happens : (h.performAll steps).events step = before ++ e :: later) :
    let host := Event.after (h.journal steps ++ before) h.host
    let (answer, left) := (h.performAll steps).perform step
    (∀ {fault : RuntimeFault}, (e.serve host).1 = some (.error fault) → fault.IsCheck →
      left.host = host ∧ ∃ line, answer = .failure (.stopped (.error ⟨fault, line⟩))) ∧
    (∀ {earlier between : List (Event RefId)} {id : HandleId} {v : Value RefId EnvId},
      h.journal steps ++ before = earlier ++ .native .fileClose [.file id] :: between →
      ((Event.native .fileClose [.file id]).serve (Event.after earlier h.host)).1 = some (.ok v) →
      ∀ {n : Native} {vs : List (Value RefId EnvId)}, n.NeedsOpen → e = .native n (.file id :: vs) →
        left.host = host ∧
          RuntimeFault.message (.native n .closed) = n.name ++ ": file stream is closed." ∧
          ∃ line, answer = .failure (.stopped (.error ⟨.native n .closed, line⟩))) ∧
    ∀ {id : HandleId} {v : Value RefId EnvId}, e = .native .fileClose [.file id] →
      (e.serve host).1 = some (.ok v) → (e.serve host).2 = host.closing id ∧
        (∀ file, (host.closing id).files.content file = host.files.content file) ∧
        (∀ other, id ≠ other →
          (host.closing id).files.handle? other = host.files.handle? other) ∧
        ∀ es : List (Event RefId), (∀ e ∈ es, e.Apart id) →
          Event.serveAll es (host.closing id) =
            ((Event.serveAll es host).1, (Event.serveAll es host).2.closing id) := by
  intro host
  obtain ⟨formed, told, last⟩ := (h.performAll steps).perform_served step
  have here : Event.after before (h.performAll steps).host = host := by
    rw [performAll_host, ← Event.after_append]
  -- a rejected request is the last event, and leaves what was there before it
  have rejected {fault : RuntimeFault} (refused : (e.serve host).1 = some (.error fault))
      (check : fault.IsCheck) : ((h.performAll steps).perform step).2.host = host ∧
        ∃ line, ((h.performAll steps).perform step).1 =
          .failure (.stopped (.error ⟨fault, line⟩)) := by
    obtain ⟨rfl, failed⟩ := last happens (by rw [here]; exact refused)
    have unchanged : (e.serve host).2 = host := Event.serve_rejected (Prod.ext refused rfl) check
    rw [told, happens, Event.after_append, here, Event.after_cons, unchanged]
    exact ⟨rfl, failed⟩
  refine ⟨rejected, ?_, ?_⟩
  · intro earlier between id v split granted n vs needs he
    have closed : host.Closed id := by
      have closing := (Event.serve_fileClose (Prod.ext granted rfl)).2
      change (Event.after (h.journal steps ++ before) h.host).Closed id
      rw [split, Event.after_append, Event.after_cons]
      exact Event.after_closed between closing
    subst he
    have arity : Event.Formed (.native n (.file id :: vs)) :=
      formed _ (happens ▸ List.mem_append_right _ List.mem_cons_self)
    have refused : ((Event.native n (.file id :: vs)).serve host).1 =
        some (.error (.native n .closed)) := by
      rw [Event.serve, closed.serve needs arity]
    obtain ⟨unchanged, failed⟩ := rejected refused trivial
    exact ⟨unchanged, String.append_assoc .., failed⟩
  · rintro id v rfl granted
    obtain ⟨does, closed⟩ := Event.serve_fileClose (Prod.ext granted rfl)
    refine ⟨does, fun _ => rfl, fun other ho => ?_, fun es apart => ?_⟩
    · change (host.files.close id).handle? other = _
      rw [FileSystem.close, handle?_modifyHandle, if_neg ho]
    · exact Event.serveAll_closing (does ▸ closed) apart

section Instance

/-- A call of a global function with a global variable. -/
def callOn (function argument : String) : Expr RefId :=
  .call (.variable 0 ⟨function, 1⟩) [.variable 1 ⟨argument, 1⟩] 1

/-- What happens up to the point where the native runs. -/
def eventsOn (function argument : String) (n : Native) (v : Value RefId EnvId) : List (Event RefId) :=
  [.expression (callOn function argument), .expression (.variable 0 ⟨function, 1⟩), .memory,
    .expression (.variable 1 ⟨argument, 1⟩), .memory, .call (.native n) [v] 1]

/-- Surroundings with two streams on one file. -/
def sharing : Host :=
  { Host.scratch with files := { Host.scratch.files with handles := #[{ file := 0 }, { file := 0 }] } }

/-- A session in which `f` holds one of the streams, with a program that closes it and one that reads
it. -/
def holding : History where
  session :=
    { machine :=
        { (Machine.start sharing) with
          environments := (Machine.start sharing : Machine RefId).environments.define .global "f"
            (some (.file 0)) } }
  programs := [[.expr (callOn "file_close" "f")], [.expr (callOn "file_read" "f")]]

theorem closing_final_in_next_program :
    (holding.performAll [.execute 3 0]).events (.execute 3 1) =
        eventsOn "file_read" "f" .fileRead (.file 0) ++ .native .fileRead [.file 0] :: [] ∧
      (∃ line, ((holding.performAll [.execute 3 0]).perform (.execute 3 1)).1 =
        .failure (.stopped (.error ⟨.native .fileRead .closed, line⟩))) ∧
      (holding.performAll []).events (.execute 3 0) =
        eventsOn "file_close" "f" .fileClose (.file 0) ++ .native .fileClose [.file 0] :: [.flush] ∧
      Event.Apart 0 (.native .seekStart [.file 1] : Event RefId) ∧
      (Event.serveAll [.native .seekStart [.file 1]] (holding.host.closing 0)).1 =
        [(.ok .nil : Response RefId)] := by
  have read : (holding.performAll [.execute 3 0]).events (.execute 3 1) =
      eventsOn "file_read" "f" .fileRead (.file 0) ++ .native .fileRead [.file 0] :: [] := rfl
  have close : (holding.performAll []).events (.execute 3 0) =
      eventsOn "file_close" "f" .fileClose (.file 0) ++ .native .fileClose [.file 0] :: [.flush] := rfl
  have journal : holding.journal [.execute 3 0] ++ eventsOn "file_read" "f" .fileRead (.file 0) =
      eventsOn "file_close" "f" .fileClose (.file 0) ++ .native .fileClose [.file 0] ::
        .flush :: eventsOn "file_read" "f" .fileRead (.file 0) := rfl
  have granted : ((Event.native .fileClose [.file 0] : Event RefId).serve
      (Event.after (eventsOn "file_close" "f" .fileClose (.file 0)) holding.host)).1 =
        some (.ok .nil) := rfl
  have needs : Native.NeedsOpen .fileRead := trivial
  have final := closing_final holding [.execute 3 0] (.execute 3 1) read
  have closing := closing_final holding [] (.execute 3 0) close
  have apart : Event.Apart 0 (.native .seekStart [.file 1] : Event RefId) := by
    intro n vs h
    cases h
    simp
  have same := (closing.2.2 rfl granted).2.2.2 [.native .seekStart [.file 1]] (by simpa using apart)
  exact ⟨read, (final.2.1 journal granted needs rfl).2.2, close, apart, congrArg Prod.fst same⟩

end Instance

end History

end Lox
