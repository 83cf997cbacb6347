import Lox.Proofs.Journal.Evaluator
import Lox.Proofs.Text.Utf8

/-!
Requests to natives. Of what happens in a run, only calls of natives and printing reach the surroundings.
A native that is asked for something replies, or says why it does not, and leaves other surroundings.
-/

namespace Lox

open Text FileSystem

variable {ρ κ : Type}

/-- What a native replies when it is asked for something, or the fault. -/
abbrev Response (ρ : Type) := Except RuntimeFault (Value ρ EnvId)

/-- What the native replies, and the surroundings that it leaves. -/
def Native.serve (n : Native) (vs : List (Value ρ EnvId)) (host : Host) : Response ρ × Host :=
  if h : vs.length = n.arity then
    match n.run vs h host with
    | .ok v host => (.ok v, host)
    | .error fault host => (.error (.native n fault), host)
  else (.error (.arityMismatch n.arity vs.length), host)

namespace Event

/-- What the event does outside of the program, with the reply if it asks for one. A native that is
called with too many or too few arguments does not begin to run. -/
def serve (e : Event ρ) (host : Host) : Option (Response ρ) × Host :=
  match e with
  | .call (.native n) vs _ =>
    if vs.length = n.arity then (none, host) else (some (n.serve vs host).1, host)
  | .native n vs => (some (n.serve vs host).1, (n.serve vs host).2)
  | .print text => (none, { host with console := (host.console.write (Utf8.encode text)).2 })
  | _ => (none, host)

/-- What the events do one after another, with all the replies. -/
def serveAll : List (Event ρ) → Host → List (Response ρ) × Host
  | [], host => ([], host)
  | e :: es, host =>
    let (reply, host) := e.serve host
    let (replies, host) := serveAll es host
    (reply.toList ++ replies, host)

/-- The surroundings behind the events. -/
def after (es : List (Event ρ)) (host : Host) : Host := (serveAll es host).2

theorem serveAll_cons (e : Event ρ) (es : List (Event ρ)) (host : Host) :
    serveAll (e :: es) host =
      ((e.serve host).1.toList ++ (serveAll es (e.serve host).2).1, (serveAll es (e.serve host).2).2) :=
  rfl

theorem serveAll_append (es es' : List (Event ρ)) (host : Host) :
    serveAll (es ++ es') host =
      ((serveAll es host).1 ++ (serveAll es' (after es host)).1, after es' (after es host)) := by
  induction es generalizing host with
  | nil => rfl
  | cons e es ih =>
    rw [List.cons_append, serveAll_cons, ih, serveAll_cons]
    simp only [after, serveAll_cons, List.append_assoc]

@[simp] theorem after_cons (e : Event ρ) (es : List (Event ρ)) (host : Host) :
    after (e :: es) host = after es (e.serve host).2 := rfl

@[simp] theorem after_append (es es' : List (Event ρ)) (host : Host) :
    after (es ++ es') host = after es' (after es host) := by
  rw [after, serveAll_append]

end Event

/-! What natives do with an open stream. -/

namespace Native

variable {id : HandleId} {h : Handle} {host : Host}

theorem snd_serve {n : Native} {vs : List (Value ρ EnvId)} (ha : vs.length = n.arity) :
    (n.serve vs host).2 = ending (n.run vs ha host) := by
  rw [serve, dif_pos ha]
  cases n.run vs ha host <;> rfl

theorem serve_ok {n : Native} {vs : List (Value ρ EnvId)} (ha : vs.length = n.arity)
    {v : Value ρ EnvId} {host' : Host} (h : n.run vs ha host = .ok v host') :
    n.serve vs host = (.ok v, host') := by
  rw [serve, dif_pos ha, h]

theorem of_serve_ok {n : Native} {vs : List (Value ρ EnvId)} {v : Value ρ EnvId} {host' : Host}
    (h : n.serve vs host = (.ok v, host')) : ∃ ha, n.run vs ha host = .ok v host' := by
  unfold serve at h
  split at h
  · next ha =>
    refine ⟨ha, ?_⟩
    cases hr : n.run vs ha host with
    | ok w host'' =>
      rw [hr] at h
      cases h
      rfl
    | error fault host'' =>
      rw [hr] at h
      cases h
  · cases h

theorem serve_error {n : Native} {vs : List (Value ρ EnvId)} (ha : vs.length = n.arity)
    {fault : Fault} {host' : Host} (h : n.run vs ha host = .error fault host') :
    n.serve vs host = (.error (.native n fault), host') := by
  rw [serve, dif_pos ha, h]

namespace Action

theorem stream_run (hh : host.files.handle? id = some h) :
    stream (.file id : Value ρ κ) host = .ok (id, h) host := by
  have found : files host = .ok host.files host := rfl
  rw [stream, bind_of_ok found, hh]
  rfl

theorem openStream_run (hh : host.files.handle? id = some h) (hc : h.closed = false) :
    openStream (.file id : Value ρ κ) host = .ok (id, h) host := by
  rw [openStream, bind_of_ok (stream_run hh)]
  simp only [hc]
  rfl

theorem readable_run (hh : host.files.handle? id = some h) (hc : h.closed = false)
    (ha : h.appends = false) : readable (.file id : Value ρ κ) host = .ok (id, h) host := by
  rw [readable, bind_of_ok (openStream_run hh hc)]
  simp only [ha]
  rfl

end Action

end Native

end Lox
