import Lox.Proofs.Files.Serving
import Lox.Proofs.Journal.Paired

/-!
What a run does outside of the program. The journal tells all of it: the surroundings that a run leaves
are those behind the events of its journal. A request that is refused is the last event of a run, which
fails with it.
-/

namespace Lox

variable {ρ α β : Type}

namespace Event

/-- A native that runs has as many arguments as it takes. -/
def Formed : Event ρ → Prop
  | .native n vs => vs.length = n.arity
  | _ => True

/-- Nothing that the events ask for is refused. -/
def Granted (es : List (Event ρ)) (host : Host) : Prop := ∀ reply ∈ (serveAll es host).1, ∃ v, reply = .ok v

theorem granted_nil (host : Host) : Granted ([] : List (Event ρ)) host := nofun

theorem granted_append {es es' : List (Event ρ)} {host : Host} :
    Granted (es ++ es') host ↔ Granted es host ∧ Granted es' (after es host) := by
  simp only [Granted, serveAll_append, List.mem_append]
  constructor
  · exact fun h => ⟨fun reply hr => h reply (.inl hr), fun reply hr => h reply (.inr hr)⟩
  · rintro ⟨h, h'⟩ reply (hr | hr)
    · exact h reply hr
    · exact h' reply hr

theorem granted_singleton {e : Event ρ} {host host' : Host}
    (h : e.serve host = (none, host')) : Granted [e] host := by
  intro reply hr
  rw [serveAll_cons, h] at hr
  cases hr

theorem not_granted {before later : List (Event ρ)} {e : Event ρ} {host : Host}
    {fault : RuntimeFault} (refused : (e.serve (after before host)).1 = some (.error fault)) :
    ¬ Granted (before ++ e :: later) host := by
  intro h
  have reply := (granted_append.mp h).2 (.error fault)
  rw [serveAll_cons, refused] at reply
  obtain ⟨v, hv⟩ := reply List.mem_cons_self
  cases hv

theorem IsInner.serve {e : Event ρ} (h : e.IsInner) (host : Host) : e.serve host = (none, host) := by
  unfold Event.serve
  split
  · exact if_pos h
  · exact h.elim
  · exact h.elim
  · rfl

theorem IsInner.formed {e : Event ρ} (h : e.IsInner) : e.Formed := by
  cases e with
  | native n vs => exact h.elim
  | _ => trivial

end Event

open Event (Granted after)

namespace Journal

/-- What the events do is what the run does outside of the program: all that it asks for is granted, or
the last request is refused, and then it fails with that. -/
inductive Served (host : Host) : List (Event ρ) → EStateM.Result Stop (Machine ρ) α → Prop
  | granted {new : List (Event ρ)} {r : EStateM.Result Stop (Machine ρ) α} (granted : Granted new host)
      (left : (ending r).host = after new host) : Served host new r
  | refused {before : List (Event ρ)} {e : Event ρ} {fault : RuntimeFault} {line : Option Nat}
      {m : Machine ρ} (granted : Granted before host)
      (refused : e.serve (after before host) = (some (.error fault), m.host)) :
      Served host (before ++ [e]) (.error (.error ⟨fault, line⟩) m)

namespace Served

variable {host : Host} {new : List (Event ρ)}

theorem left {r : EStateM.Result Stop (Machine ρ) α} (h : Served host new r) :
    (ending r).host = after new host := by
  cases h with
  | granted granted left => exact left
  | refused granted refused =>
    rw [Event.after_append, Event.after_cons, refused]
    rfl

theorem granted_of_ok {a : α} {m : Machine ρ} (h : Served host new (.ok a m)) : Granted new host := by
  cases h with
  | granted granted left => exact granted

/-- A run that asks for one thing, which is refused. -/
theorem of_refused {e : Event ρ} {fault : RuntimeFault} {line : Option Nat} {m : Machine ρ}
    (refused : e.serve host = (some (.error fault), m.host)) :
    Served (α := α) host [e] (.error (.error ⟨fault, line⟩) m) :=
  (Served.refused (Event.granted_nil host) refused :)

/-- Another result that leaves the same surroundings, with the same fault if there is one. -/
theorem congr {r : EStateM.Result Stop (Machine ρ) α} {r' : EStateM.Result Stop (Machine ρ) β}
    (h : Served host new r) (left : (ending r').host = (ending r).host)
    (fails : ∀ fault line m, r = .error (.error ⟨fault, line⟩) m →
      ∃ line' m', r' = .error (.error ⟨fault, line'⟩) m') : Served host new r' := by
  cases h with
  | granted granted left' => exact .granted granted (left.trans left')
  | refused granted refused =>
    obtain ⟨line', m', rfl⟩ := fails _ _ _ rfl
    have left : m'.host = _ := left
    exact .refused granted (left ▸ refused)

/-- What goes on behind events that are granted. -/
theorem later {before : List (Event ρ)} {r : EStateM.Result Stop (Machine ρ) α}
    (hb : Granted before host) (h : Served (after before host) new r) : Served host (before ++ new) r := by
  cases h with
  | granted granted left =>
    exact .granted (Event.granted_append.mpr ⟨hb, granted⟩) (by rw [left, Event.after_append])
  | refused granted refused =>
    rw [← List.append_assoc]
    refine .refused (Event.granted_append.mpr ⟨hb, granted⟩) ?_
    rwa [Event.after_append]

/-- The refused request is the last one. -/
theorem last {r : EStateM.Result Stop (Machine ρ) α} {before later : List (Event ρ)} {e : Event ρ}
    {fault : RuntimeFault} (h : Served host (before ++ e :: later) r)
    (refused : (e.serve (after before host)).1 = some (.error fault)) :
    later = [] ∧ ∃ line m, r = .error (.error ⟨fault, line⟩) m := by
  generalize split : before ++ e :: later = new at h
  cases h with
  | granted granted left => exact absurd (split ▸ granted) (Event.not_granted refused)
  | @refused first e' fault' line m granted refused' =>
    obtain rfl | ⟨front, last, rfl⟩ := List.eq_nil_or_concat later
    · obtain ⟨rfl, same⟩ := List.append_inj' split rfl
      cases same
      rw [refused'] at refused
      cases refused
      exact ⟨rfl, line, m, rfl⟩
    · have split : (before ++ e :: front) ++ [last] = first ++ [e'] := by
        rw [← split, List.concat_eq_append, List.append_assoc, List.cons_append]
      obtain ⟨rfl, -⟩ := List.append_inj' split rfl
      exact absurd granted (Event.not_granted refused)

end Served

/-- The run with a journal is the run, and the journal tells what it does outside. -/
def Asks (p : Lox.Run ρ α) (j : Run ρ α) : Prop :=
  ∀ m es, ∃ new, (∀ e ∈ new, e.Formed) ∧ j ⟨m, es⟩ = onState (⟨·, es ++ new⟩) (p m) ∧
    Served m.host new (p m)

namespace Asks

theorem lift {p : Lox.Run ρ α} (hp : p.Enclosed) : Asks p (lift p) := fun m es =>
  ⟨[], nofun, by rw [List.append_nil]; rfl, .granted (Event.granted_nil _) (hp.host m)⟩

theorem bind {p : Lox.Run ρ α} {j : Run ρ α} {k : α → Lox.Run ρ β} {l : α → Run ρ β}
    (hp : Asks p j) (hk : ∀ a, Asks (k a) (l a)) : Asks (p >>= k) (j >>= l) := by
  intro m es
  obtain ⟨new, formed, journal, served⟩ := hp m es
  simp only [Bind.bind, EStateM.bind, journal]
  cases hm : p m with
  | error stop m' =>
    rw [hm] at served
    refine ⟨new, formed, rfl, served.congr rfl fun fault line m h => ?_⟩
    cases h
    exact ⟨line, _, rfl⟩
  | ok a m' =>
    rw [hm] at served
    obtain ⟨new', formed', journal', served'⟩ := hk a m' (es ++ new)
    refine ⟨new ++ new', fun e he => ?_, ?_, ?_⟩
    · rcases List.mem_append.mp he with he | he
      · exact formed e he
      · exact formed' e he
    · change l a ⟨m', es ++ new⟩ = _
      rw [journal', List.append_assoc]
    · have left : m'.host = after new m.host := served.left
      exact (left ▸ served').later served.granted_of_ok

theorem noted {p : Lox.Run ρ α} {j : Run ρ α} {e : Event ρ} (inner : e.IsInner) (hp : Asks p j) :
    Asks p (do note e; j) := by
  have first : Asks (Pure.pure () : Lox.Run ρ Unit) (note e) := fun m es =>
    ⟨[e], fun e' he => List.mem_singleton.mp he ▸ inner.formed, rfl,
      .granted (Event.granted_singleton (inner.serve m.host)) (by rw [after, Event.serveAll_cons, inner.serve]; rfl)⟩
  exact first.bind (k := fun _ => p) fun _ => hp

theorem inScope {p : Lox.Run ρ α} {j : Run ρ α} (e : EnvId) (hp : Asks p j) :
    Asks (Lox.Run.inScope e p) (Journal.inScope e j) := by
  intro m es
  obtain ⟨new, formed, journal, served⟩ := hp { m with scope := e } es
  have run : Lox.Run.inScope e p m =
      onState (fun m' => { m' with scope := m.scope }) (p { m with scope := e }) := by
    simp only [Lox.Run.inScope]
    cases p { m with scope := e } <;> rfl
  refine ⟨new, formed, ?_, ?_⟩
  · rw [run, Journal.inScope, journal]
    simp only [onState_onState]
  · rw [run]
    refine served.congr (by rw [ending_onState]) fun fault line m' h => ?_
    rw [h]
    exact ⟨line, _, rfl⟩

theorem onLine {p : Lox.Run ρ α} {j : Run ρ α} (line : Nat) (hp : Asks p j) :
    Asks (Lox.Run.onLine line p) (Journal.onLine line j) := by
  intro m es
  obtain ⟨new, formed, journal, served⟩ := hp m es
  refine ⟨new, formed, ?_, ?_⟩
  · simp only [Journal.onLine, journal, Lox.Run.onLine]
    obtain ⟨a, m'⟩ | ⟨e | _, m'⟩ := p m <;> rfl
  · refine served.congr ?_ fun fault line' m' h => ?_
    · simp only [Lox.Run.onLine]
      obtain ⟨a, m'⟩ | ⟨e | _, m'⟩ := p m <;> rfl
    · simp only [Lox.Run.onLine, h]
      exact ⟨_, _, rfl⟩

theorem native (n : Native) (vs : List (Value ρ EnvId)) (h : vs.length = n.arity) :
    Asks (Lox.Run.native n vs h) (do note (.native n vs); Journal.lift (Lox.Run.native n vs h)) := by
  intro m es
  refine ⟨[.native n vs], fun e he => List.mem_singleton.mp he ▸ h, rfl, ?_⟩
  obtain ⟨environments, scope, objects, host⟩ := m
  simp only [Lox.Run.native]
  cases hr : n.run vs h host with
  | ok v host' =>
    have served : (Event.native n vs).serve host = (some (.ok v), host') := by
      rw [Event.serve, Native.serve_ok h hr]
    refine .granted (fun reply hreply => ⟨v, ?_⟩) ?_
    · rw [Event.serveAll_cons, served] at hreply
      exact List.mem_singleton.mp hreply
    · rw [Event.after_cons, served]
      rfl
  | error fault host' =>
    refine .of_refused ?_
    rw [Event.serve, Native.serve_error h hr]

theorem mismatch {n : Native} {vs : List (Value ρ EnvId)} (line : Nat) (h : vs.length ≠ n.arity) :
    Asks (Lox.Run.raise (.arityMismatch n.arity vs.length) line : Lox.Run ρ (Value ρ EnvId)) (do
      note (.call (.native n) vs line)
      Journal.lift (Lox.Run.raise (.arityMismatch n.arity vs.length) line)) := by
  intro m es
  refine ⟨[.call (.native n) vs line], fun e he => List.mem_singleton.mp he ▸ trivial, rfl, ?_⟩
  refine .of_refused ?_
  rw [Event.serve, if_neg h, Native.serve, dif_neg h]

theorem print (text : String) : Asks (ρ := ρ) (Lox.Run.write text)
    (do note (.print text); Journal.lift (Lox.Run.write text)) := by
  intro m es
  refine ⟨[.print text], fun e he => List.mem_singleton.mp he ▸ trivial, rfl, ?_⟩
  refine .granted (Event.granted_singleton rfl) ?_
  obtain ⟨environments, scope, objects, console, files, clock, explored⟩ := m
  simp only [Lox.Run.write]
  cases hw : console.write (Text.Utf8.encode text) with
  | mk fits console' =>
    have left : (Event.print text : Event ρ).serve ⟨console, files, clock, explored⟩ =
        (none, ⟨console', files, clock, explored⟩) := by
      rw [Event.serve, hw]
    rw [Event.after_cons, left]
    cases fits <;> rfl

theorem flush : Asks (ρ := ρ) Lox.Run.flush (do note .flush; Journal.lift Lox.Run.flush) := by
  intro m es
  refine ⟨[.flush], fun e he => List.mem_singleton.mp he ▸ trivial, rfl, ?_⟩
  refine .granted (Event.granted_singleton rfl) ?_
  rw [Lox.Run.flush_run]
  split <;> rfl

theorem paired : Paired (fun {α} => Asks (ρ := ρ) (α := α)) where
  pure a := lift (.pure a)
  outOfFuel := lift (.throw _)
  lift := lift
  bind := bind
  get hk _ _ m es := hk m m es
  inScope := inScope
  onLine := onLine
  noted := noted
  native := native
  mismatch := mismatch
  print := print
  flush := flush

end Asks

end Journal

end Lox
