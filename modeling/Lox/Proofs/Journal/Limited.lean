import Lox.Proofs.Journal.Evaluator

/-!
The same run with and without a limit of the output. As long as the output holds what is printed, both
do the same. At the first text that does not fit the one with the limit fails, with the output filled
up, and its journal ends there.
-/

namespace Lox

open Event (printed)

variable {ρ α β : Type}

def Machine.Unlimited (m : Machine ρ) : Prop := m.host.console.limit = none

/-- The output is full. Whether there is a line depends on the calls that are left. -/
def Stop.full (line : Option Nat) : Stop := .error ⟨.output .outputFull, line⟩

/-- The machine once the bytes are written. -/
def Machine.writes (bytes : Text.Bytes) (m : Machine ρ) : Machine ρ :=
  { m with host := { m.host with console := { m.host.console with
      output := bytes.foldl Array.push m.host.console.output } } }

@[simp] theorem Machine.output_writes (bytes : Text.Bytes) (m : Machine ρ) :
    (m.writes bytes).output = m.output ++ bytes := by
  simp [writes, output]

section Writing

open Console (fitting)

variable (text : String) {m : Machine ρ} {limit : Nat}

theorem Run.write_whole
    (h : fitting m.host.console.limit m.output.length (Text.Utf8.encode text) = Text.Utf8.encode text) :
    Run.write text m = .ok () (m.writes (Text.Utf8.encode text)) := by
  obtain ⟨environments, scope, objects, ⟨⟨input, ended, output, limit, flushFails⟩, files, time,
    explored⟩⟩ := m
  have h : fitting limit output.size (Text.Utf8.encode text) = Text.Utf8.encode text := h
  simp only [Run.write, Console.write, h, beq_self_eq_true]
  rfl

theorem Run.write_part (h : (fitting m.host.console.limit m.output.length
      (Text.Utf8.encode text)).length ≠ (Text.Utf8.encode text).length) :
    Run.write text m = .error (.full none)
      (m.writes (fitting m.host.console.limit m.output.length (Text.Utf8.encode text))) := by
  obtain ⟨environments, scope, objects, ⟨⟨input, ended, output, limit, flushFails⟩, files, time,
    explored⟩⟩ := m
  have h : ((fitting limit output.size (Text.Utf8.encode text)).length ==
    (Text.Utf8.encode text).length) = false := beq_eq_false_iff_ne.mpr h
  simp only [Run.write, Console.write, h]
  rfl

theorem Run.write_unlimited (h : m.Unlimited) :
    Run.write text m = .ok () (m.writes (Text.Utf8.encode text)) := by
  have h : m.host.console.limit = none := h
  exact write_whole text (by rw [h]; rfl)

theorem Run.write_fits (h : (m.output ++ Text.Utf8.encode text).length ≤ limit) :
    Run.write text (m.takes (some limit)) =
      .ok () ((m.writes (Text.Utf8.encode text)).takes (some limit)) := by
  have all : (Text.Utf8.encode text).take (limit - m.output.length) = Text.Utf8.encode text :=
    List.take_of_length_le (by rw [List.length_append] at h; omega)
  exact write_whole text (m := m.takes (some limit)) all

theorem Run.write_full (held : m.output.length ≤ limit)
    (h : limit < (m.output ++ Text.Utf8.encode text).length) :
    Run.write text (m.takes (some limit)) = .error (.full none)
      ((m.writes ((Text.Utf8.encode text).take (limit - m.output.length))).takes (some limit)) := by
  have part : ((Text.Utf8.encode text).take (limit - m.output.length)).length ≠
      (Text.Utf8.encode text).length := by
    rw [List.length_take]
    rw [List.length_append] at h
    omega
  exact write_part text (m := m.takes (some limit)) part

end Writing

namespace Journal

/-- How a phrase ends without a limit, by the evaluator and with a journal, and how it does if the
output takes so many bytes in all. The output holds some bytes before, and the journal some events. -/
inductive Ends (limit : Nat) (held : Text.Bytes) (es : List (Event ρ)) :
    EStateM.Result Stop (Machine ρ) α → EStateM.Result Stop (State ρ) α →
    EStateM.Result Stop (Machine ρ) α → EStateM.Result Stop (State ρ) α → Prop
  | fits {r : EStateM.Result Stop (Machine ρ) α} {new : List (Event ρ)}
      (unlimited : (ending r).Unlimited) (written : (ending r).output = held ++ printed new)
      (fits : (held ++ printed new).length ≤ limit) :
      Ends limit held es r (onState (⟨·, es ++ new⟩) r) (onState (·.takes (some limit)) r)
        (onState (fun m => ⟨m.takes (some limit), es ++ new⟩) r)
  | full {r : EStateM.Result Stop (Machine ρ) α} {before after : List (Event ρ)} {text : String}
      {line : Option Nat} {m : Machine ρ} (unlimited : (ending r).Unlimited)
      (written : (ending r).output = held ++ printed (before ++ .print text :: after))
      (fits : (held ++ printed before).length ≤ limit)
      (crosses : limit < (held ++ printed (before ++ [.print text])).length)
      (filled : m.output = (held ++ printed (before ++ [.print text])).take limit) :
      Ends limit held es r (onState (⟨·, es ++ (before ++ .print text :: after)⟩) r)
        (.error (.full line) m) (.error (.full line) ⟨m, es ++ (before ++ [.print text])⟩)

/-- The phrase with a journal is the phrase, and both end early where the output is full. -/
def Limited (p : Lox.Run ρ α) (j : Run ρ α) : Prop :=
  ∀ m es limit, m.Unlimited → m.output.length ≤ limit →
    Ends limit m.output es (p m) (j ⟨m, es⟩) (p (m.takes (some limit))) (j ⟨m.takes (some limit), es⟩)

/-- What an end without a limit says of itself. -/
theorem Ends.free {limit : Nat} {held : Text.Bytes} {es : List (Event ρ)}
    {r r' : EStateM.Result Stop (Machine ρ) α} {s s' : EStateM.Result Stop (State ρ) α}
    (h : Ends limit held es r s r' s') : ∃ new, s = onState (⟨·, es ++ new⟩) r ∧
      (ending r).Unlimited ∧ (ending r).output = held ++ printed new := by
  cases h with
  | fits unlimited written => exact ⟨_, rfl, unlimited, written⟩
  | full unlimited written => exact ⟨_, rfl, unlimited, written⟩

/-- What goes on from an end that fits. -/
theorem Ends.later {limit : Nat} {held held' : Text.Bytes} {es new : List (Event ρ)}
    {r r' : EStateM.Result Stop (Machine ρ) α} {s s' : EStateM.Result Stop (State ρ) α}
    (h : Ends limit held' (es ++ new) r s r' s') (written : held' = held ++ printed new) :
    Ends limit held es r s r' s' := by
  subst written
  cases h with
  | @fits new' unlimited written fits =>
    simp only [List.append_assoc, ← Event.printed_append] at written fits ⊢
    exact .fits unlimited written fits
  | @full before after text line m unlimited written fits crosses filled =>
    simp only [List.append_assoc, ← Event.printed_append] at written fits crosses filled ⊢
    rw [← List.append_assoc] at written crosses filled
    have h : Ends limit held es r _ (.error (.full line) m) _ :=
      .full unlimited written fits crosses filled
    simpa only [List.append_assoc] using h

namespace Limited

variable {p : Lox.Run ρ α} {j : Run ρ α} {k : α → Lox.Run ρ β} {l : α → Run ρ β}

theorem free (h : Limited p j) {m : Machine ρ} (unlimited : m.Unlimited) (es : List (Event ρ)) :
    ∃ new, j ⟨m, es⟩ = onState (⟨·, es ++ new⟩) (p m) ∧ (ending (p m)).Unlimited ∧
      (ending (p m)).output = m.output ++ printed new :=
  (h m es m.output.length unlimited (Nat.le_refl _)).free

/-- A step that writes nothing, with events that do not either. -/
theorem ofQuiet (hp : Lox.Run.Quiet p) (new : List (Event ρ)) (silent : printed new = [])
    (hj : ∀ m es, j ⟨m, es⟩ = onState (⟨·, es ++ new⟩) (p m)) : Limited p j := by
  intro m es limit unlimited fits
  obtain ⟨blind, written⟩ := hp m
  have keeps : (ending (p m)).Unlimited := by
    have same := blind none
    rw [Machine.takes_of_limit unlimited] at same
    rw [same, ending_onState]
    rfl
  rw [hj, hj, blind, onState_onState]
  exact .fits keeps (by rw [written, silent, List.append_nil]) (by rwa [silent, List.append_nil])

theorem pure (a : α) : Limited (Pure.pure a : Lox.Run ρ α) (Pure.pure a) :=
  ofQuiet (Lox.Run.Enclosed.pure a).quiet [] rfl fun _ es => by rw [List.append_nil]; rfl

theorem outOfFuel : Limited (throw .outOfFuel : Lox.Run ρ α) (throw .outOfFuel) :=
  ofQuiet (Lox.Run.Enclosed.throw _).quiet [] rfl fun _ es => by rw [List.append_nil]; rfl

theorem lift (hp : Lox.Run.Quiet p) : Limited p (lift p) :=
  ofQuiet hp [] rfl fun _ es => by rw [List.append_nil]; rfl

theorem bind (hp : Limited p j) (hk : ∀ a, Limited (k a) (l a)) : Limited (p >>= k) (j >>= l) := by
  intro m es limit unlimited fits
  have first := hp m es limit unlimited fits
  simp only [Bind.bind, EStateM.bind]
  generalize p m = r, j ⟨m, es⟩ = s, p (m.takes (some limit)) = r',
    j ⟨m.takes (some limit), es⟩ = s' at first
  cases first with
  | @fits new unlimited written fits =>
    cases r with
    | ok a m' =>
      have written : m'.output = _ := written
      exact (hk a m' (es ++ new) limit unlimited (by rwa [written])).later written
    | error stop m' => exact .fits unlimited written fits
  | @full before after text line m' unlimited written fits crosses filled =>
    cases r with
    | ok a m'' =>
      -- Without the limit the run goes on, and only adds to the journal behind the text.
      have unlimited : m''.Unlimited := unlimited
      have written : m''.output = _ := written
      obtain ⟨new, journal, unlimited, written'⟩ := (hk a).free unlimited
        (es ++ (before ++ .print text :: after))
      have journal : l a ⟨m'', es ++ (before ++ .print text :: after)⟩ =
          onState (⟨·, es ++ (before ++ .print text :: (after ++ new))⟩) (k a m'') := by
        rw [journal]
        simp only [List.append_assoc, List.cons_append]
      simp only [onState]
      rw [journal]
      refine .full unlimited ?_ fits crosses filled
      rw [written', written]
      simp only [Event.printed_append, printed, List.append_assoc]
    | error stop m'' => exact .full unlimited written fits crosses filled

/-- An event that writes nothing goes before. -/
theorem noted (hp : Limited p j) {e : Event ρ} (silent : printed [e] = []) :
    Limited p (do note e; j) := by
  have first : Limited (Pure.pure () : Lox.Run ρ Unit) (note e) :=
    ofQuiet (Lox.Run.Enclosed.pure ()).quiet [e] silent fun _ _ => rfl
  exact first.bind (k := fun _ => p) fun _ => hp

/-- What follows the reading of the machine must not depend on the limit of the output. -/
theorem get {k : Machine ρ → Lox.Run ρ β} {l : Machine ρ → Run ρ β} (h : ∀ m, Limited (k m) (l m))
    (same : ∀ limit m, k (m.takes limit) = k m) (same' : ∀ limit m, l (m.takes limit) = l m) :
    Limited (MonadState.get >>= k) (machine >>= l) := by
  intro m es limit unlimited fits
  have run := h m m es limit unlimited fits
  have limited : (MonadState.get >>= k) (m.takes (some limit)) = k m (m.takes (some limit)) :=
    congrFun (same (some limit) m) _
  have limited' : (machine >>= l) ⟨m.takes (some limit), es⟩ = l m ⟨m.takes (some limit), es⟩ :=
    congrFun (same' (some limit) m) _
  rw [limited, limited']
  exact run

theorem inScope (e : EnvId) (h : Limited p j) :
    Limited (Run.inScope e p) (Journal.inScope e j) := by
  intro m es limit unlimited fits
  have inner := h { m with scope := e } es limit unlimited fits
  have outer (m' : Machine ρ) : Run.inScope e p m' =
      onState (fun m'' => { m'' with scope := m'.scope }) (p { m' with scope := e }) := by
    simp only [Run.inScope]
    cases p { m' with scope := e } <;> rfl
  rw [outer, outer]
  simp only [Journal.inScope]
  change Ends limit m.output es (p { m with scope := e }) (j ⟨{ m with scope := e }, es⟩)
    (p { m.takes (some limit) with scope := e })
    (j ⟨{ m.takes (some limit) with scope := e }, es⟩) at inner
  generalize p { m with scope := e } = r, j ⟨{ m with scope := e }, es⟩ = s,
    p { m.takes (some limit) with scope := e } = r',
    j ⟨{ m.takes (some limit) with scope := e }, es⟩ = s' at inner
  let back (m' : Machine ρ) : Machine ρ := { m' with scope := m.scope }
  cases inner with
  | @fits new unlimited written fits =>
    have ends : Ends limit m.output es (onState back r)
        (onState (⟨·, es ++ new⟩) (onState back r)) _ _ :=
      .fits (by rwa [ending_onState]) (by rwa [ending_onState]) fits
    simp only [onState_onState] at ends ⊢
    exact ends
  | @full before after text line m' unlimited written fits crosses filled =>
    have ends : Ends limit m.output es (onState back r) _ (.error (.full line) (back m')) _ :=
      .full (by rwa [ending_onState]) (by rwa [ending_onState]) fits crosses filled
    simp only [onState_onState] at ends ⊢
    exact ends

theorem onLine (line : Nat) (h : Limited p j) :
    Limited (Run.onLine line p) (Journal.onLine line j) := by
  intro m es limit unlimited fits
  have inner := h m es limit unlimited fits
  simp only [Run.onLine, Journal.onLine]
  generalize p m = r, j ⟨m, es⟩ = s, p (m.takes (some limit)) = r',
    j ⟨m.takes (some limit), es⟩ = s' at inner
  cases inner with
  | fits unlimited written fits =>
    obtain ⟨a, m'⟩ | ⟨e | _, m'⟩ := r <;> exact .fits unlimited written fits
  | full unlimited written fits crosses filled =>
    obtain ⟨a, m'⟩ | ⟨e | _, m'⟩ := r <;> exact .full unlimited written fits crosses filled

/-- A text is written as a whole, or else the output is filled up and that is all. -/
theorem print (text : String) : Limited (ρ := ρ) (Lox.Run.write text)
    (do note (.print text); Journal.lift (Lox.Run.write text)) := by
  intro m es limit unlimited held
  have journal (m : Machine ρ) : (do note (.print text); Journal.lift (Lox.Run.write text) : Run ρ Unit)
      ⟨m, es⟩ = onState (⟨·, es ++ [.print text]⟩) (Lox.Run.write text m) := rfl
  have single : printed ([.print text] : List (Event ρ)) = Text.Utf8.encode text :=
    List.append_nil _
  rw [journal, journal, Lox.Run.write_unlimited text unlimited]
  by_cases h : (m.output ++ Text.Utf8.encode text).length ≤ limit
  · rw [Lox.Run.write_fits text h]
    exact .fits (r := .ok () _) unlimited (by rw [single]; exact m.output_writes _)
      (by rwa [single])
  · have h := Nat.lt_of_not_le h
    rw [Lox.Run.write_full text held h]
    have nothing : printed ([] : List (Event ρ)) = [] := rfl
    have whole : (m.writes (Text.Utf8.encode text)).output =
        m.output ++ printed ([] ++ .print text :: ([] : List (Event ρ))) := by
      rw [List.nil_append, single, m.output_writes]
    refine .full (r := .ok () (m.writes (Text.Utf8.encode text))) unlimited whole ?_ ?_ ?_
    · rwa [nothing, List.append_nil]
    · rwa [List.nil_append, single]
    · rw [Machine.output_takes, Machine.output_writes, List.nil_append, single, List.take_append,
        List.take_of_length_le held]

end Limited

end Journal

end Lox
