import Lox.Proofs.Files.Closing

/-!
All that goes on as if a stream were not closed. No request but one for the stream itself tells whether it
is closed, and none opens it again. So closing it may as well come after such requests.
-/

namespace Lox

open Text FileSystem

variable {ρ κ : Type}

namespace Native.Action

variable {id : HandleId} {α β : Type}

theorem Commutes.throw (f : Host → Host) (fault : Fault) :
    Commutes f (throw fault : Action α) := fun _ => rfl

theorem Commutes.pure (f : Host → Host) (a : α) : Commutes f (Pure.pure a : Action α) := fun _ => rfl

theorem modifyFiles_closing {f : FileSystem → FileSystem}
    (hf : ∀ fs, f (fs.close id) = (f fs).close id) : Commutes (Host.closing id) (modifyFiles f) := by
  intro host
  change EStateM.Result.ok () { host with files := f (host.files.close id) } = _
  rw [hf]
  rfl

theorem files_closing {k : FileSystem → Action α} (hk : ∀ fs, Commutes (Host.closing id) (k fs))
    (same : ∀ fs, k (fs.close id) = k fs) : Commutes (Host.closing id) (files >>= k) := by
  intro host
  change k (host.files.close id) (host.closing id) = _
  rw [same]
  exact hk host.files host

theorem text_closing (bytes : Bytes) : Commutes (Host.closing id)
    (match Utf8.decode bytes with
      | .ok s => return .string s
      | .error fault => throw (.malformed fault) : Action (Value ρ κ)) := by
  cases Utf8.decode bytes with
  | ok s => exact .pure _ _
  | error fault => exact .throw _ _

theorem string_closing (argument : String) (v : Value ρ κ) :
    Commutes (Host.closing id) (string argument v) := by
  cases v with
  | string s => exact .pure _ s
  | _ => exact .throw _ _

theorem know_closing (path : String) : Commutes (Host.closing id) (know path) := by
  intro host
  have run (host : Host) : know path host =
      (if !host.knows path then throw (.awaited (.path path)) else pure () : Action Unit) host := rfl
  have same : (host.closing id).knows path = host.knows path := rfl
  rw [run, run, same]
  split <;> rfl

theorem allowed_closing (x : Except FileSystem.Fault α) : Commutes (Host.closing id) (allowed x) := by
  cases x with
  | ok a => exact .pure _ a
  | error fault => exact .throw _ _

/-! Natives that take no streams. -/

theorem input_closing : Commutes (Host.closing id) (input : Action (Value ρ κ)) := by
  intro host
  simp only [input, bind, EStateM.bind, get, getThe, MonadStateOf.get, modify, modifyGet,
    MonadStateOf.modifyGet]
  unfold EStateM.get EStateM.modifyGet
  dsimp only [Host.closing]
  obtain ⟨reading, console⟩ := host.console.readLine
  cases reading with
  | line line =>
    dsimp only
    cases Numeral.read? (trim (dropLineEnd line)) <;> rfl
  | _ => rfl

theorem fileExists_closing (path : Value ρ κ) : Commutes (Host.closing id) (fileExists path) :=
  (string_closing _ path).bind fun path => (know_closing path).bind fun _ =>
    files_closing (fun _ => .pure _ _) fun fs => by rw [fs.isFile_close]

theorem fileReadText_closing (path : Value ρ κ) : Commutes (Host.closing id) (fileReadText path) := by
  refine (string_closing _ path).bind fun path => (know_closing path).bind fun _ =>
    files_closing (fun fs => ?_) fun fs => by rw [isFile_close, readAll_close]
  split
  · exact .throw _ _
  · refine (allowed_closing _).bind fun bytes => ?_
    cases Utf8.decode bytes with
    | ok s => exact .pure _ _
    | error fault => exact .throw _ _

/-- What is stored is stored with the stream closed. -/
theorem stored_closing {host : Host} {x x' : Except FileSystem.Fault β} {g : β → β}
    (same : x' = x.map g) {k : β → Action α}
    (hk : ∀ b, k (g b) (host.closing id) = onState (Host.closing id) (k b host)) :
    (allowed x' >>= k) (host.closing id) = onState (Host.closing id) ((allowed x >>= k) host) := by
  subst same
  cases x with
  | ok b => exact hk b
  | error fault => rfl

theorem fileWriteText_closing (path text : Value ρ κ) :
    Commutes (Host.closing id) (fileWriteText path text) :=
  (string_closing _ path).bind fun path => (know_closing path).bind fun _ host =>
    stored_closing (host.files.writeAll_close path (Utf8.encode text.display)) fun _ => rfl

theorem fileOpen_closing {host : Host} {h : Handle} (found : host.files.handle? id = some h)
    (path mode : Value ρ κ) : fileOpen path mode (host.closing id) =
      onState (Host.closing id) (fileOpen path mode host) := by
  cases path with
  | string path =>
    cases mode with
    | number mode =>
      simp only [fileOpen, string, number, pure_bind]
      cases access? mode with
      | none => rfl
      | some access =>
        have known : know path (host.closing id) = onState (Host.closing id) (know path host) :=
          know_closing path host
        have passed : Checks host _ (know path host) := know_checks path
        dsimp only
        cases hk : know path host with
        | ok u host' =>
          rw [hk] at known passed
          obtain rfl := passed.passed.1
          rw [bind_of_ok known, bind_of_ok hk]
          exact stored_closing (host'.files.openHandle_close found path access) fun _ => rfl
        | error fault host' =>
          rw [hk] at known
          rw [bind_of_error known, bind_of_error hk]
          rfl
    | _ => rfl
  | _ => rfl

/-! Natives that take streams. -/

section Streams

variable {v : Value ρ κ} (apart : v ≠ .file id)

include apart

section Steps

variable {k : HandleId × Handle → Action α}
  (hk : ∀ {other} h, id ≠ other → Commutes (Host.closing id) (k (other, h)))

include hk

theorem stream_closing : Commutes (Host.closing id) (stream v >>= k) := by
  cases v with
  | file other =>
    have ho : id ≠ other := fun same => apart (same ▸ rfl)
    rw [stream, bind_assoc]
    refine files_closing (fun fs => ?_) fun fs => ?_
    · cases fs.handle? other with
      | some h => exact hk h ho
      | none => exact .throw _ _
    · rw [close, handle?_modifyHandle, if_neg ho]
  | _ => exact .throw _ _

theorem openStream_closing : Commutes (Host.closing id) (openStream v >>= k) := by
  rw [openStream, bind_assoc]
  refine stream_closing apart fun h ho => ?_
  dsimp only
  split
  · exact .throw _ _
  · exact hk h ho

theorem readable_closing : Commutes (Host.closing id) (readable v >>= k) := by
  rw [readable, bind_assoc]
  refine openStream_closing apart fun h ho => ?_
  dsimp only
  split
  · exact .throw _ _
  · exact hk h ho

end Steps

omit apart in
theorem moved_closing {other : HandleId} (ho : id ≠ other) {k : Action α} (position : Nat)
    (hk : Commutes (Host.closing id) k) :
    Commutes (Host.closing id) (do modifyFiles (·.seek other position); k) :=
  (modifyFiles_closing fun fs => fs.modifyHandle_comm ho _ _).bind fun _ => hk

theorem fileClose_closing : Commutes (Host.closing id) (fileClose v) :=
  stream_closing apart fun _ ho =>
    (modifyFiles_closing fun fs => fs.modifyHandle_comm ho _ _).bind fun _ => .pure _ _

theorem fileWrite_closing (text : String) : Commutes (Host.closing id) (fileWrite v text) :=
  openStream_closing apart fun h ho =>
    (modifyFiles_closing fun _ => write_close ho h _).bind fun _ => .pure _ _

theorem fileRead_closing : Commutes (Host.closing id) (fileRead v) := by
  refine readable_closing apart fun h ho => files_closing (fun fs => ?_) fun _ => rfl
  dsimp only
  cases fs.ahead h with
  | nil => exact .pure _ _
  | cons b bs =>
    refine moved_closing ho _ ?_
    split
    · exact .throw _ _
    · exact text_closing _

theorem fileReadLine_closing : Commutes (Host.closing id) (fileReadLine v) := by
  refine readable_closing apart fun h ho => files_closing (fun fs => ?_) fun _ => rfl
  obtain ⟨_ | ⟨b, bs⟩, _⟩ := Console.cutLine (fs.ahead h)
  · exact .pure _ _
  · exact moved_closing ho _ (text_closing _)

theorem seekStart_closing : Commutes (Host.closing id) (seekStart v) :=
  openStream_closing apart fun _ ho => moved_closing ho 0 (.pure _ _)

theorem seekEnd_closing : Commutes (Host.closing id) (seekEnd v) :=
  openStream_closing apart fun _ ho =>
    (modifyFiles_closing fun fs => fs.modifyHandle_comm ho _ _).bind fun _ => .pure _ _

end Streams

end Native.Action

/-- Whatever a native is asked to do, but with the stream itself, it does the same when this is closed. -/
theorem Native.run_closing (n : Native) {id : HandleId} {vs : List (Value ρ κ)}
    (ha : vs.length = n.arity) (apart : vs.head? ≠ some (.file id)) {host : Host} {h : Handle}
    (found : host.files.handle? id = some h) :
    n.run vs ha (host.closing id) = onState (Host.closing id) (n.run vs ha host) := by
  have first {v : Value ρ κ} {vs' : List (Value ρ κ)} (hv : vs = v :: vs') : v ≠ .file id := by
    intro same
    rw [hv, same] at apart
    exact apart rfl
  cases n with
  | clock =>
    obtain rfl : vs = [] := List.length_eq_zero_iff.mp ha
    rfl
  | input =>
    obtain rfl : vs = [] := List.length_eq_zero_iff.mp ha
    rw [run]
    exact Action.input_closing host
  | fileExists =>
    obtain ⟨path, rfl⟩ := List.length_eq_one_iff.mp ha
    rw [run]
    exact Action.fileExists_closing path host
  | fileReadText =>
    obtain ⟨path, rfl⟩ := List.length_eq_one_iff.mp ha
    rw [run]
    exact Action.fileReadText_closing path host
  | fileWriteText =>
    obtain ⟨path, text, rfl⟩ := List.length_eq_two.mp ha
    rw [run]
    exact Action.fileWriteText_closing path text host
  | fileOpen =>
    obtain ⟨path, mode, rfl⟩ := List.length_eq_two.mp ha
    rw [run]
    exact Action.fileOpen_closing found path mode
  | fileClose =>
    obtain ⟨v, rfl⟩ := List.length_eq_one_iff.mp ha
    rw [run]
    exact Action.fileClose_closing (first rfl) host
  | fileWrite | fileWriteLine =>
    obtain ⟨v, text, rfl⟩ := List.length_eq_two.mp ha
    rw [run]
    exact Action.fileWrite_closing (first rfl) _ host
  | fileRead =>
    obtain ⟨v, rfl⟩ := List.length_eq_one_iff.mp ha
    rw [run]
    exact Action.fileRead_closing (first rfl) host
  | fileReadLine =>
    obtain ⟨v, rfl⟩ := List.length_eq_one_iff.mp ha
    rw [run]
    exact Action.fileReadLine_closing (first rfl) host
  | seekStart =>
    obtain ⟨v, rfl⟩ := List.length_eq_one_iff.mp ha
    rw [run]
    exact Action.seekStart_closing (first rfl) host
  | seekEnd =>
    obtain ⟨v, rfl⟩ := List.length_eq_one_iff.mp ha
    rw [run]
    exact Action.seekEnd_closing (first rfl) host

theorem Native.serve_closing (n : Native) {id : HandleId} {vs : List (Value ρ EnvId)}
    (apart : vs.head? ≠ some (.file id)) {host : Host} {h : Handle}
    (found : host.files.handle? id = some h) : n.serve vs (host.closing id) =
      ((n.serve vs host).1, (n.serve vs host).2.closing id) := by
  by_cases ha : vs.length = n.arity
  · rw [serve, serve, dif_pos ha, dif_pos ha, n.run_closing ha apart found]
    cases n.run vs ha host <;> rfl
  · rw [serve, serve, dif_neg ha, dif_neg ha]

theorem Host.Closed.of_closing {host : Host} {id : HandleId} (hc : (host.closing id).Closed id) :
    ∃ h, host.files.handle? id = some h := by
  obtain ⟨_, found, _⟩ := hc
  change (host.files.close id).handle? id = _ at found
  rw [close, handle?_modifyHandle, if_pos rfl] at found
  obtain ⟨h, there, _⟩ := Option.map_eq_some_iff.mp found
  exact ⟨h, there⟩

namespace Event

/-- The event is no request for the stream. -/
def Apart (id : HandleId) (e : Event ρ) : Prop := ∀ n vs, e = .native n vs → vs.head? ≠ some (.file id)

variable {id : HandleId} {host : Host} (hc : (host.closing id).Closed id)

include hc

theorem serve_closing {e : Event ρ} (apart : e.Apart id) :
    e.serve (host.closing id) = ((e.serve host).1, (e.serve host).2.closing id) := by
  obtain ⟨h, found⟩ := hc.of_closing
  cases e with
  | native n vs =>
    have served := n.serve_closing (apart n vs rfl) found
    rw [serve, served]
    rfl
  | call callee vs line =>
    cases callee with
    | native n =>
      by_cases ha : vs.length = n.arity
      · simp only [serve, if_pos ha]
      · simp only [serve, if_neg ha, Native.serve, dif_neg ha]
    | _ => rfl
  | _ => rfl

/-- Requests for anything else get the same replies, and leave the same but for the stream that is
closed. -/
theorem serveAll_closing {es : List (Event ρ)} (apart : ∀ e ∈ es, e.Apart id) :
    serveAll es (host.closing id) = ((serveAll es host).1, (serveAll es host).2.closing id) := by
  induction es generalizing host with
  | nil => rfl
  | cons e es ih =>
    have served := serve_closing hc (apart e List.mem_cons_self)
    have still := e.serve_closed hc
    rw [served] at still
    rw [serveAll_cons, serveAll_cons, served, ih still fun e he => apart e (List.mem_cons_of_mem _ he)]

end Event

end Lox
