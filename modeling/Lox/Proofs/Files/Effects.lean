import Lox.Proofs.Files.Serving

/-!
What natives do. A native that fails on its own checks does nothing. Otherwise it changes at most one
thing: it reads a line of the input, or makes one of five changes to the files, each of which asks for a
stream that is there, and all but closing it for one that is open.
-/

namespace Lox

open Text FileSystem

variable {ρ κ : Type}

namespace Native

/-- The native itself finds its arguments wrong. -/
def Fault.IsCheck : Fault → Prop
  | .notString _ | .notNumber _ | .unknownMode _ | .notStream | .closed | .fileNotFound => True
  | _ => False

/-- What a native can do. -/
inductive Effect (host : Host) : EStateM.Result Fault Host (Value ρ κ) → Prop
  | rejects {fault : Fault} (check : fault.IsCheck) : Effect host (.error fault host)
  | fails {fault : Fault} (other : ¬ fault.IsCheck) (console : Console) :
      Effect host (.error fault { host with console })
  | answers (v : Value ρ κ) (console : Console) : Effect host (.ok v { host with console })
  | writesAll {path : String} {bytes : Bytes} {fs : FileSystem}
      (h : host.files.writeAll path bytes = .ok fs) : Effect host (.ok .nil { host with files := fs })
  | opens {path : String} {access : Access} {id : HandleId} {fs : FileSystem}
      (h : host.files.openHandle path access = .ok (id, fs)) :
      Effect host (.ok (.file id) { host with files := fs })
  | closes {id : HandleId} {h : Handle} (found : host.files.handle? id = some h) :
      Effect host (.ok .nil { host with files := host.files.close id })
  | writes {id : HandleId} {h : Handle} (found : host.files.handle? id = some h)
      (isOpen : h.closed = false) (bytes : Bytes) :
      Effect host (.ok .nil { host with files := host.files.write id h bytes })
  | moves {id : HandleId} {h : Handle} (found : host.files.handle? id = some h)
      (isOpen : h.closed = false) (position : Nat) (v : Value ρ κ) :
      Effect host (.ok v { host with files := host.files.seek id position })
  | movesAndFails {id : HandleId} {h : Handle} (found : host.files.handle? id = some h)
      (isOpen : h.closed = false) (position : Nat) {fault : Fault} (other : ¬ fault.IsCheck) :
      Effect host (.error fault { host with files := host.files.seek id position })

namespace Action

variable {α β : Type} {host : Host}

/-- How a check ends, which changes nothing. -/
inductive Checks (host : Host) (P : α → Prop) : EStateM.Result Fault Host α → Prop
  | passes {a : α} (h : P a) : Checks host P (.ok a host)
  | rejects {fault : Fault} (check : fault.IsCheck) : Checks host P (.error fault host)
  | fails {fault : Fault} (other : ¬ fault.IsCheck) : Checks host P (.error fault host)

theorem Checks.effect {p : Action α} {P : α → Prop} {k : α → Action (Value ρ κ)}
    (h : Checks host P (p host)) (hk : ∀ a, P a → Effect host (k a host)) :
    Effect host ((p >>= k) host) := by
  simp only [bind, EStateM.bind]
  generalize p host = r at h
  cases h with
  | passes ha => exact hk _ ha
  | rejects check => exact .rejects check
  | fails other => exact .fails other host.console

theorem Checks.bind {p : Action α} {P : α → Prop} {Q : β → Prop} {k : α → Action β}
    (h : Checks host P (p host)) (hk : ∀ a, P a → Checks host Q (k a host)) :
    Checks host Q ((p >>= k) host) := by
  simp only [Bind.bind, EStateM.bind]
  generalize p host = r at h
  cases h with
  | passes ha => exact hk _ ha
  | rejects check => exact .rejects check
  | fails other => exact .fails other

theorem Checks.passed {P : α → Prop} {a : α} {host' : Host} (h : Checks host P (.ok a host')) :
    host' = host ∧ P a := by
  cases h with
  | passes h => exact ⟨rfl, h⟩

theorem string_checks (argument : String) (v : Value ρ κ) :
    Checks host (fun _ => True) (string argument v host) := by
  cases v with
  | string s => exact .passes trivial
  | _ => exact .rejects trivial

theorem number_checks (argument : String) (v : Value ρ κ) :
    Checks host (fun _ => True) (number argument v host) := by
  cases v with
  | number x => exact .passes trivial
  | _ => exact .rejects trivial

theorem know_checks (path : String) : Checks host (fun _ => True) (know path host) := by
  have run : know path host =
      (if !host.knows path then throw (.awaited (.path path)) else pure () : Action Unit) host := rfl
  rw [run]
  split
  · exact .fails fun h => h
  · exact .passes trivial

theorem allowed_checks (x : Except FileSystem.Fault α) :
    Checks host (fun a => x = .ok a) (allowed x host) := by
  cases x with
  | ok a => exact .passes rfl
  | error fault => exact .fails fun h => h

theorem files_checks : Checks host (fun fs => fs = host.files) (files host) := .passes rfl

theorem stream_checks (v : Value ρ κ) :
    Checks host (fun (id, h) => v = .file id ∧ host.files.handle? id = some h) (stream v host) := by
  cases v with
  | file id =>
    cases hh : host.files.handle? id with
    | some h =>
      rw [stream_run hh]
      exact .passes ⟨rfl, hh⟩
    | none =>
      have run : stream (.file id : Value ρ κ) host = .error .notStream host := by
        have found : files host = .ok host.files host := rfl
        rw [stream, bind_of_ok found, hh]
        rfl
      rw [run]
      exact .rejects trivial
  | _ => exact .rejects trivial

theorem openStream_checks (v : Value ρ κ) :
    Checks host (fun (id, h) => v = .file id ∧ host.files.handle? id = some h ∧ h.closed = false)
      (openStream v host) := by
  refine (stream_checks v).bind fun (id, h) ⟨hv, found⟩ => ?_
  dsimp only
  split
  · exact .rejects trivial
  · next isOpen => exact .passes ⟨hv, found, Bool.eq_false_iff.mpr isOpen⟩

theorem readable_checks (v : Value ρ κ) :
    Checks host (fun (id, h) => v = .file id ∧ host.files.handle? id = some h ∧ h.closed = false)
      (readable v host) := by
  refine (openStream_checks v).bind fun (id, h) facts => ?_
  dsimp only
  split
  · exact .fails fun h => h
  · exact .passes facts

/-! Each native. -/

theorem input_effect : Effect host (input (ρ := ρ) (κ := κ) host) := by
  simp only [input, bind, EStateM.bind, get, getThe, MonadStateOf.get, modify, modifyGet,
    MonadStateOf.modifyGet]
  unfold EStateM.get EStateM.modifyGet
  dsimp only
  obtain ⟨reading, console⟩ := host.console.readLine
  cases reading with
  | line line =>
    dsimp only
    cases Numeral.read? (trim (dropLineEnd line)) <;> exact .answers _ console
  | malformed | pending =>
    refine .fails ?_ console
    exact fun h => h
  | «end» => exact .answers .nil console

theorem fileExists_effect (path : Value ρ κ) : Effect host (fileExists path host) :=
  (string_checks _ path).effect fun path _ => (know_checks path).effect fun _ _ =>
    files_checks.effect fun _ _ => .answers _ host.console

theorem fileReadText_effect (path : Value ρ κ) : Effect host (fileReadText path host) := by
  refine (string_checks _ path).effect fun path _ => (know_checks path).effect fun _ _ =>
    files_checks.effect fun fs _ => ?_
  split
  · exact .rejects trivial
  · refine (allowed_checks _).effect fun bytes _ => ?_
    cases Utf8.decode bytes with
    | ok s => exact .answers _ host.console
    | error fault =>
      refine .fails ?_ host.console
      exact fun h => h

theorem fileWriteText_effect (path text : Value ρ κ) : Effect host (fileWriteText path text host) := by
  refine (string_checks _ path).effect fun path _ => (know_checks path).effect fun _ _ =>
    files_checks.effect fun fs hfs => (allowed_checks _).effect fun fs' written => ?_
  subst hfs
  exact .writesAll written

theorem fileOpen_effect (path mode : Value ρ κ) : Effect host (fileOpen path mode host) := by
  refine (string_checks _ path).effect fun path _ => (number_checks _ mode).effect fun mode _ => ?_
  cases access? mode with
  | none => exact .rejects trivial
  | some access =>
    refine (know_checks path).effect fun _ _ => files_checks.effect fun fs hfs =>
      (allowed_checks _).effect fun (id, fs') opened => ?_
    subst hfs
    exact .opens opened

theorem fileClose_effect (v : Value ρ κ) : Effect host (fileClose v host) :=
  (stream_checks v).effect fun (_, _) ⟨_, found⟩ => .closes found

theorem fileWrite_effect (v : Value ρ κ) (text : String) : Effect host (fileWrite v text host) :=
  (openStream_checks v).effect fun (_, _) ⟨_, found, isOpen⟩ =>
    .writes found isOpen (Utf8.encode text)

section Moving

variable {id : HandleId} {h : Handle} (found : host.files.handle? id = some h)
  (isOpen : h.closed = false) (position : Nat)

include found isOpen

theorem seek_effect :
    Effect host ((do modifyFiles (·.seek id position); return .nil : Action (Value ρ κ)) host) :=
  .moves found isOpen position .nil

/-- Moves a stream on, and answers what stood there if it is text. -/
theorem text_effect (bytes : Bytes) :
    Effect host ((do
      modifyFiles (·.seek id position)
      match Utf8.decode bytes with
      | .ok s => return .string s
      | .error fault => throw (.malformed fault) : Action (Value ρ κ)) host) := by
  have run (k : Action (Value ρ κ)) :
      (do modifyFiles (·.seek id position); k) host =
        k { host with files := host.files.seek id position } := rfl
  rw [run]
  cases Utf8.decode bytes with
  | ok s => exact .moves found isOpen position _
  | error fault => exact .movesAndFails found isOpen position fun h => h

end Moving

theorem fileRead_effect (v : Value ρ κ) : Effect host (fileRead v host) := by
  refine (readable_checks v).effect fun (id, h) ⟨_, found, isOpen⟩ => files_checks.effect fun fs _ => ?_
  dsimp only
  cases fs.ahead h with
  | nil => exact .answers .nil host.console
  | cons b bs =>
    dsimp only
    by_cases short : ((b :: bs).take (width b)).length < width b
    · simp only [short, if_true]
      exact .movesAndFails found isOpen (h.position + ((b :: bs).take (width b)).length) fun h => h
    · simp only [short, if_false]
      exact text_effect found isOpen _ _

theorem fileReadLine_effect (v : Value ρ κ) : Effect host (fileReadLine v host) := by
  refine (readable_checks v).effect fun (id, h) ⟨_, found, isOpen⟩ => files_checks.effect fun fs _ => ?_
  obtain ⟨_ | ⟨b, bs⟩, _⟩ := Console.cutLine (fs.ahead h)
  · exact .answers .nil host.console
  · exact text_effect found isOpen (h.position + (b :: bs).length) _

theorem seekStart_effect (v : Value ρ κ) : Effect host (seekStart v host) :=
  (openStream_checks v).effect fun (_, _) ⟨_, found, isOpen⟩ => seek_effect found isOpen 0

theorem seekEnd_effect (v : Value ρ κ) : Effect host (seekEnd v host) :=
  (openStream_checks v).effect fun (_, h) ⟨_, found, isOpen⟩ =>
    seek_effect found isOpen (host.files.content h.file).length

end Action

open Native.Action

theorem run_effect (n : Native) (vs : List (Value ρ κ)) (h : vs.length = n.arity) (host : Host) :
    Effect host (n.run vs h host) := by
  cases n with
  | clock =>
    obtain rfl : vs = [] := List.length_eq_zero_iff.mp h
    exact .answers _ host.console
  | input =>
    obtain rfl : vs = [] := List.length_eq_zero_iff.mp h
    exact input_effect
  | fileExists =>
    obtain ⟨path, rfl⟩ := List.length_eq_one_iff.mp h
    exact fileExists_effect path
  | fileReadText =>
    obtain ⟨path, rfl⟩ := List.length_eq_one_iff.mp h
    exact fileReadText_effect path
  | fileClose =>
    obtain ⟨v, rfl⟩ := List.length_eq_one_iff.mp h
    exact fileClose_effect v
  | fileRead =>
    obtain ⟨v, rfl⟩ := List.length_eq_one_iff.mp h
    exact fileRead_effect v
  | fileReadLine =>
    obtain ⟨v, rfl⟩ := List.length_eq_one_iff.mp h
    exact fileReadLine_effect v
  | seekStart =>
    obtain ⟨v, rfl⟩ := List.length_eq_one_iff.mp h
    exact seekStart_effect v
  | seekEnd =>
    obtain ⟨v, rfl⟩ := List.length_eq_one_iff.mp h
    exact seekEnd_effect v
  | fileWriteText =>
    obtain ⟨path, text, rfl⟩ := List.length_eq_two.mp h
    exact fileWriteText_effect path text
  | fileOpen =>
    obtain ⟨path, mode, rfl⟩ := List.length_eq_two.mp h
    exact fileOpen_effect path mode
  | fileWrite | fileWriteLine =>
    obtain ⟨v, text, rfl⟩ := List.length_eq_two.mp h
    exact fileWrite_effect v _

end Native

end Lox
