import Lox.Proofs.Steady
import Mathlib.Data.List.Basic

/-!
What programs do to their surroundings. Native functions read lines of the input and change files,
printing adds to the output, and nothing else happens outside of a program.
-/

namespace Lox

variable {ρ κ α β : Type}

theorem Console.flushFails_readLine (c : Console) : c.readLine.2.flushFails = c.flushFails := by
  simp only [readLine]
  split
  · rfl
  · split
    · rfl
    · split <;> rfl

namespace Native.Action

/-- However the action ends, it leaves surroundings that are related to those before. -/
def Keeps (R : Host → Host → Prop) (p : Action α) : Prop :=
  ∀ host, match p host with
    | .ok _ host' | .error _ host' => R host host'

/-- Changes of files and the reading of a line keep the relation. -/
structure Steady (R : Host → Host → Prop) : Prop where
  refl : ∀ host, R host host
  trans : ∀ {host host' host''}, R host host' → R host' host'' → R host host''
  files : ∀ host files, R host { host with files }
  readLine : ∀ host, R host { host with console := host.console.readLine.2 }

variable {R : Host → Host → Prop}

theorem Keeps.get {k : Host → Action β} (hk : ∀ host, Keeps R (k host)) :
    Keeps R (MonadState.get >>= k) := fun host => hk host host

variable (hR : Steady R) {p : Action α} {k : α → Action β}

include hR

theorem Keeps.pure (a : α) : Keeps R (Pure.pure a) := hR.refl

theorem Keeps.throw (fault : Fault) : Keeps R (throw fault : Action α) := hR.refl

theorem Keeps.bind (hp : Keeps R p) (hk : ∀ a, Keeps R (k a)) : Keeps R (p >>= k) := by
  intro host
  have h := hp host
  simp only [Bind.bind, EStateM.bind]
  cases hm : p host with
  | error fault host' =>
    rw [hm] at h
    exact h
  | ok a host' =>
    rw [hm] at h
    have h' := hk a host'
    dsimp only
    cases hk' : k a host' with
    | ok b host'' | error fault host'' =>
      rw [hk'] at h'
      exact hR.trans h h'

theorem files_keeps : Keeps R files := hR.refl

theorem setFiles_keeps (fs : FileSystem) : Keeps R (setFiles fs) := fun host => hR.files host fs

theorem modifyFiles_keeps (f : FileSystem → FileSystem) : Keeps R (modifyFiles f) :=
  fun host => hR.files host _

theorem allowed_keeps (x : Except FileSystem.Fault α) : Keeps R (allowed x) := by
  cases x with
  | ok a => exact .pure hR a
  | error fault => exact .throw hR _

theorem string_keeps (argument : String) (v : Value ρ κ) : Keeps R (string argument v) := by
  cases v with
  | string s => exact .pure hR s
  | _ => exact .throw hR _

theorem number_keeps (argument : String) (v : Value ρ κ) : Keeps R (number argument v) := by
  cases v with
  | number x => exact .pure hR x
  | _ => exact .throw hR _

theorem unless_keeps {c : Prop} [Decidable c] {fault : Fault} (hp : Keeps R p) :
    Keeps R (if c then throw fault else p) := by
  split
  · exact .throw hR fault
  · exact hp

theorem know_keeps (path : String) : Keeps R (know path) :=
  Keeps.get fun _ => unless_keeps hR (.pure hR _)

theorem stream_keeps (v : Value ρ κ) : Keeps R (stream v) := by
  cases v with
  | file id =>
    apply Keeps.bind hR (files_keeps hR)
    intro fs
    cases fs.handle? id with
    | some h => exact .pure hR (id, h)
    | none => exact .throw hR _
  | _ => exact .throw hR _

theorem openStream_keeps (v : Value ρ κ) : Keeps R (openStream v) :=
  Keeps.bind hR (stream_keeps hR v) fun (id, h) => unless_keeps hR (.pure hR (id, h))

theorem readable_keeps (v : Value ρ κ) : Keeps R (readable v) :=
  Keeps.bind hR (openStream_keeps hR v) fun (id, h) => unless_keeps hR (.pure hR (id, h))

theorem input_keeps : Keeps R (input : Action (Value ρ κ)) := by
  intro host
  have read := hR.readLine host
  simp only [input, bind, EStateM.bind, get, getThe, MonadStateOf.get, modify, modifyGet,
    MonadStateOf.modifyGet]
  unfold EStateM.get EStateM.modifyGet
  dsimp only
  generalize host.console.readLine = r at read
  obtain ⟨reading, console⟩ := r
  cases reading with
  | line s =>
    dsimp only
    cases Numeral.read? (Text.trim (Text.dropLineEnd s)) <;> exact read
  | malformed | «end» | pending => exact read

theorem fileExists_keeps (path : Value ρ κ) : Keeps R (fileExists path) :=
  Keeps.bind hR (string_keeps hR _ path) fun _ => Keeps.bind hR (know_keeps hR _) fun _ =>
    Keeps.bind hR (files_keeps hR) fun _ => .pure hR _

theorem fileReadText_keeps (path : Value ρ κ) : Keeps R (fileReadText path) := by
  apply Keeps.bind hR (string_keeps hR _ path)
  intro path
  apply Keeps.bind hR (know_keeps hR path)
  intro _
  apply Keeps.bind hR (files_keeps hR)
  intro fs
  apply unless_keeps hR
  apply Keeps.bind hR (allowed_keeps hR _)
  intro bytes
  cases Text.Utf8.decode bytes with
  | ok s => exact .pure hR _
  | error fault => exact .throw hR _

theorem fileWriteText_keeps (path text : Value ρ κ) : Keeps R (fileWriteText path text) :=
  Keeps.bind hR (string_keeps hR _ path) fun _ => Keeps.bind hR (know_keeps hR _) fun _ =>
    Keeps.bind hR (files_keeps hR) fun _ => Keeps.bind hR (allowed_keeps hR _) fun fs =>
      Keeps.bind hR (setFiles_keeps hR fs) fun _ => .pure hR _

theorem fileOpen_keeps (path mode : Value ρ κ) : Keeps R (fileOpen path mode) := by
  apply Keeps.bind hR (string_keeps hR _ path)
  intro path
  apply Keeps.bind hR (number_keeps hR _ mode)
  intro mode
  cases access? mode with
  | none => exact .throw hR _
  | some access =>
    exact Keeps.bind hR (know_keeps hR path) fun _ => Keeps.bind hR (files_keeps hR) fun _ =>
      Keeps.bind hR (allowed_keeps hR _) fun r => Keeps.bind hR (setFiles_keeps hR r.2) fun _ =>
        .pure hR _

theorem fileClose_keeps (v : Value ρ κ) : Keeps R (fileClose v) :=
  Keeps.bind hR (stream_keeps hR v) fun _ => Keeps.bind hR (modifyFiles_keeps hR _) fun _ =>
    .pure hR _

theorem fileWrite_keeps (v : Value ρ κ) (text : String) : Keeps R (fileWrite v text) :=
  Keeps.bind hR (openStream_keeps hR v) fun _ => Keeps.bind hR (modifyFiles_keeps hR _) fun _ =>
    .pure hR _

theorem fileRead_keeps (v : Value ρ κ) : Keeps R (fileRead v) := by
  apply Keeps.bind hR (readable_keeps hR v)
  intro (id, h)
  apply Keeps.bind hR (files_keeps hR)
  intro fs
  dsimp only
  cases fs.ahead h with
  | nil => exact .pure hR _
  | cons b bs =>
    apply Keeps.bind hR (modifyFiles_keeps hR _)
    intro _
    apply unless_keeps hR
    cases Text.Utf8.decode ((b :: bs).take (width b)) with
    | ok s => exact .pure hR _
    | error fault => exact .throw hR _

theorem fileReadLine_keeps (v : Value ρ κ) : Keeps R (fileReadLine v) := by
  apply Keeps.bind hR (readable_keeps hR v)
  intro (id, h)
  apply Keeps.bind hR (files_keeps hR)
  intro fs
  obtain ⟨_ | ⟨b, bs⟩, _⟩ := Console.cutLine (fs.ahead h)
  · exact .pure hR _
  · apply Keeps.bind hR (modifyFiles_keeps hR _)
    intro _
    cases Text.Utf8.decode ((b :: bs).filter fun b => b != 10 && b != 13) with
    | ok s => exact .pure hR _
    | error fault => exact .throw hR _

theorem seekStart_keeps (v : Value ρ κ) : Keeps R (seekStart v) :=
  Keeps.bind hR (openStream_keeps hR v) fun _ => Keeps.bind hR (modifyFiles_keeps hR _) fun _ =>
    .pure hR _

theorem seekEnd_keeps (v : Value ρ κ) : Keeps R (seekEnd v) :=
  Keeps.bind hR (openStream_keeps hR v) fun _ => Keeps.bind hR (modifyFiles_keeps hR _) fun _ =>
    .pure hR _

end Native.Action

namespace Native

open Native.Action

variable {R : Host → Host → Prop}

theorem run_keeps (hR : Steady R) (n : Native) (arguments : List (Value ρ κ))
    (h : arguments.length = n.arity) : Keeps R (n.run arguments h) := by
  cases n with
  | clock =>
    obtain rfl : arguments = [] := List.length_eq_zero_iff.mp h
    simp only [run]
    exact Keeps.get fun _ => .pure hR _
  | input =>
    obtain rfl : arguments = [] := List.length_eq_zero_iff.mp h
    simpa only [run] using input_keeps hR
  | fileExists =>
    obtain ⟨v, rfl⟩ := List.length_eq_one_iff.mp h
    simpa only [run] using fileExists_keeps hR v
  | fileReadText =>
    obtain ⟨v, rfl⟩ := List.length_eq_one_iff.mp h
    simpa only [run] using fileReadText_keeps hR v
  | fileClose =>
    obtain ⟨v, rfl⟩ := List.length_eq_one_iff.mp h
    simpa only [run] using fileClose_keeps hR v
  | fileRead =>
    obtain ⟨v, rfl⟩ := List.length_eq_one_iff.mp h
    simpa only [run] using fileRead_keeps hR v
  | fileReadLine =>
    obtain ⟨v, rfl⟩ := List.length_eq_one_iff.mp h
    simpa only [run] using fileReadLine_keeps hR v
  | seekStart =>
    obtain ⟨v, rfl⟩ := List.length_eq_one_iff.mp h
    simpa only [run] using seekStart_keeps hR v
  | seekEnd =>
    obtain ⟨v, rfl⟩ := List.length_eq_one_iff.mp h
    simpa only [run] using seekEnd_keeps hR v
  | fileWriteText =>
    obtain ⟨v, w, rfl⟩ := List.length_eq_two.mp h
    simpa only [run] using fileWriteText_keeps hR v w
  | fileOpen =>
    obtain ⟨v, w, rfl⟩ := List.length_eq_two.mp h
    simpa only [run] using fileOpen_keeps hR v w
  | fileWrite | fileWriteLine =>
    obtain ⟨v, w, rfl⟩ := List.length_eq_two.mp h
    simpa only [run] using fileWrite_keeps hR v _

end Native

namespace Run

variable {R : Host → Host → Prop}

/-- What natives and printing keep is kept by every step of a program. -/
theorem Steady.ofHost (hR : Native.Action.Steady R)
    (hw : ∀ host bytes, R host { host with console := (host.console.write bytes).2 }) :
    Steady fun (m m' : Machine ρ) => R m.host m'.host where
  refl m := hR.refl m.host
  trans := hR.trans
  enter _ h := h
  nestIn _ m := hR.refl m.host
  define _ _ _ m := hR.refl m.host
  put _ _ _ m := hR.refl m.host
  newObject m := hR.refl m.host
  setField _ _ _ m := hR.refl m.host
  write text m := by
    obtain ⟨environments, scope, objects, host⟩ := m
    have h := hw host (Text.Utf8.encode text)
    simp only [Run.write]
    cases hc : host.console.write (Text.Utf8.encode text) with
    | mk fits console =>
      rw [hc] at h
      cases fits <;> exact h
  native n as ha m := by
    have h := n.run_keeps hR as ha m.host
    simp only [Run.native]
    cases hn : n.run as ha m.host with
    | ok v host | error fault host =>
      rw [hn] at h
      exact h

/-- Whether the end of the output can be brought about is settled before a program starts. -/
theorem steady_flushFails :
    Steady fun (m m' : Machine ρ) => m'.host.console.flushFails = m.host.console.flushFails := by
  refine Steady.ofHost (R := fun host host' => host'.console.flushFails = host.console.flushFails)
    ⟨fun _ => rfl, fun h h' => h'.trans h, fun _ _ => rfl, fun host => ?_⟩ fun _ _ => rfl
  exact host.console.flushFails_readLine

end Run

end Lox
