import Lox.Proofs.Files.Effects
import Lox.Proofs.Files.Streams

/-!
Requests that are rejected, and closing. A request that a native rejects by its own checks does nothing.
A stream that is closed stays closed, and whatever needs an open stream is rejected then.
-/

namespace Lox

open Text FileSystem

variable {ρ κ : Type}

/-- The call itself is found wrong: its number of arguments, or one of them. -/
def RuntimeFault.IsCheck : RuntimeFault → Prop
  | .arityMismatch _ _ => True
  | .native _ fault => fault.IsCheck
  | _ => False

namespace Native

/-- The natives that ask for an open stream. -/
def NeedsOpen : Native → Prop
  | .fileWrite | .fileWriteLine | .fileRead | .fileReadLine | .seekStart | .seekEnd => True
  | _ => False

variable {host : Host}

theorem Effect.rejected {fault : Fault} {host' : Host}
    (h : Effect host (.error fault host' : EStateM.Result Fault Host (Value ρ κ)))
    (check : fault.IsCheck) : host' = host := by
  cases h with
  | rejects => rfl
  | fails other | movesAndFails found isOpen position other => exact absurd check other

theorem serve_rejected (n : Native) {vs : List (Value ρ EnvId)} {fault : RuntimeFault} {host' : Host}
    (h : n.serve vs host = (.error fault, host')) (check : fault.IsCheck) : host' = host := by
  unfold serve at h
  split at h
  · next ha =>
    have effect := n.run_effect vs ha host
    cases hr : n.run vs ha host with
    | ok v host'' =>
      rw [hr] at h
      cases h
    | error fault' host'' =>
      rw [hr] at h effect
      cases h
      exact effect.rejected check
  · cases h
    rfl

end Native

/-- A request that is rejected by its own checks leaves the surroundings as they were. -/
theorem Event.serve_rejected {e : Event ρ} {host host' : Host} {fault : RuntimeFault}
    (h : e.serve host = (some (.error fault), host')) (check : fault.IsCheck) : host' = host := by
  unfold Event.serve at h
  split at h
  · split at h
    · cases h
    · exact (Prod.mk.inj h).2.symm
  · next n vs =>
    obtain ⟨reply, rfl⟩ := Prod.mk.inj h
    exact n.serve_rejected (Prod.ext (Option.some.inj reply) rfl) check
  · cases h
  · cases h

/-- The stream was there, and is closed. -/
def Host.Closed (host : Host) (id : HandleId) : Prop :=
  ∃ h, host.files.handle? id = some h ∧ h.closed = true

namespace Host.Closed

variable {host : Host} {id : HandleId}

theorem of_files {fs : FileSystem} (hc : host.Closed id)
    (kept : ∀ h, host.files.handle? id = some h → ∃ h', fs.handle? id = some h' ∧
      (h.closed = true → h'.closed = true)) : Host.Closed { host with files := fs } id := by
  obtain ⟨h, found, closed⟩ := hc
  obtain ⟨h', found', stays⟩ := kept h found
  exact ⟨h', found', stays closed⟩

theorem modifyHandle (hc : host.Closed id) (other : HandleId) {f : Handle → Handle}
    (stays : ∀ h, h.closed = true → (f h).closed = true) :
    Host.Closed { host with files := host.files.modifyHandle other f } id := by
  refine hc.of_files fun h found => ?_
  rw [handle?_modifyHandle]
  by_cases eq : other = id
  · rw [if_pos eq, found]
    exact ⟨f h, rfl, stays h⟩
  · rw [if_neg eq]
    exact ⟨h, found, fun h => h⟩

end Host.Closed

theorem Native.Effect.closed {host : Host} {r : EStateM.Result Native.Fault Host (Value ρ κ)}
    (h : Native.Effect host r) {id : HandleId} (hc : host.Closed id) : (ending r).Closed id := by
  cases h with
  | rejects | fails | answers => exact hc
  | writesAll written =>
    obtain ⟨file, fs, opened, rfl⟩ := of_writeAll written
    refine hc.of_files fun h found => ⟨h, ?_, fun h => h⟩
    rwa [handle?_setContent, handle?, handles_openFile opened]
  | opens opened =>
    obtain ⟨file, fs, stored, -, rfl⟩ := of_openHandle opened
    refine hc.of_files fun h found => ⟨h, ?_, fun h => h⟩
    rw [handle?, ← handles_openFile stored] at found
    rw [handle?, Array.getElem?_push, if_neg, found]
    rintro rfl
    rw [Array.getElem?_eq_none (Nat.le_refl _)] at found
    cases found
  | closes => exact hc.modifyHandle _ fun _ _ => rfl
  | moves | movesAndFails => exact hc.modifyHandle _ fun _ h => h
  | @writes other h _ _ bytes =>
    change Host.Closed { host with files := host.files.write other h bytes } id
    unfold FileSystem.write
    split
    · exact hc
    · have stays (kept : Bytes) :
          Host.Closed { host with files := host.files.setContent h.file kept } id := hc
      exact (stays _).modifyHandle other fun _ h => h

theorem Event.serve_closed (e : Event ρ) {host : Host} {id : HandleId} (hc : host.Closed id) :
    (e.serve host).2.Closed id := by
  unfold Event.serve
  split
  · split <;> exact hc
  · next n vs =>
    by_cases h : vs.length = n.arity
    · rw [Native.snd_serve h]
      exact (n.run_effect vs h host).closed hc
    · rwa [Native.serve, dif_neg h]
  · exact hc
  · exact hc

/-- What is closed stays closed. -/
theorem Event.after_closed (es : List (Event ρ)) {host : Host} {id : HandleId}
    (hc : host.Closed id) : (Event.after es host).Closed id := by
  induction es generalizing host with
  | nil => exact hc
  | cons e es ih => exact ih (e.serve_closed hc)

namespace Host.Closed

variable {host : Host} {id : HandleId} (hc : host.Closed id)

include hc

theorem openStream : Native.Action.openStream (.file id : Value ρ κ) host = .error .closed host := by
  obtain ⟨h, found, closed⟩ := hc
  rw [Native.Action.openStream, bind_of_ok (Native.Action.stream_run found)]
  simp only [closed]
  rfl

/-- What needs an open stream is rejected. -/
theorem serve {n : Native} (needs : n.NeedsOpen) {vs : List (Value ρ EnvId)}
    (ha : (.file id :: vs).length = n.arity) :
    n.serve (.file id :: vs) host = (.error (.native n .closed), host) := by
  have opened := hc.openStream (ρ := ρ) (κ := EnvId)
  have readable : Native.Action.readable (.file id : Value ρ EnvId) host = .error .closed host :=
    bind_of_error opened
  apply Native.serve_error ha
  cases n with
  | fileWrite | fileWriteLine =>
    obtain ⟨v, text, h⟩ := List.length_eq_two.mp ha
    cases h
    exact bind_of_error opened
  | fileRead | fileReadLine =>
    obtain ⟨v, h⟩ := List.length_eq_one_iff.mp ha
    cases h
    exact bind_of_error readable
  | seekStart | seekEnd =>
    obtain ⟨v, h⟩ := List.length_eq_one_iff.mp ha
    cases h
    exact bind_of_error opened
  | _ => exact needs.elim

end Host.Closed

def Host.closing (id : HandleId) (host : Host) : Host := { host with files := host.files.close id }

theorem Native.of_fileClose {host host' : Host} {id : HandleId} {v : Value ρ EnvId}
    (h : Native.fileClose.serve [.file id] host = (.ok v, host')) :
    host' = host.closing id ∧ host'.Closed id := by
  obtain ⟨_, run⟩ := of_serve_ok h
  change Action.fileClose (.file id) host = _ at run
  obtain ⟨⟨id', stood⟩, host₁, streamed, run⟩ := bind_ok run
  obtain ⟨same, value, found⟩ : host₁ = host ∧ .file id = (.file id' : Value ρ EnvId) ∧
      host.files.handle? id' = some stood :=
    (streamed ▸ Action.stream_checks _ : Action.Checks host _ (.ok (id', stood) host₁)).passed
  cases value
  rw [same] at run
  cases run
  refine ⟨rfl, { stood with closed := true }, ?_, rfl⟩
  simp [FileSystem.close, handle?_modifyHandle, found]

/-- Closing a stream that is there closes it, and does nothing else. -/
theorem Event.serve_fileClose {host host' : Host} {id : HandleId} {v : Value ρ EnvId}
    (h : (Event.native .fileClose [.file id]).serve host = (some (.ok v), host')) :
    host' = host.closing id ∧ host'.Closed id := by
  obtain ⟨reply, left⟩ := Prod.mk.inj h
  exact Native.of_fileClose (Prod.ext (Option.some.inj reply) left)

end Lox
