import Lox.Proofs.Files.Serving
import Lox.Proofs.Files.Storage

/-!
Streams. A stream that is open for reading stands somewhere in what its file holds. Natives that read
move it on over what they read, and change nothing else.
-/

namespace Lox

open Text FileSystem

/-- The stream is open for reading. It stands behind the first bytes of what its file holds and in front
of the rest. -/
structure Host.Reads (host : Host) (id : HandleId) (h : Handle) (front rest : Bytes) : Prop where
  found : host.files.handle? id = some h
  isOpen : h.closed = false
  reads : h.appends = false
  holds : host.files.content h.file = front ++ rest
  position : h.position = front.length

namespace Host.Reads

variable {ρ : Type} {host : Host} {id : HandleId} {h : Handle} {front rest : Bytes}

theorem ahead (hr : host.Reads id h front rest) : host.files.ahead h = rest := by
  rw [FileSystem.ahead, hr.holds, hr.position, List.drop_left]

/-- The surroundings with the stream behind so many bytes. -/
theorem moved (hr : host.Reads id h front rest) {piece rest' : Bytes} (hp : rest = piece ++ rest') :
    Host.Reads { host with files := host.files.seek id (front ++ piece).length } id
      { h with position := (front ++ piece).length } (front ++ piece) rest' where
  found := by
    simp [FileSystem.seek, FileSystem.handle?_modifyHandle, hr.found]
  isOpen := hr.isOpen
  reads := hr.reads
  holds := by
    rw [List.append_assoc, ← hp]
    exact hr.holds
  position := rfl

theorem readable (hr : host.Reads id h front rest) :
    Native.Action.readable (.file id : Value ρ EnvId) host = .ok (id, h) host :=
  Native.Action.readable_run hr.found hr.isOpen hr.reads

end Host.Reads

end Lox
