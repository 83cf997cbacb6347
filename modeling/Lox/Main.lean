import Lox.CommandLine

/-!
The command line as a process. A run is a function of what is known of its surroundings. When it
waits for something that is not known, that is looked up and the run is done again from the start; of
its output only the part that is new is shown. Files are written when the run has ended.
-/

namespace Lox.Main

/-- More steps than any run takes. -/
def fuel : Nat := Nat.pow 2 62

/-- What stands at a place of the real file system: a directory as none, a file with its bytes. -/
def look (p : FileSystem.Path) : IO (Option (Option Text.Bytes)) := do
  try
    return some (some (← IO.FS.readBinFile ("/" ++ "/".intercalate p)).data.toList)
  catch
    | .inappropriateType .. => return some none
    | _ => return none

/-- Adds to the files that are known what the names lead to from a place. -/
partial def explore (fs : FileSystem) (p : FileSystem.Path) : List String → IO FileSystem
  | [] => return fs
  | "" :: names | "." :: names => explore fs p names
  | ".." :: names => explore fs p.dropLast names
  | name :: names => do
    match ← look (p ++ [name]) with
    | none => return fs
    | some content => explore (fs.add (p ++ [name]) content) (p ++ [name]) names

def explorePath (fs : FileSystem) (path : String) : IO FileSystem :=
  explore fs (if path.startsWith "/" then [] else fs.working) (path.splitOn "/")

partial def readAll (stream : IO.FS.Stream) (bytes : ByteArray) : IO ByteArray := do
  let more ← stream.read 65536
  if more.isEmpty then return bytes else readAll stream (bytes ++ more)

partial def readLine (stream : IO.FS.Stream) (bytes : ByteArray) : IO ByteArray := do
  let more ← stream.read 1
  if more.isEmpty || more.toList = [10] then return bytes ++ more
  else readLine stream (bytes ++ more)

/-- The console with more of its input: a line if a person types it, or else all there is. -/
def readOn (c : Console) : IO Console := do
  let stdin ← IO.getStdin
  let more ← if ← stdin.isTty then readLine stdin .empty else readAll stdin .empty
  return { c with
    input := c.input ++ more.toList
    ended := !(← stdin.isTty) || more.toList.getLast? ≠ some 10 }

/-- Shows the output behind the first so many bytes, and the messages behind so many characters. -/
def showFrom (written told : Nat) (state : CommandLine.State) : IO Unit := do
  let output := state.session.machine.host.console.output
  let stdout ← IO.getStdout
  stdout.write ⟨output.extract written output.size⟩
  stdout.flush
  IO.eprint (String.ofList (state.messages.toList.drop told))

partial def serve (arguments : List String) (host : Host) (written told : Nat) : IO UInt32 := do
  let (status, state) := CommandLine.start fuel arguments host
  let found := state.session.machine.host
  showFrom written told state
  let again (host : Host) :=
    serve arguments host found.console.output.size state.messages.length
  match status with
  | .exited code =>
    for (p, bytes) in FileSystem.changes host.files found.files do
      IO.FS.writeBinFile ("/" ++ "/".intercalate p) ⟨bytes.toArray⟩
    return code.toUInt32
  | .awaits .input => again { host with console := ← readOn host.console }
  | .awaits (.path path) =>
    let files ← explorePath host.files path
    again { host with files, explored := some (path :: host.explored.getD []) }

end Lox.Main

def main (arguments : List String) : IO UInt32 := do
  let working := ((← IO.currentDir).toString.splitOn "/").filter (· ≠ "")
  let files := ({ working } : Lox.FileSystem).add working none
  let clock := (← IO.monoMsNow).toFloat / 1000
  Lox.Main.serve arguments
    { console := { ended := false }, files, clock, explored := some [] } 0 0
