import Lox.Host
import Lox.Numeral.Reading
import Lox.Value

/-!
What the native functions do. Each checks its own arguments, first to last, before it touches
anything outside; what fails on these checks leaves everything as it was.
-/

namespace Lox

open Text FileSystem

variable {ρ κ : Type}

namespace Native

inductive Fault where
  | notString (argument : String)
  | notNumber (argument : String)
  | unknownMode (mode : Float)
  | notStream
  | closed
  | fileNotFound
  | refused (fault : FileSystem.Fault)
  /-- Bytes that were to be text are none. -/
  | notText
  /-- A character or a line that was read is no text. -/
  | malformed (fault : Utf8.Fault)
  /-- The file ends inside a character. -/
  | endsInside
  | awaited (what : Awaited)

def Fault.message : Fault → String
  | .notString argument => argument ++ " must be string."
  | .notNumber argument => argument ++ " must be number."
  | .unknownMode mode => "unknown file mode " ++ Numeral.display mode ++ "."
  | .notStream => "argument must be a valid file stream."
  | .closed => "file stream is closed."
  | .fileNotFound => "file not found."
  | .refused fault => fault.message
  | .notText => "stream did not contain valid UTF-8"
  | .malformed fault => fault.message
  | .endsInside => "failed to fill whole buffer"
  | .awaited _ => "not known yet"

/-- What a native function does to its surroundings. -/
abbrev Action := EStateM Fault Host

namespace Action

def files : Action FileSystem := return (← get).files

def setFiles (fs : FileSystem) : Action Unit := modify ({ · with files := fs })

def modifyFiles (f : FileSystem → FileSystem) : Action Unit :=
  modify fun host => { host with files := f host.files }

/-- What an operation on files answers. -/
def allowed {α : Type} : Except FileSystem.Fault α → Action α
  | .ok a => return a
  | .error fault => throw (.refused fault)

def string (argument : String) : Value ρ κ → Action String
  | .string s => return s
  | _ => throw (.notString argument)

def number (argument : String) : Value ρ κ → Action Float
  | .number x => return x
  | _ => throw (.notNumber argument)

/-- Goes on if it is known what the path leads to. -/
def know (path : String) : Action Unit := do
  if !(← get).knows path then throw (.awaited (.path path))

def stream : Value ρ κ → Action (HandleId × Handle)
  | .file id => do
    match (← files).handle? id with
    | some h => return (id, h)
    | none => throw .notStream
  | _ => throw .notStream

def openStream (v : Value ρ κ) : Action (HandleId × Handle) := do
  let (id, h) ← stream v
  if h.closed then throw .closed
  return (id, h)

/-- A stream that is open and can be read. -/
def readable (v : Value ρ κ) : Action (HandleId × Handle) := do
  let (id, h) ← openStream v
  if h.appends then throw (.refused .badDescriptor)
  return (id, h)

/-- The meaning of a mode number. -/
def access? (mode : Float) : Option Access :=
  if mode == 1 then some { create := true, exclusive := true }
  else if mode == 2 then some { create := true, truncate := true }
  else if mode == 3 then some {}
  else if mode == 4 then some { create := true }
  else if mode == 5 then some { truncate := true }
  else if mode == 6 then some { create := true, append := true }
  else none

/-- The number of bytes of a character, as its first byte tells. -/
def width (b : UInt8) : Nat :=
  if b < 0x80 then 1
  else if b >>> 5 == 0b110 then 2
  else if b >>> 4 == 0b1110 then 3
  else 4

/-- A line of input is a number if it reads as one, blanks around it apart. -/
def input : Action (Value ρ κ) := do
  let (reading, console) := (← get).console.readLine
  modify ({ · with console })
  match reading with
  | .pending => throw (.awaited .input)
  | .malformed _ => throw .notText
  | .end => return .nil
  | .line line =>
    let line := dropLineEnd line
    match Numeral.read? (trim line) with
    | some x => return .number x
    | none => return .string line

def fileExists (path : Value ρ κ) : Action (Value ρ κ) := do
  let path ← string "argument" path
  know path
  return .bool ((← files).isFile path)

def fileReadText (path : Value ρ κ) : Action (Value ρ κ) := do
  let path ← string "argument" path
  know path
  let fs ← files
  if !fs.isFile path then throw .fileNotFound
  match Utf8.decode (← allowed (fs.readAll path)) with
  | .ok s => return .string s
  | .error _ => throw .notText

def fileWriteText (path text : Value ρ κ) : Action (Value ρ κ) := do
  let path ← string "first argument" path
  know path
  setFiles (← allowed ((← files).writeAll path (Utf8.encode text.display)))
  return .nil

def fileOpen (path mode : Value ρ κ) : Action (Value ρ κ) := do
  let path ← string "first argument" path
  let mode ← number "second argument" mode
  match access? mode with
  | none => throw (.unknownMode mode)
  | some access =>
    know path
    let (id, fs) ← allowed ((← files).openHandle path access)
    setFiles fs
    return .file id

def fileClose (v : Value ρ κ) : Action (Value ρ κ) := do
  let (id, _) ← stream v
  modifyFiles (·.close id)
  return .nil

def fileWrite (v : Value ρ κ) (text : String) : Action (Value ρ κ) := do
  let (id, h) ← openStream v
  modifyFiles (·.write id h (Utf8.encode text))
  return .nil

/-- The next character of a file. Where the file ends inside it, what is left is read. -/
def fileRead (v : Value ρ κ) : Action (Value ρ κ) := do
  let (id, h) ← readable v
  match (← files).ahead h with
  | [] => return .nil
  | b :: bs =>
    let bytes := (b :: bs).take (width b)
    modifyFiles (·.seek id (h.position + bytes.length))
    if bytes.length < width b then throw .endsInside
    match Utf8.decode bytes with
    | .ok s => return .string s
    | .error fault => throw (.malformed fault)

/-- The next line of a file, without the newline and without any carriage return. -/
def fileReadLine (v : Value ρ κ) : Action (Value ρ κ) := do
  let (id, h) ← readable v
  match Console.cutLine ((← files).ahead h) with
  | ([], _) => return .nil
  | (line, _) =>
    modifyFiles (·.seek id (h.position + line.length))
    match Utf8.decode (line.filter fun b => b != 10 && b != 13) with
    | .ok s => return .string s
    | .error fault => throw (.malformed fault)

def seekStart (v : Value ρ κ) : Action (Value ρ κ) := do
  let (id, _) ← openStream v
  modifyFiles (·.seek id 0)
  return .nil

def seekEnd (v : Value ρ κ) : Action (Value ρ κ) := do
  let (id, h) ← openStream v
  modifyFiles fun fs => fs.seek id (fs.content h.file).length
  return .nil

end Action

/-- What a native function does with as many arguments as it takes. -/
def run : (n : Native) → (arguments : List (Value ρ κ)) → arguments.length = n.arity →
    Action (Value ρ κ)
  | .clock, [], _ => return .number (← get).clock
  | .input, [], _ => Action.input
  | .fileExists, [path], _ => Action.fileExists path
  | .fileReadText, [path], _ => Action.fileReadText path
  | .fileWriteText, [path, text], _ => Action.fileWriteText path text
  | .fileOpen, [path, mode], _ => Action.fileOpen path mode
  | .fileClose, [v], _ => Action.fileClose v
  | .fileWrite, [v, text], _ => Action.fileWrite v text.display
  | .fileWriteLine, [v, text], _ => Action.fileWrite v (text.display ++ "\r\n")
  | .fileRead, [v], _ => Action.fileRead v
  | .fileReadLine, [v], _ => Action.fileReadLine v
  | .seekStart, [v], _ => Action.seekStart v
  | .seekEnd, [v], _ => Action.seekEnd v

end Native

end Lox
