import Lox.Session

/-!
The command line: a script that is run once, or a prompt that takes lines until its input ends. Both
write to the console and keep their messages apart. Where something is not known that they depend on,
they stop and say what they wait for.
-/

namespace Lox.CommandLine

structure Options where
  script : Option String := none
  printTree : Bool := false
  unused : Severity := .warning

/-- Reads the options up to a `--`, and at most one script. -/
def parseArguments (options : Options) : List String → Option Options
  | [] => some options
  | "--" :: paths => match paths, options.script with
    | [], _ => some options
    | [path], none => some { options with script := some path }
    | _, _ => none
  | "--print-ast" :: rest => parseArguments { options with printTree := true } rest
  | "--strict-unused" :: rest => parseArguments { options with unused := .error } rest
  | path :: rest =>
    if options.script.isSome || (path.length > 1 && path.toList.head? = some '-') then none
    else parseArguments { options with script := some path } rest

def usage : String := "Usage: lox [--print-ast] [--strict-unused] [SCRIPT]\n"

def help : String :=
  "Enter declarations, statements or expressions. A trailing ';' is optional,\n" ++
  "and a bare expression without one prints its value.\n" ++
  "  exit    leave the prompt\n" ++
  "  ?       show this help\n"

/-- How a run ends, as far as it is known. -/
inductive Status where
  | exited (code : Nat)
  | awaits (what : Awaited)

structure State where
  session : Session
  /-- The messages so far. -/
  messages : String := ""

abbrev Shell := StateM State

def console : Shell Console := return (← get).session.machine.host.console

def setConsole (c : Console) : Shell Unit := modify fun s =>
  { s with session.machine.host.console := c }

def print (text : String) : Shell Unit := do
  setConsole ((← console).write (Text.Utf8.encode text)).2

def tell (message : String) : Shell Unit :=
  modify fun s => { s with messages := s.messages ++ message ++ "\n" }

/-- Runs an action of the session, and tells its warnings. -/
def inSession {α : Type} (action : EStateM Failure Session α) : Shell (Except Failure α) := do
  let s ← get
  let (result, session) := match action s.session with
    | .ok a session => (Except.ok a, session)
    | .error failure session => (.error failure, session)
  let (warnings, session) := session.takeWarnings
  set { s with session }
  for w in warnings do tell w.warning
  return result

/-- What the failure waits for, if that is why it is one. -/
def awaited? : Failure → Option Awaited
  | .stopped (.error ⟨.native _ (.awaited what), _⟩) => some what
  | _ => none

/-- Tells of a failure, and answers how the run ends by it. -/
def failed (failure : Failure) : Shell Status := do
  match awaited? failure with
  | some what => return .awaits what
  | none =>
    tell failure.message
    return .exited failure.exitCode

def readScript (files : FileSystem) (path : String) : Except String String :=
  match files.readAll path with
  | .error fault => .error fault.message
  | .ok bytes => match Text.Utf8.decode bytes with
    | .ok source => .ok source
    | .error _ => .error Native.Fault.notText.message

def runScript (fuel : Nat) (options : Options) (path : String) : Shell Status := do
  let host := (← get).session.machine.host
  if !host.knows path then return .awaits (.path path)
  match readScript host.files path with
  | .error message =>
    tell ("Reading " ++ path ++ ": " ++ message)
    return .exited 74
  | .ok source => match ← inSession (Session.compile source) with
    | .error failure => failed failure
    | .ok program =>
      if options.printTree then print (programText program ++ "\n")
      match ← inSession (Session.execute fuel program) with
      | .error failure => failed failure
      | .ok _ => return .exited 0

/-- Runs a line of the prompt, and answers the end of the prompt if it is one. -/
def runPromptLine (fuel : Nat) (options : Options) (line : String) : Shell (Option Status) := do
  match Text.trim line with
  | "" => return none
  | "exit" => return some (.exited 0)
  | "?" =>
    print help
    return none
  | _ =>
    if options.printTree then print (programText (parse (scan line).tokens 0).statements ++ "\n")
    match ← inSession (Session.runLine fuel line) with
    | .ok (some v) =>
      print (v.display ++ "\n")
      return none
    | .ok none => return none
    | .error failure => match ← failed failure with
      | .awaits what => return some (.awaits what)
      | .exited _ => return none

/-- At most so many rounds of the prompt. -/
def promptWithin (fuel : Nat) (options : Options) : Nat → Shell Status
  | 0 => return .exited 0
  | rounds + 1 => do
    print "> "
    let (reading, c) := (← console).readLine
    setConsole c
    match reading with
    | .pending => return .awaits .input
    | .end =>
      print "\n"
      return .exited 0
    | .malformed _ =>
      tell ("Error: Reading prompt input\n\nCaused by:\n    " ++ Native.Fault.notText.message)
      return .exited 1
    | .line line => match ← runPromptLine fuel options line with
      | some status => return status
      | none => promptWithin fuel options rounds

/-- Every round of the prompt but the last takes at least one byte of the input. -/
def prompt (fuel : Nat) (options : Options) : Shell Status := do
  promptWithin fuel options ((← console).input.length + 1)

def run (fuel : Nat) (options : Options) : Shell Status :=
  match options.script with
  | some path => runScript fuel options path
  | none => prompt fuel options

/-- Runs the command line with these arguments in these surroundings. -/
def start (fuel : Nat) (arguments : List String) (host : Host) : Status × State :=
  match parseArguments {} arguments with
  | some options => (run fuel options).run { session := .start host options.unused }
  | none => (.exited 2, { session := .start host .warning, messages := usage })

end Lox.CommandLine
