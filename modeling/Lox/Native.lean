/-!
The functions that every program finds in its global scope.
-/

namespace Lox

inductive Native where
  | clock
  | input
  | fileExists
  | fileReadText
  | fileWriteText
  | fileOpen
  | fileClose
  | fileWrite
  | fileWriteLine
  | fileRead
  | fileReadLine
  | seekStart
  | seekEnd
  deriving Repr, DecidableEq

namespace Native

def all : List Native :=
  [.clock, .input, .fileExists, .fileReadText, .fileWriteText, .fileOpen, .fileClose, .fileWrite,
    .fileWriteLine, .fileRead, .fileReadLine, .seekStart, .seekEnd]

def name : Native → String
  | .clock => "clock"
  | .input => "input"
  | .fileExists => "file_exists"
  | .fileReadText => "file_readtext"
  | .fileWriteText => "file_writetext"
  | .fileOpen => "file_open"
  | .fileClose => "file_close"
  | .fileWrite => "file_write"
  | .fileWriteLine => "file_writeline"
  | .fileRead => "file_read"
  | .fileReadLine => "file_readline"
  | .seekStart => "seek_bof"
  | .seekEnd => "seek_eof"

def arity : Native → Nat
  | .clock | .input => 0
  | .fileExists | .fileReadText | .fileClose | .fileRead | .fileReadLine | .seekStart | .seekEnd => 1
  | .fileWriteText | .fileOpen | .fileWrite | .fileWriteLine => 2

theorem mem_all (n : Native) : n ∈ all := by
  cases n <;> decide

end Native

end Lox
