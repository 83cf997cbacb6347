import Lox.Text.Blank
import Lox.Text.Utf8

/-!
The console: a sequence of bytes to read lines from, and one that text is written to. The input may
be known only up to some point. Output may be limited to a number of bytes; a text that does not fit
fills it up and fails.
-/

namespace Lox

open Text

inductive Console.Fault where
  | outputFull
  | flushFailed
  deriving Repr, DecidableEq

def Console.Fault.message : Console.Fault → String
  | .outputFull => "output full"
  | .flushFailed => "flush failed"

structure Console where
  input : Bytes := []
  /-- Does the input end where what is known of it ends? -/
  ended : Bool := true
  output : Array UInt8 := #[]
  limit : Option Nat := none
  flushFails : Bool := false

namespace Console

/-- As many of the bytes as the output, which holds some already, takes in all. -/
def fitting (limit : Option Nat) (held : Nat) (bytes : Bytes) : Bytes :=
  match limit with
  | none => bytes
  | some n => bytes.take (n - held)

/-- Writes as much of the bytes as fits, and answers whether that is all of them. -/
def write : Console → Bytes → Bool × Console
  | ⟨input, ended, output, limit, flushFails⟩, bytes =>
    let bytes' := fitting limit output.size bytes
    (bytes'.length == bytes.length, ⟨input, ended, bytes'.foldl Array.push output, limit, flushFails⟩)

@[simp] theorem output_write (c : Console) (bytes : Bytes) :
    (c.write bytes).2.output.toList =
      c.output.toList ++ fitting c.limit c.output.size bytes := by
  simp [write]

@[simp] theorem input_write (c : Console) (bytes : Bytes) : (c.write bytes).2.input = c.input := rfl

/-- The first line of a sequence of bytes with its newline, and what is behind it. -/
def cutLine : Bytes → Bytes × Bytes
  | [] => ([], [])
  | b :: bs =>
    if b == 10 then ([b], bs) else
      let (line, rest) := cutLine bs
      (b :: line, rest)

/-- What there is to read. -/
inductive Reading where
  | line (s : String)
  | malformed (fault : Utf8.Fault)
  | end
  /-- More of the input has to be known first. -/
  | pending

/-- Reads the next line, with its newline. A line that is not text is read all the same. -/
def readLine (c : Console) : Reading × Console :=
  let (line, rest) := cutLine c.input
  if !c.ended && line.getLast? ≠ some 10 then (.pending, c)
  else if line.isEmpty then (.end, c)
  else match Utf8.decode line with
    | .ok s => (.line s, { c with input := rest })
    | .error fault => (.malformed fault, { c with input := rest })

theorem cutLine_append (bs : Bytes) : (cutLine bs).1 ++ (cutLine bs).2 = bs := by
  induction bs with
  | nil => rfl
  | cons b bs ih =>
    by_cases h : (b == 10) = true
    · simp only [cutLine, h, if_true, List.singleton_append]
    · simp only [cutLine, h]
      simpa using ih

end Console

/-- A line without the line ends at its end. -/
def Text.dropLineEnd : String → String := dropEnd fun c => c == '\n' || c == '\r'

end Lox
