/-!
UTF-8. A byte sequence is cut into segments: encoded characters, and faults, each the longest start
of an encoding that the next byte breaks or that the end of the sequence cuts off. A sequence is
text when all its segments are characters; otherwise its first fault says where and why it is not.
-/

namespace Lox.Text

abbrev Bytes := List UInt8

namespace Utf8

/-- What a byte sequence starts with. -/
inductive Segment where
  | char (c : Char)
  /-- So many bytes that no byte after them can complete. -/
  | malformed (width : Nat)
  /-- So many bytes at the end of the sequence that more bytes could complete. -/
  | cut (width : Nat)
  deriving Repr, DecidableEq

def isContinuation (b : UInt8) : Bool := 0x80 ≤ b && b ≤ 0xbf

/-- How many bytes follow the first byte of an encoding, and the range of the next one. -/
def lead? (b : UInt8) : Option (Nat × UInt8 × UInt8) :=
  if b < 0x80 then some (0, 0x80, 0xbf)
  else if b < 0xc2 then none
  else if b < 0xe0 then some (1, 0x80, 0xbf)
  else if b == 0xe0 then some (2, 0xa0, 0xbf)
  else if b == 0xed then some (2, 0x80, 0x9f)
  else if b < 0xf0 then some (2, 0x80, 0xbf)
  else if b == 0xf0 then some (3, 0x90, 0xbf)
  else if b < 0xf4 then some (3, 0x80, 0xbf)
  else if b == 0xf4 then some (3, 0x80, 0x8f)
  else none

/-- The code point whose first byte is `b`, with `n` bytes after it. -/
def codePoint (n : Nat) (b : UInt8) (following : Bytes) : Nat :=
  let head := if n = 0 then b.toNat else b.toNat % Nat.pow 2 (6 - n)
  following.foldl (fun p c => 64 * p + c.toNat % 64) head

/-- How many of the `n` bytes after the first one, from the start of `bs`, fit the encoding. -/
def fitting (low high : UInt8) : Nat → Bytes → Nat
  | 0, _ => 0
  | _, [] => 0
  | n + 1, b :: bs => if low ≤ b && b ≤ high then 1 + fitting 0x80 0xbf n bs else 0

/-- The segment at the head of `b :: bs` and the bytes after it. -/
def head (b : UInt8) (bs : Bytes) : Segment × Bytes :=
  match lead? b with
  | none => (.malformed 1, bs)
  | some (n, low, high) =>
    let k := fitting low high n bs
    if k = n then (.char (Char.ofNat (codePoint n b (bs.take n))), bs.drop n)
    else if k = bs.length then (.cut (k + 1), [])
    else (.malformed (k + 1), bs.drop k)

/-- How many bytes a segment takes. -/
def Segment.width : Segment → Nat
  | .char c => c.utf8Size
  | .malformed n | .cut n => n

def segmentsWithin : Nat → Bytes → List Segment
  | 0, _ => []
  | _, [] => []
  | n + 1, b :: bs =>
    let (s, rest) := head b bs
    s :: segmentsWithin n rest

def segments (bs : Bytes) : List Segment := segmentsWithin bs.length bs

/-- Why a byte sequence is not text: the index of its first fault, and the width of that fault
unless the end of the sequence cut it off. -/
structure Fault where
  index : Nat
  width : Option Nat
  deriving Repr, DecidableEq

def Fault.message (f : Fault) : String :=
  match f.width with
  | some n => s!"invalid utf-8 sequence of {n} bytes from index {f.index}"
  | none => s!"incomplete utf-8 byte sequence from index {f.index}"

def charsFrom (index : Nat) : List Segment → Except Fault (List Char)
  | [] => .ok []
  | .char c :: ss => (charsFrom (index + c.utf8Size) ss).map (c :: ·)
  | .malformed n :: _ => .error ⟨index, some n⟩
  | .cut _ :: _ => .error ⟨index, none⟩

def decode (bs : Bytes) : Except Fault String := (charsFrom 0 (segments bs)).map String.ofList

def Segment.shown : Segment → Char
  | .char c => c
  | _ => '\ufffd'

/-- The text with a replacement character for every fault. -/
def decodeLossy (bs : Bytes) : String := String.ofList ((segments bs).map Segment.shown)

def encode (s : String) : Bytes := s.toUTF8.data.toList

end Utf8

end Lox.Text
