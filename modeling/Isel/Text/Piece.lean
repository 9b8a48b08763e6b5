import Isel.Text.Blank

/-! Stretches of a text. A piece knows the byte at which it starts, and every operation here
returns pieces that know it too, so a complaint about a piece can point into the text. Offsets
count the bytes of the UTF-8 form. -/

namespace Isel.Text

-- Sums start from the zero of the core library, whatever else is imported.
attribute [local instance (2000)] Zero.ofOfNat0

/-- The number of bytes of the UTF-8 form. -/
def byteLength (cs : List Char) : Nat := (cs.map Char.utf8Size).sum

/-- Splits after `n` bytes, unless that is past the end or inside a character. -/
def splitAtByte : Nat → List Char → Option (List Char × List Char)
  | 0, cs => some ([], cs)
  | _ + 1, [] => none
  | n + 1, c :: cs =>
    if c.utf8Size ≤ n + 1 then
      (splitAtByte (n + 1 - c.utf8Size) cs).map fun (before, after) => (c :: before, after)
    else none

/-- A half-open range of bytes. Offsets have 32 bits. -/
structure Span where
  start : UInt32
  stop : UInt32
deriving DecidableEq, Repr

namespace Span

/-- The range between two offsets, of which the low 32 bits are kept. -/
def ofOffsets (start stop : Nat) : Span := ⟨start.toUInt32, stop.toUInt32⟩

/-- The covered text; empty if the range is reversed, leaves the text or cuts a character. -/
def slice (s : Span) (text : String) : String :=
  if s.start ≤ s.stop then
    match splitAtByte s.start.toNat text.toList with
    | none => ""
    | some (_, rest) =>
      match splitAtByte (s.stop.toNat - s.start.toNat) rest with
      | none => ""
      | some (covered, _) => String.ofList covered
  else ""

/-- Line and column of the first byte, both from one; the very first place if the range does not
start at a character of the text. -/
def lineColumn (s : Span) (text : String) : Nat × Nat :=
  match splitAtByte s.start.toNat text.toList with
  | none => (1, 1)
  | some (before, _) =>
    (1 + before.count '\n', 1 + byteLength (before.reverse.takeWhile (· ≠ '\n')))

def line (s : Span) (text : String) : Nat := (s.lineColumn text).1

/-- `[start, stop)` -/
def render (s : Span) : String := s!"[{s.start}, {s.stop})"

/-- `start..stop` -/
def renderRange (s : Span) : String := s!"{s.start}..{s.stop}"

end Span

/-- A stretch of a text together with the byte at which it starts. -/
structure Piece where
  start : Nat
  chars : List Char
deriving DecidableEq, Repr

namespace Piece

def ofString (text : String) : Piece := ⟨0, text.toList⟩

def text (p : Piece) : String := String.ofList p.chars

def isEmpty (p : Piece) : Bool := p.chars.isEmpty

def span (p : Piece) : Span := .ofOffsets p.start (p.start + byteLength p.chars)

/-- The empty piece right after the last character. -/
def tail (p : Piece) : Piece := ⟨p.start + byteLength p.chars, []⟩

def trimRight (p : Piece) : Piece := ⟨p.start, (p.chars.reverse.dropWhile isBlank).reverse⟩

def trimLeft (p : Piece) : Piece :=
  ⟨p.start + byteLength (p.chars.takeWhile isBlank), p.chars.dropWhile isBlank⟩

/-- Without blanks at either end. A piece of blanks only shrinks to its start. -/
def trim (p : Piece) : Piece := p.trimRight.trimLeft

/-- The rest after a first character `c`. -/
def afterFirst? (c : Char) (p : Piece) : Option Piece :=
  match p.chars with
  | [] => none
  | d :: rest => if d = c then some ⟨p.start + d.utf8Size, rest⟩ else none

/-- What stands before a last character `c`. -/
def beforeLast? (c : Char) (p : Piece) : Option Piece :=
  match p.chars.reverse with
  | [] => none
  | d :: rest => if d = c then some ⟨p.start, rest.reverse⟩ else none

/-- The characters before and after the first occurrence of a separator. -/
def cutChars (separator : List Char) : List Char → Option (List Char × List Char)
  | [] => none
  | c :: cs =>
    if separator.isPrefixOf (c :: cs) then some ([], (c :: cs).drop separator.length)
    else (cutChars separator cs).map fun (before, after) => (c :: before, after)

/-- The pieces before and after the first occurrence of a separator. -/
def cut? (separator : List Char) (p : Piece) : Option (Piece × Piece) :=
  (cutChars separator p.chars).map fun (before, after) =>
    (⟨p.start, before⟩, ⟨p.start + byteLength before + byteLength separator, after⟩)

/-- The pieces before and after the first blank. -/
def cutBlank? (p : Piece) : Option (Piece × Piece) :=
  match p.chars.dropWhile (!isBlank ·) with
  | [] => none
  | blank :: after =>
    let before := p.chars.takeWhile (!isBlank ·)
    some (⟨p.start, before⟩, ⟨p.start + byteLength before + blank.utf8Size, after⟩)

/-- The pieces between the occurrences of a separator, the first of them from byte `start`. -/
def splitChars (separator : Char) : Nat → List Char → Piece × List Piece
  | start, [] => (⟨start, []⟩, [])
  | start, c :: cs =>
    let (first, rest) := splitChars separator (start + c.utf8Size) cs
    if c = separator then (⟨start, []⟩, first :: rest)
    else (⟨start, c :: first.chars⟩, rest)

def split (separator : Char) (p : Piece) : List Piece :=
  let (first, rest) := splitChars separator p.start p.chars
  first :: rest

/-- The lines that hold more than blanks, without the blanks around them. -/
def lines (p : Piece) : List Piece :=
  ((p.split '\n').map trim).filter (!·.isEmpty)

end Piece

end Isel.Text
