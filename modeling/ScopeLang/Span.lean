/-
Source positions.

A span is a byte range of the program text with 32 bit ends.  A line table
turns a byte offset into a line number: line `k` holds the offsets of its own
bytes and of the line feed that ends it, and every offset past the last range
is answered by one line more than there are ranges.  The range that holds an
offset is found by halving, since the ranges are sorted.
-/

namespace ScopeLang

/-- A byte range of the program text. -/
structure Span where
  start : UInt32
  stop : UInt32
deriving DecidableEq, Inhabited, Repr

namespace Span

/-- The span of a node that comes from no text. -/
def none : Span := ⟨0, 0⟩

/-- A span whose ends are taken modulo `2 ^ 32`. -/
def ofNat (start stop : Nat) : Span := ⟨start.toUInt32, stop.toUInt32⟩

def isEmpty (s : Span) : Bool := s.start == s.stop

/-- The least span that covers both ends of both spans. -/
def merge (a b : Span) : Span := ⟨min a.start b.start, max a.stop b.stop⟩

/-- This span, or another in the place of an empty one. -/
def orElse (a b : Span) : Span := if a.isEmpty then b else a

end Span

/-! ## Binary search -/

section Search

variable {α : Type}

/-- The position at which the search of `size` elements from `base` on ends: the half whose first
element lies past what is searched for is given up, or else the one before it. -/
def narrow (compare : α → Ordering) (elements : Array α) (base size : Nat) : Nat :=
  if size ≤ 1 then base
  else
    let half := size / 2
    let middle := base + half
    let past := elements[middle]?.map compare = some .gt
    narrow compare elements (if past then base else middle) (size - half)
termination_by size

/-- The position of an element that compares equal, in an array that the comparison orders. -/
def binarySearch (compare : α → Ordering) (elements : Array α) : Option Nat :=
  let position := narrow compare elements 0 elements.size
  if elements[position]?.map compare = some .eq then some position else none

end Search

/-! ## Line tables -/

/-- The line ranges of a text, as half open ranges of offsets. -/
structure LineTable where
  ranges : Array Span
deriving Inhabited

namespace LineTable

/-- The bytes of a text. -/
def bytesOf (text : String) : List UInt8 := text.toUTF8.data.toList

/-- The ranges of the lines that a line feed ends, and where the line after them starts.  What is
left to read starts at `offset`, and its first line at `cursor`. -/
def scan (cursor : UInt32) : Nat → List UInt8 → List Span × UInt32
  | _, [] => ([], cursor)
  | offset, byte :: rest =>
      let stop := (offset + 1).toUInt32
      if byte = 10 then
        let (ranges, last) := scan stop (offset + 1) rest
        (⟨cursor, stop⟩ :: ranges, last)
      else scan cursor (offset + 1) rest

/-- The line ranges of the bytes of a text.  A last line that no line feed ends takes in the offset
past its last byte. -/
def rangesOf (bytes : List UInt8) : List Span :=
  if bytes.isEmpty then [⟨0, 1⟩]
  else
    let (ranges, last) := scan 0 0 bytes
    if bytes.getLast? = some 10 then ranges
    else ranges ++ [⟨last, (bytes.length + 1).toUInt32⟩]

/-- The line table of a text. -/
def ofText (text : String) : LineTable := ⟨(rangesOf (bytesOf text)).toArray⟩

/-- The answer for offsets past every range. -/
def lastLine (t : LineTable) : UInt32 := (t.ranges.size + 1).toUInt32

/-- Where a range lies, as seen from an offset. -/
def side (offset : UInt32) (range : Span) : Ordering :=
  if offset < range.start then .gt
  else if range.stop ≤ offset then .lt
  else .eq

/-- The number of the line that holds an offset, by a given way to search an array. -/
def lineBy (search : (Span → Ordering) → Array Span → Option Nat) (t : LineTable)
    (offset : UInt32) : UInt32 :=
  match search (side offset) t.ranges with
  | some index => index.toUInt32 + 1
  | none => t.lastLine

/-- The number of the line that holds an offset. -/
def lineAt (t : LineTable) (offset : UInt32) : UInt32 := t.lineBy binarySearch offset

/-- The number of the line that holds an offset, taken modulo `2 ^ 32`. -/
def line (t : LineTable) (offset : Nat) : Nat := (t.lineAt offset.toUInt32).toNat

/-- The answer for offsets past every range, as a number. -/
def maxLine (t : LineTable) : Nat := t.lastLine.toNat

/-- The number of the line on which a span starts. -/
def lineOfSpan (t : LineTable) (s : Span) : Nat := (t.lineAt s.start).toNat

end LineTable

end ScopeLang
