/-!
# Text and bounded lines

Log lines are byte strings and may be cut inside a character. A line grows byte by byte at its right
end and stops growing when it is full: what does not fit is dropped, so a line never holds more than
`Line.capacity` bytes.

## Main definitions

* `Text` — a byte string.
* `Line` — a line that keeps its bound.
* `Line.push`, `Line.append`, `Line.spaceTo` — growing a line by a byte, by a text, up to a column.
-/
namespace Ps2Host

/-- A byte string, which need not be the encoding of any text. -/
abbrev Text := List UInt8

namespace Text

def ofString (s : String) : Text := s.toUTF8.data.toList

def hexDigit (n : UInt8) : UInt8 := if n < 10 then 0x30 + n else 0x37 + n

/-- The two hexadecimal digits of a byte, high digit first. -/
def hex (b : UInt8) : Text := [hexDigit (b >>> 4), hexDigit (b &&& 0x0F)]

def space : UInt8 := 0x20

end Text

def Line.capacity : Nat := 127

structure Line where
  /-- What the line holds so far. -/
  bytes : Text
  /-- The line is not over full. -/
  length_le : bytes.length ≤ Line.capacity

namespace Line

def empty : Line := ⟨[], Nat.zero_le _⟩

def length (line : Line) : Nat := line.bytes.length

/-- Adds one byte, or nothing to a full line. -/
def push (line : Line) (b : UInt8) : Line :=
  if h : line.bytes.length < capacity then
    ⟨line.bytes ++ [b], by rw [List.length_append]; exact h⟩
  else line

def append (line : Line) (text : Text) : Line := text.foldl push line

/-- Adds spaces up to a column, and at least one. -/
def spaceTo (line : Line) (column : Nat) : Line :=
  let spaced := line.push Text.space
  spaced.append (List.replicate (column - spaced.length) Text.space)

@[simp] theorem bytes_empty : empty.bytes = [] := rfl

@[simp] theorem append_nil (line : Line) : line.append [] = line := rfl

@[simp] theorem append_cons (line : Line) (b : UInt8) (text : Text) :
    line.append (b :: text) = (line.push b).append text := rfl

theorem append_append (line : Line) (s t : Text) :
    line.append (s ++ t) = (line.append s).append t := List.foldl_append

/-- Pushing keeps the part of the longer line that fits. -/
theorem bytes_push (line : Line) (b : UInt8) :
    (line.push b).bytes = (line.bytes ++ [b]).take capacity := by
  unfold push
  split
  · rename_i h
    rw [List.take_of_length_le]
    rw [List.length_append]
    exact h
  · rename_i h
    have hfull : line.bytes.length = capacity := Nat.le_antisymm line.length_le (Nat.not_lt.1 h)
    rw [List.take_append_of_le_length (Nat.le_of_eq hfull.symm), ← hfull, List.take_length]

end Line

end Ps2Host
