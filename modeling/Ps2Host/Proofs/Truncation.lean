import Mathlib.Data.List.TakeDrop
import Ps2Host.Log.Logger

/-!
# Lines that are cut

A line grows byte by byte and stops growing when it is full. What is delivered in the end is the
beginning of the line that would have been written without a bound, however long its pieces are.

## Main definitions

* `Text.hexDigits` — the digits of hexadecimal numbers in their order.
* `Message.unbounded` — all that a message says, whether or not a line has room for it.
* `Message.texts` — the texts that a message is made of.

## Main results

* `Line.bytes_append` — growing a line by a text cuts the longer text.
* `Line.spaceTo_eq` — spaces up to a column are a text of their own.
* `Message.bytes_line` — the line of a message is the beginning of all that it says.
* `Logger.deliver_eq_take` — so is what a sink gets; this says how much of it shows.
-/
namespace Ps2Host

/-! ## Growing a line -/

namespace Line

theorem length_push (line : Line) (b : UInt8) :
    (line.push b).length = min capacity (line.length + 1) := by
  simp [length, bytes_push]

/-- A byte that is added stands directly after the others, and there was room for it. -/
theorem bytes_push_of_ne {line : Line} {b : UInt8} (h : line.push b ≠ line) :
    line.length < capacity ∧ (line.push b).bytes = line.bytes ++ [b] := by
  unfold push at h ⊢
  split at h
  · rename_i hroom
    exact ⟨hroom, by rw [dif_pos hroom]⟩
  · exact absurd rfl h

/-- A line that grows by a text keeps as much of the text as fits. -/
theorem bytes_append (line : Line) (text : Text) :
    (line.append text).bytes = (line.bytes ++ text).take capacity := by
  induction text generalizing line with
  | nil => rw [append_nil, List.append_nil, List.take_of_length_le line.length_le]
  | cons b text ih =>
    rw [append_cons, ih, bytes_push, List.append_cons line.bytes b text]
    grind [List.take_append]

theorem length_append_empty (text : Text) :
    (empty.append text).length = min capacity text.length := by
  simp [length, bytes_append]

/-- Spaces up to a column are at least one, and as many as there are columns before it. -/
theorem spaceTo_eq (line : Line) {column : Nat} (hcolumn : column ≤ capacity) :
    line.spaceTo column =
      line.append (List.replicate (max 1 (column - line.length)) Text.space) := by
  have hspaces : max 1 (column - line.length) =
      column - (line.push Text.space).length + 1 := by
    have hlength : line.length ≤ capacity := line.length_le
    rw [length_push]
    omega
  rw [hspaces, List.replicate_succ, append_cons]
  rfl

end Line

/-! ## What a message says -/

def Text.hexDigits : Text := ofString "0123456789ABCDEF"

theorem Text.hex_eq (b : UInt8) :
    hex b = [hexDigits.getD (b.toNat / 16) 0, hexDigits.getD (b.toNat % 16) 0] := by
  obtain ⟨bits⟩ := b
  revert bits
  decide +kernel

theorem Text.zero_not_mem_hex (b : UInt8) : 0 ∉ hex b := by
  obtain ⟨bits⟩ := b
  revert bits
  decide +kernel

namespace Message

/-- All that a message says, on a line without a bound. -/
def unbounded : Message → Text
  | text t => t
  | field key value => key ++ Text.ofString ": " ++ value
  | hexField key b => key ++ Text.ofString ": 0x" ++
      [Text.hexDigits.getD (b.toNat / 16) 0, Text.hexDigits.getD (b.toNat % 16) 0]
  | verdict t passed => t ++ List.replicate (max 1 (70 - t.length)) Text.space ++
      Text.ofString (if passed then "[ OK ]" else "[FAIL]")

def texts : Message → List Text
  | text t | verdict t _ => [t]
  | field key value => [key, value]
  | hexField key _ => [key]

/-- The line of a message is the beginning of all that it says. -/
theorem bytes_line (message : Message) :
    message.line.bytes = message.unbounded.take Line.capacity := by
  suffices hline : message.line = Line.empty.append message.unbounded by
    rw [hline, Line.bytes_append, Line.bytes_empty, List.nil_append]
  cases message with
  | text t => rfl
  | field key value => simp only [line, unbounded, Line.append_append, separator]
  | hexField key b =>
    have hmark : Text.ofString ": 0x" = separator ++ hexMark := rfl
    simp only [line, unbounded, hmark, Text.hex_eq, Line.append_append]
  | verdict t passed =>
    have hspaces : max 1 (verdictColumn - (Line.empty.append t).length) =
        max 1 (70 - t.length) := by
      rw [Line.length_append_empty, verdictColumn, Line.capacity]
      omega
    rw [line, unbounded, Line.spaceTo_eq _ (by decide), hspaces, mark, Line.append_append,
      Line.append_append]

theorem zero_not_mem_unbounded {message : Message} (h : ∀ t ∈ message.texts, 0 ∉ t) :
    0 ∉ message.unbounded := by
  have hseparator : (0 : UInt8) ∉ Text.ofString ": " ∧ (0 : UInt8) ∉ Text.ofString ": 0x" := by
    decide
  have hspaces (n : Nat) : (0 : UInt8) ∉ List.replicate n Text.space := by
    simp [List.mem_replicate, Text.space]
  cases message with
  | text t => exact h t (List.mem_singleton.2 rfl)
  | field key value =>
    obtain ⟨hkey, hvalue⟩ : 0 ∉ key ∧ 0 ∉ value := by simpa [texts] using h
    simp [unbounded, hkey, hvalue, hseparator.1]
  | hexField key b =>
    have hkey : 0 ∉ key := by simpa [texts] using h
    rw [unbounded, ← Text.hex_eq, List.mem_append, List.mem_append]
    simp only [hkey, hseparator.2, Text.zero_not_mem_hex, or_self, not_false_eq_true]
  | verdict t passed =>
    have ht : 0 ∉ t := by simpa [texts] using h
    have hmark : (0 : UInt8) ∉ Text.ofString (if passed then "[ OK ]" else "[FAIL]") := by
      cases passed <;> decide
    rw [unbounded, List.mem_append, List.mem_append]
    simp only [ht, hspaces, hmark, or_self, not_false_eq_true]

/-! ## Verdicts -/

def markColumn (t : Text) : Nat := t.length + max 1 (70 - t.length)

theorem length_mark (passed : Bool) : (mark passed).length = 6 := by
  cases passed <;> rfl

/-- From the column of its mark on, a verdict shows as much of the mark as fits. -/
theorem bytes_verdict (t : Text) (passed : Bool) :
    (verdict t passed).line.bytes =
      (t ++ List.replicate (max 1 (70 - t.length)) Text.space).take Line.capacity ++
        (mark passed).take (Line.capacity - markColumn t) := by
  rw [bytes_line, unbounded, ← mark, List.take_append]
  simp [markColumn]

theorem drop_verdict (t : Text) (passed : Bool) :
    (verdict t passed).line.bytes.drop (markColumn t) =
      (mark passed).take (Line.capacity - markColumn t) := by
  rw [bytes_line, unbounded, ← mark, List.drop_take]
  congr 1
  exact List.drop_left' (by simp [markColumn])

/-- The marks of a pass and of a failure begin with the same byte, and differ in the next. -/
theorem take_mark_eq_iff (n : Nat) : (mark true).take n = (mark false).take n ↔ n ≤ 1 := by
  match n with
  | 0 | 1 => decide
  | n + 2 =>
    refine iff_of_false (fun h => ?_) (by omega)
    have hsecond := congrArg (fun shown => shown[1]?) h
    simp only [List.getElem?_take_of_lt (Nat.succ_lt_succ (Nat.succ_pos n))] at hsecond
    exact absurd hsecond (by decide)

end Message

/-! ## What a sink gets -/

/-- A sink gets the first 127 bytes of all that a message says, and of a debug message if it
debugs. A byte is added at an index of at most 126, and no zero byte is. The mark of a verdict
stands in column 70 after a text that leaves it there; the whole of it shows after at most 120
bytes, and enough of it to tell a pass from a failure after at most 124. -/
theorem Logger.deliver_eq_take (debug : Bool) (message : Message) :
    let logger : Logger := { debug, sink := true }
    let shown := message.unbounded.take 127
    logger.deliver [.normal message] = [shown] ∧
    logger.deliver [.debug message] = (if debug then [shown] else []) ∧
    (∀ (line : Line) (b : UInt8), line.push b ≠ line →
      line.length ≤ 126 ∧ (line.push b).bytes = line.bytes ++ [b]) ∧
    shown.length ≤ 127 ∧
    ((∀ t ∈ message.texts, 0 ∉ t) → 0 ∉ shown) ∧
    ∀ t : Text,
      let verdict (passed : Bool) := (Message.verdict t passed).unbounded.take 127
      (∀ passed, t.length ≤ 69 → (verdict passed)[70]? = some 0x5B) ∧
      (∀ passed, (verdict passed).drop (Message.markColumn t) = Message.mark passed ↔
        t.length ≤ 120) ∧
      (verdict true ≠ verdict false ↔ t.length ≤ 124) := by
  intro logger shown
  have hshown : message.line.bytes = shown := message.bytes_line
  refine ⟨?_, ?_, fun line b hne => ?_, List.length_take_le .., fun htexts hmem => ?_, fun t => ?_⟩
  · rw [← hshown]
    rfl
  · rw [← hshown]
    cases debug <;> rfl
  · obtain ⟨hroom, hbytes⟩ := Line.bytes_push_of_ne hne
    exact ⟨Nat.le_of_lt_succ hroom, hbytes⟩
  · exact Message.zero_not_mem_unbounded htexts (List.mem_of_mem_take hmem)
  · intro verdict
    have hverdict (passed : Bool) :
        (Message.verdict t passed).line.bytes = verdict passed := Message.bytes_line _
    have hcolumn : Message.markColumn t = max (t.length + 1) 70 := by
      rw [Message.markColumn]
      omega
    refine ⟨fun passed hlength => ?_, fun passed => ?_, ?_⟩
    · have hfirst : ((verdict passed).drop 70)[0]? = some 0x5B := by
        have hseventy : Message.markColumn t = 70 := by omega
        rw [← hverdict, ← hseventy, Message.drop_verdict, hseventy]
        cases passed <;> decide
      simpa using hfirst
    · rw [← hverdict, Message.drop_verdict, hcolumn, Line.capacity, List.take_eq_self_iff,
        Message.length_mark]
      omega
    · rw [← hverdict, ← hverdict, Message.bytes_verdict, Message.bytes_verdict, ne_eq,
        List.append_right_inj, Message.take_mark_eq_iff, hcolumn, Line.capacity]
      omega

end Ps2Host
