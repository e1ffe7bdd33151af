import Ps2Host.Chip.Run
import Ps2Host.Controller.Report
import Ps2Host.Register.Flags

/-!
# Waiting for the chip

The host may read a byte only when the status register says that one waits, and may write one only
when it says that the last one has been taken. It polls the status register until then, up to a
limit. In non-blocking mode a read looks at the status once and does not poll; a write always polls.

## Main definitions

* `poll` — reads the status until it is as wanted, at most a given number of times.
* `Patience` — how long the host polls, and whether it polls for reads at all.
* `Patience.awaitByte`, `Patience.awaitRoom` — the wait before a read and before a write.
* `flush` — drops what waits to be read.

## Main results

* `poll_zero`, `poll_succ` — a poll is one status read, and then a shorter poll unless it was ready.
* `flush_zero`, `flush_succ` — the same for the bytes dropped.
-/
namespace Ps2Host

variable {σ : Type} [Chip σ]

def hasByte (status : Register .status) : Bool := status.contains Flag.Status.outputFull

def hasRoom (status : Register .status) : Bool := !status.contains Flag.Status.inputFull

/-- Reads the status register until it is `ready`, at most `limit` times. Says whether it was. -/
def poll (ready : Register .status → Bool) (limit : Nat) (chip : σ) : Run σ Bool :=
  go limit chip []
where
  /-- Goes on after the accesses `seen`, latest first. -/
  go : Nat → σ → Trace → Run σ Bool
    | 0, chip, seen => ⟨false, chip, seen.reverse, []⟩
    | n + 1, chip, seen =>
      let answer := Chip.status chip
      let seen := .status answer.1 :: seen
      if ready (.ofBits answer.1) then ⟨true, answer.2, seen.reverse, []⟩ else go n answer.2 seen

/-- What was seen before stands before what is seen from there. -/
theorem poll_go (ready : Register .status → Bool) (n : Nat) (chip : σ) (seen : Trace) :
    poll.go ready n chip seen = (poll ready n chip).after seen.reverse := by
  unfold poll
  induction n generalizing chip seen with
  | zero => simp [poll.go, Run.after]
  | succ n ih =>
    simp only [poll.go]
    split
    · simp [Run.after]
    · rw [ih, ih _ [_]]
      simp

@[simp] theorem poll_zero (ready : Register .status → Bool) (chip : σ) :
    poll ready 0 chip = Run.pure false chip := rfl

theorem poll_succ (ready : Register .status → Bool) (n : Nat) (chip : σ) :
    poll ready (n + 1) chip = (Run.status chip).andThen fun status chip =>
      if ready status then Run.pure true chip else poll ready n chip := by
  rw [poll, poll.go]
  by_cases h : ready (.ofBits (Chip.status chip).1)
  · simp [h, Run.status, Run.andThen, Run.pure]
  · simp [h, poll_go, Run.status, Run.andThen, Run.after]

/-- How long the host waits for the chip. -/
structure Patience where
  /-- The most status reads of one wait. -/
  limit : UInt32 := 10000
  /-- A read waits for its byte. -/
  blocking : Bool := true
  deriving DecidableEq, Repr

namespace Patience

def readTimeout : Notice := .debug (.text (.ofString "[PS2] read timeout"))

def writeTimeout : Notice := .debug (.text (.ofString "[PS2] write timeout"))

/-- Polls up to the limit; a wait in vain raises a notice and is a timeout. -/
def pollFor (patience : Patience) (ready : Register .status → Bool) (complaint : Notice)
    (chip : σ) : Run σ (Except Stall Unit) :=
  (poll ready patience.limit.toNat chip).andThen fun ready chip =>
    if ready then .pure (.ok ()) chip
    else (Run.note complaint chip).andThen fun _ chip => .pure (.error .timeout) chip

def awaitByte (patience : Patience) (chip : σ) : Run σ (Except Stall Unit) :=
  if patience.blocking then patience.pollFor hasByte readTimeout chip
  else (Run.status chip).andThen fun status chip =>
    .pure (if hasByte status then .ok () else .error .wouldBlock) chip

def awaitRoom (patience : Patience) (chip : σ) : Run σ (Except Stall Unit) :=
  patience.pollFor hasRoom writeTimeout chip

end Patience

/-- Reads and drops waiting bytes, at most `limit` of them. Gives how many it dropped. -/
def flush (limit : Nat) (chip : σ) : Run σ Nat := go limit chip 0 []
where
  /-- Goes on after `dropped` bytes and the accesses `seen`, latest first. -/
  go : Nat → σ → Nat → Trace → Run σ Nat
    | 0, chip, dropped, seen => ⟨dropped, chip, seen.reverse, []⟩
    | n + 1, chip, dropped, seen =>
      let answer := Chip.status chip
      let seen := .status answer.1 :: seen
      if hasByte (.ofBits answer.1) then
        let stale := Chip.read answer.2
        go n stale.2 (dropped + 1) (.read stale.1 :: seen)
      else ⟨dropped, answer.2, seen.reverse, []⟩

/-- What was dropped and seen before adds to what is dropped and seen from there. -/
theorem flush_go (n : Nat) (chip : σ) (dropped : Nat) (seen : Trace) :
    flush.go n chip dropped seen = ((flush n chip).map (dropped + ·)).after seen.reverse := by
  unfold flush
  induction n generalizing chip dropped seen with
  | zero => simp [flush.go, Run.after, Run.map]
  | succ n ih =>
    simp only [flush.go]
    split
    · rw [ih, ih _ (0 + 1)]
      simp [Run.after, Run.map, Nat.add_assoc]
    · simp [Run.after, Run.map]

@[simp] theorem flush_zero (chip : σ) : flush 0 chip = Run.pure 0 chip := rfl

theorem flush_succ (n : Nat) (chip : σ) :
    flush (n + 1) chip = (Run.status chip).andThen fun status chip =>
      if hasByte status then
        (Run.read chip).andThen fun _ chip => (flush n chip).map (· + 1)
      else Run.pure 0 chip := by
  rw [flush, flush.go]
  by_cases h : hasByte (.ofBits (Chip.status chip).1)
  · simp [h, flush_go, Run.status, Run.read, Run.andThen, Run.after, Run.map, Nat.add_comm]
  · simp [h, Run.status, Run.andThen, Run.pure]

end Ps2Host
