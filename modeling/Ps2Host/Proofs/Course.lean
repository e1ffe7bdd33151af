import Ps2Host.Exchange.Perform
import Ps2Host.Proofs.Wait

/-!
# The course of an exchange

Carried out on a chip, an exchange takes turns: it waits and sends a byte, it waits and receives
one, or it waits in vain. What the chip does decides only how each turn comes out; the rest follows
from the exchange alone.

## Main definitions

* `Turn` — one wait with what came of it, and `Turn.trace`, its register accesses.
* `Exchange.turns` — the turns that an exchange takes on a chip.
* `Exchange.Course` — turns and a result to which an exchange can lead on some chip.

## Main results

* `Exchange.trace_perform` — the accesses of an exchange are those of its turns.
* `Exchange.regular_of_mem_turns` — every wait keeps to the patience of the host.
* `Exchange.course_turns` — what an exchange does on a chip is one of its courses.
* `Exchange.Course.of_bind` — the courses of a chained exchange.
-/
namespace Ps2Host

/-- One wait of the host with what came of it. -/
inductive Turn
  /-- There was room, and a byte was written. -/
  | sent (wait : Trace) (port : Port) (byte : UInt8)
  /-- There was a byte, and it was read. -/
  | received (wait : Trace) (byte : UInt8)
  /-- The wait failed. -/
  | stalled (wait : Trace) (need : Need) (stall : Stall)
  deriving DecidableEq

namespace Turn

def trace : Turn → Trace
  | sent wait port byte => wait ++ [.write port byte]
  | received wait byte => wait ++ [.read byte]
  | stalled wait _ _ => wait

def isTransfer : Turn → Bool
  | sent _ _ _ | received _ _ => true
  | stalled _ _ _ => false

@[simp] theorem isTransfer_sent (wait : Trace) (port : Port) (byte : UInt8) :
    (sent wait port byte).isTransfer = true := rfl

@[simp] theorem isTransfer_received (wait : Trace) (byte : UInt8) :
    (received wait byte).isTransfer = true := rfl

@[simp] theorem isTransfer_stalled (wait : Trace) (need : Need) (stall : Stall) :
    (stalled wait need stall).isTransfer = false := rfl

/-- The wait of the turn is one that a host of this patience makes. -/
def Regular (patience : Patience) : Turn → Prop
  | sent wait _ _ => patience.Met .room wait
  | received wait _ => patience.Met .byte wait
  | stalled wait need stall => patience.Missed need wait ∧ stall = patience.stall need

end Turn

namespace Exchange

variable {σ ε α β : Type} [Chip σ]

def turns (patience : Patience) : Exchange ε α → σ → List Turn
  | done _, _ => []
  | fail _, _ => []
  | note _ next, chip => next.turns patience chip
  | send port byte next, chip =>
    let wait := patience.awaitRoom chip
    match wait.result with
    | .error stall => [.stalled wait.trace .room stall]
    | .ok _ => .sent wait.trace port byte :: next.turns patience (Chip.write port byte wait.chip)
  | receive next, chip =>
    let wait := patience.awaitByte chip
    match wait.result with
    | .error stall => [.stalled wait.trace .byte stall]
    | .ok _ =>
      let taken := Chip.read wait.chip
      .received wait.trace taken.1 :: (next taken.1).turns patience taken.2
  | listen next, chip =>
    let wait := patience.awaitByte chip
    match wait.result with
    | .error .timeout =>
      .stalled wait.trace .byte .timeout :: (next none).turns patience wait.chip
    | .error stall => [.stalled wait.trace .byte stall]
    | .ok _ =>
      let taken := Chip.read wait.chip
      .received wait.trace taken.1 :: (next (some taken.1)).turns patience taken.2

/-- Every wait of an exchange keeps to the patience of the host. -/
theorem regular_of_mem_turns (patience : Patience) (x : Exchange ε α) (chip : σ) :
    ∀ turn ∈ x.turns patience chip, turn.Regular patience := by
  induction x generalizing chip with
  | done | fail => simp [turns]
  | note notice next ih => exact ih chip
  | send port byte next ih =>
    have hroom := patience.await_cases .room chip
    obtain ⟨hwait, hmet⟩ | ⟨hwait, hmissed⟩ := hroom <;> rw [Patience.await] at hwait
    · simpa [turns, hwait] using ⟨hmet, ih _⟩
    · simpa [turns, hwait] using ⟨hmissed, rfl⟩
  | receive next ih =>
    have hbyte := patience.await_cases .byte chip
    obtain ⟨hwait, hmet⟩ | ⟨hwait, hmissed⟩ := hbyte <;> rw [Patience.await] at hwait
    · simpa [turns, hwait] using ⟨hmet, ih _ _⟩
    · simpa [turns, hwait] using ⟨hmissed, rfl⟩
  | listen next ih =>
    have hbyte := patience.await_cases .byte chip
    obtain ⟨hwait, hmet⟩ | ⟨hwait, hmissed⟩ := hbyte <;> rw [Patience.await] at hwait
    · simpa [turns, hwait] using ⟨hmet, ih _ _⟩
    · cases hstall : patience.stall .byte <;> rw [hstall] at hwait
      · simpa [turns, hwait] using ⟨⟨hmissed, hstall.symm⟩, ih _ _⟩
      · simpa [turns, hwait] using ⟨hmissed, hstall.symm⟩

variable [Controller.Fault ε]

/-- The turns and the result to which an exchange can lead, whatever the chip does. -/
inductive Course : Exchange ε α → List Turn → Except ε α → Prop
  | done (a : α) : Course (.done a) [] (.ok a)
  | fail (e : ε) : Course (.fail e) [] (.error e)
  | note {notice next turns result} (rest : Course next turns result) :
      Course (.note notice next) turns result
  | sent {port byte next turns result} (wait : Trace) (rest : Course next turns result) :
      Course (.send port byte next) (.sent wait port byte :: turns) result
  | noRoom {port byte next} (wait : Trace) (stall : Stall) :
      Course (.send port byte next) [.stalled wait .room stall] (.error stall.fault)
  | received {next turns result} (wait : Trace) (byte : UInt8)
      (rest : Course (next byte) turns result) :
      Course (.receive next) (.received wait byte :: turns) result
  | noByte {next} (wait : Trace) (stall : Stall) :
      Course (.receive next) [.stalled wait .byte stall] (.error stall.fault)
  | heard {next turns result} (wait : Trace) (byte : UInt8)
      (rest : Course (next (some byte)) turns result) :
      Course (.listen next) (.received wait byte :: turns) result
  | silence {next turns result} (wait : Trace) (rest : Course (next none) turns result) :
      Course (.listen next) (.stalled wait .byte .timeout :: turns) result
  | blocked {next} (wait : Trace) :
      Course (.listen next) [.stalled wait .byte .wouldBlock] (.error Stall.wouldBlock.fault)

namespace Course

/-- A course of a chained exchange ends with an error in the first part or goes through both. -/
theorem of_bind {x : Exchange ε α} {f : α → Exchange ε β} {turns : List Turn} {result : Except ε β}
    (h : Course (x >>= f) turns result) :
    (∃ e, Course x turns (.error e) ∧ result = .error e) ∨
      ∃ a before after, turns = before ++ after ∧ Course x before (.ok a) ∧
        Course (f a) after result := by
  induction x generalizing turns with
  | done a => exact .inr ⟨a, [], turns, rfl, .done a, h⟩
  | fail e => cases h with | fail => exact .inl ⟨e, .fail e, rfl⟩
  | note notice next ih =>
    cases h with
    | note rest =>
      obtain ⟨e, hx, rfl⟩ | ⟨a, before, after, rfl, hx, hf⟩ := ih rest
      · exact .inl ⟨e, .note hx, rfl⟩
      · exact .inr ⟨a, before, after, rfl, .note hx, hf⟩
  | send port byte next ih =>
    cases h with
    | sent wait rest =>
      obtain ⟨e, hx, rfl⟩ | ⟨a, before, after, rfl, hx, hf⟩ := ih rest
      · exact .inl ⟨e, .sent wait hx, rfl⟩
      · exact .inr ⟨a, _ :: before, after, rfl, .sent wait hx, hf⟩
    | noRoom wait stall => exact .inl ⟨_, .noRoom wait stall, rfl⟩
  | receive next ih =>
    cases h with
    | received wait byte rest =>
      obtain ⟨e, hx, rfl⟩ | ⟨a, before, after, rfl, hx, hf⟩ := ih byte rest
      · exact .inl ⟨e, .received wait byte hx, rfl⟩
      · exact .inr ⟨a, _ :: before, after, rfl, .received wait byte hx, hf⟩
    | noByte wait stall => exact .inl ⟨_, .noByte wait stall, rfl⟩
  | listen next ih =>
    cases h with
    | heard wait byte rest =>
      obtain ⟨e, hx, rfl⟩ | ⟨a, before, after, rfl, hx, hf⟩ := ih (some byte) rest
      · exact .inl ⟨e, .heard wait byte hx, rfl⟩
      · exact .inr ⟨a, _ :: before, after, rfl, .heard wait byte hx, hf⟩
    | silence wait rest =>
      obtain ⟨e, hx, rfl⟩ | ⟨a, before, after, rfl, hx, hf⟩ := ih none rest
      · exact .inl ⟨e, .silence wait hx, rfl⟩
      · exact .inr ⟨a, _ :: before, after, rfl, .silence wait hx, hf⟩
    | blocked wait => exact .inl ⟨_, .blocked wait, rfl⟩

theorem of_map {x : Exchange ε α} {f : α → β} {turns : List Turn} {result : Except ε β}
    (h : Course (f <$> x) turns result) : ∃ old, Course x turns old ∧ result = old.map f := by
  rw [map_eq_pure_bind] at h
  obtain ⟨e, hx, rfl⟩ | ⟨a, before, after, rfl, hx, hf⟩ := h.of_bind
  · exact ⟨.error e, hx, rfl⟩
  · cases hf with
    | done => exact ⟨.ok a, by rwa [List.append_nil], rfl⟩

end Course

theorem trace_perform (patience : Patience) (x : Exchange ε α) (chip : σ) :
    (x.perform patience chip).trace = (x.turns patience chip).flatMap Turn.trace := by
  induction x generalizing chip with
  | done | fail => rfl
  | note notice next ih => simpa [perform, turns, Run.andThen, Run.note] using ih chip
  | send port byte next ih =>
    cases hwait : (patience.awaitRoom chip).result with
    | error stall => simp [perform, turns, Run.andThen, hwait, Run.pure, Turn.trace]
    | ok => simp [perform, turns, Run.andThen, hwait, Run.write, Turn.trace, ih]
  | receive next ih =>
    cases hwait : (patience.awaitByte chip).result with
    | error stall => simp [perform, turns, Run.andThen, hwait, Run.pure, Turn.trace]
    | ok => simp [perform, turns, Run.andThen, hwait, Run.read, Turn.trace, ih]
  | listen next ih =>
    rcases hwait : (patience.awaitByte chip).result with (_ | _) | _ <;>
      simp [perform, turns, Run.andThen, hwait, Run.pure, Run.read, Turn.trace, ih]

/-- What an exchange does on a chip is one of its courses. -/
theorem course_turns (patience : Patience) (x : Exchange ε α) (chip : σ) :
    Course x (x.turns patience chip) (x.perform patience chip).result := by
  induction x generalizing chip with
  | done a => exact .done a
  | fail e => exact .fail e
  | note notice next ih => exact .note (ih chip)
  | send port byte next ih =>
    cases hwait : (patience.awaitRoom chip).result with
    | error stall => simpa [perform, turns, Run.andThen, hwait, Run.pure] using .noRoom _ stall
    | ok => simpa [perform, turns, Run.andThen, hwait, Run.write] using .sent _ (ih _)
  | receive next ih =>
    cases hwait : (patience.awaitByte chip).result with
    | error stall => simpa [perform, turns, Run.andThen, hwait, Run.pure] using .noByte _ stall
    | ok => simpa [perform, turns, Run.andThen, hwait, Run.read] using .received _ _ (ih _ _)
  | listen next ih =>
    rcases hwait : (patience.awaitByte chip).result with (_ | _) | _
    · simpa [perform, turns, Run.andThen, hwait] using .silence _ (ih _ _)
    · simpa [perform, turns, Run.andThen, hwait, Run.pure] using .blocked _
    · simpa [perform, turns, Run.andThen, hwait, Run.read] using .heard _ _ (ih _ _)

end Exchange

end Ps2Host
