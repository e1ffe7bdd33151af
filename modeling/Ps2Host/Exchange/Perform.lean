import Ps2Host.Controller.Wait
import Ps2Host.Exchange.Basic

/-!
# Carrying out an exchange

Before each byte the host waits for the chip, as long as its patience allows. The first wait that
fails ends the exchange with the stall as its error, except that a timeout while listening is an
answer.

## Main definitions

* `Exchange.perform` — carries an exchange out on a chip.

## Main results

* `Exchange.perform_bind` — a chained exchange is carried out one part after the other.
-/
namespace Ps2Host

variable {σ ε α β : Type} [Chip σ] [Controller.Fault ε]

def Stall.fault (stall : Stall) : ε := Controller.Fault.ofController (.stalled stall)

namespace Exchange

def perform (patience : Patience) : Exchange ε α → σ → Run σ (Except ε α)
  | done a, chip => .pure (.ok a) chip
  | fail e, chip => .pure (.error e) chip
  | note notice next, chip =>
    (Run.note notice chip).andThen fun _ chip => next.perform patience chip
  | send port byte next, chip =>
    (patience.awaitRoom chip).andThen fun
      | .error stall, chip => .pure (.error stall.fault) chip
      | .ok _, chip => (Run.write port byte chip).andThen fun _ chip => next.perform patience chip
  | receive next, chip =>
    (patience.awaitByte chip).andThen fun
      | .error stall, chip => .pure (.error stall.fault) chip
      | .ok _, chip => (Run.read chip).andThen fun byte chip => (next byte).perform patience chip
  | listen next, chip =>
    (patience.awaitByte chip).andThen fun
      | .error .timeout, chip => (next none).perform patience chip
      | .error stall, chip => .pure (.error stall.fault) chip
      | .ok _, chip => (Run.read chip).andThen fun byte chip =>
        (next (some byte)).perform patience chip

/-- A chained exchange is carried out one part after the other, and ends with the first error. -/
theorem perform_bind (patience : Patience) (x : Exchange ε α) (f : α → Exchange ε β) (chip : σ) :
    (x >>= f).perform patience chip = (x.perform patience chip).andThen fun
      | .error e, chip => .pure (.error e) chip
      | .ok a, chip => (f a).perform patience chip := by
  induction x generalizing chip with
  | done a => rfl
  | fail e => rfl
  | note notice next ih => simp only [note_bind, perform, ih, Run.andThen_assoc]
  | send port byte next ih =>
    simp only [send_bind, perform, ih, Run.andThen_assoc]
    congr 1
    funext wait chip
    cases wait with
    | error stall => rfl
    | ok => rw [Run.andThen_assoc]
  | receive next ih =>
    simp only [receive_bind, perform, ih, Run.andThen_assoc]
    congr 1
    funext wait chip
    cases wait with
    | error stall => rfl
    | ok => rw [Run.andThen_assoc]
  | listen next ih =>
    simp only [listen_bind, perform, ih, Run.andThen_assoc]
    congr 1
    funext wait chip
    match wait with
    | .error .timeout => rfl
    | .error .wouldBlock => rfl
    | .ok _ => simp only [Run.andThen_assoc]

end Exchange

end Ps2Host
