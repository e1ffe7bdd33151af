import Ps2Host.Proofs.Lease

/-!
# Runs and their traces

What is done to a chip is in the trace: the chip after a run is the chip before it with the accesses
of the trace made again, one after the other.

## Main definitions

* `Trace.replay` — a chip after the accesses of a trace.
* `Session.EachOperation` — each operation of a list of steps satisfies something where it is made.

## Main results

* `Exchange.replays_perform`, `Operation.replays_perform` — exchanges and operations are replayed.
* `Session.chip_run` — so are sessions.
-/
namespace Ps2Host

variable {σ : Type} [Chip σ]

/-- The chip after an access, whatever the access answered. -/
def Access.apply (chip : σ) : Access → σ
  | status _ => (Chip.status chip).2
  | read _ => (Chip.read chip).2
  | write port byte => Chip.write port byte chip

namespace Trace

def replay (trace : Trace) (chip : σ) : σ := trace.foldl Access.apply chip

@[simp] theorem replay_nil (chip : σ) : replay [] chip = chip := rfl

@[simp] theorem replay_cons (access : Access) (rest : Trace) (chip : σ) :
    replay (access :: rest) chip = rest.replay (access.apply chip) := rfl

@[simp] theorem replay_append (s t : Trace) (chip : σ) :
    replay (s ++ t) chip = t.replay (s.replay chip) :=
  List.foldl_append

end Trace

/-! ## Runs of one operation -/

namespace Run

variable {α β : Type} {chip : σ}

/-- The run began with this chip and did to it what its trace says. -/
def Replays (r : Run σ α) (chip : σ) : Prop := r.chip = r.trace.replay chip

theorem Replays.andThen {r : Run σ α} (hr : r.Replays chip) {f : α → σ → Run σ β}
    (hf : ∀ a chip, (f a chip).Replays chip) : (r.andThen f).Replays chip := by
  have hnext := hf r.result r.chip
  rw [Replays] at hr hnext ⊢
  rw [Run.andThen, Trace.replay_append, ← hr]
  exact hnext

theorem Replays.map {r : Run σ α} (hr : r.Replays chip) (f : α → β) : (r.map f).Replays chip := hr

theorem replays_pure (a : α) (chip : σ) : (Run.pure a chip).Replays chip := rfl

theorem replays_note (notice : Notice) (chip : σ) : (Run.note notice chip).Replays chip := rfl

theorem replays_status (chip : σ) : (Run.status chip).Replays chip := rfl

theorem replays_read (chip : σ) : (Run.read chip).Replays chip := rfl

theorem replays_write (port : Port) (byte : UInt8) (chip : σ) :
    (Run.write port byte chip).Replays chip := rfl

end Run

theorem replays_poll (ready : Register .status → Bool) (limit : Nat) (chip : σ) :
    (poll ready limit chip).Replays chip := by
  induction limit generalizing chip with
  | zero => exact Run.replays_pure false chip
  | succ limit ih =>
    rw [poll_succ]
    refine (Run.replays_status chip).andThen fun status chip => ?_
    split
    · exact Run.replays_pure true chip
    · exact ih chip

theorem replays_flush (limit : Nat) (chip : σ) : (flush limit chip).Replays chip := by
  induction limit generalizing chip with
  | zero => exact Run.replays_pure 0 chip
  | succ limit ih =>
    rw [flush_succ]
    refine (Run.replays_status chip).andThen fun status chip => ?_
    split
    · exact (Run.replays_read chip).andThen fun _ chip => (ih chip).map _
    · exact Run.replays_pure 0 chip

theorem Patience.replays_pollFor (patience : Patience) (ready : Register .status → Bool)
    (complaint : Notice) (chip : σ) : (patience.pollFor ready complaint chip).Replays chip := by
  refine (replays_poll ready _ chip).andThen fun ready chip => ?_
  split
  · exact Run.replays_pure _ chip
  · exact (Run.replays_note complaint chip).andThen fun _ chip => Run.replays_pure _ chip

theorem Patience.replays_await (patience : Patience) (need : Need) (chip : σ) :
    (patience.await need chip).Replays chip := by
  cases need with
  | room => exact patience.replays_pollFor hasRoom writeTimeout chip
  | byte =>
    rw [await, awaitByte]
    split
    · exact patience.replays_pollFor hasByte readTimeout chip
    · exact (Run.replays_status chip).andThen fun _ chip => Run.replays_pure _ chip

/-- The chip after an exchange is the one before it after the accesses of the exchange. -/
theorem Exchange.replays_perform {ε α : Type} [Controller.Fault ε] (patience : Patience)
    (x : Exchange ε α) (chip : σ) : (x.perform patience chip).Replays chip := by
  induction x generalizing chip with
  | done | fail => exact Run.replays_pure _ chip
  | note notice next ih => exact (Run.replays_note notice chip).andThen fun _ chip => ih chip
  | send port byte next ih =>
    rw [perform]
    refine (patience.replays_await .room chip).andThen fun wait chip => ?_
    cases wait with
    | error stall => exact Run.replays_pure _ chip
    | ok => exact (Run.replays_write port byte chip).andThen fun _ chip => ih chip
  | receive next ih =>
    rw [perform]
    refine (patience.replays_await .byte chip).andThen fun wait chip => ?_
    cases wait with
    | error stall => exact Run.replays_pure _ chip
    | ok => exact (Run.replays_read chip).andThen fun byte chip => ih byte chip
  | listen next ih =>
    rw [perform]
    refine (patience.replays_await .byte chip).andThen fun wait chip => ?_
    rcases wait with (_ | _) | _
    · exact ih none chip
    · exact Run.replays_pure _ chip
    · exact (Run.replays_read chip).andThen fun byte chip => ih (some byte) chip

theorem Controller.replays_carryOut {ε α : Type} [Fault ε] (c : Controller)
    (plan : Except ε (Exchange ε α)) (chip : σ) : (c.carryOut plan chip).1.Replays chip := by
  cases plan with
  | error e => exact Run.replays_pure _ chip
  | ok x =>
    rw [carryOut, hold_eq]
    cases c.leased with
    | true => exact Run.replays_pure _ chip
    | false => exact x.replays_perform c.patience chip

theorem Controller.Probe.replays_perform (patience : Patience) (p : Probe) (chip : σ) :
    (p.perform patience chip).Replays chip := by
  cases p with
  | status => exact (Run.replays_status chip).map _
  | awaitByte => exact (patience.replays_await .byte chip).map _
  | awaitRoom => exact (patience.replays_await .room chip).map _
  | flush =>
    refine (replays_flush _ chip).andThen fun count chip => ?_
    rw [reportFlush]
    split
    · exact Run.replays_pure _ chip
    · exact (Run.replays_note _ chip).andThen fun _ chip => Run.replays_pure _ chip

theorem Operation.replays_perform (operation : Operation) (c : Controller) (chip : σ) :
    (operation.perform c chip).1.Replays chip := by
  cases operation with
  | probe p => exact (p.replays_perform c.patience chip).map _
  | controller request => exact (request.exchange.replays_perform c.patience chip).map _
  | keyboard request => exact (c.replays_carryOut request.plan chip).map _
  | mouse request => exact (c.replays_carryOut request.plan chip).map _

/-! ## Sessions -/

namespace Session

/-- Each operation among the steps satisfies `P`, with the controller and the chip as they are when
it is made. -/
def EachOperation (P : Operation → Controller → σ → Prop) (s : Session σ) : List Step → Prop
  | [] => True
  | step :: rest =>
    (∀ operation, step = .operation operation → P operation s.controller s.chip) ∧
      (s.step step).1.EachOperation P rest

theorem chip_stepLease {σ : Type} (s : Session σ) (step : LeaseStep) :
    (s.stepLease step).1.chip = s.chip := by
  have hdrop (name : Int) : (s.dropLease name).chip = s.chip := by
    unfold dropLease
    split <;> rfl
  cases step with
  | query => rfl
  | take name => exact hdrop name
  | drop name => exact hdrop name

theorem chip_step (s : Session σ) (step : Step) :
    (s.step step).1.chip = (s.step step).2.trace.replay s.chip := by
  cases step with
  | operation operation => exact operation.replays_perform s.controller s.chip
  | lease step => exact s.chip_stepLease step
  | setting setting => cases setting <;> rfl
  | log | isDebug => rfl

/-- The chip after some steps is the one before them after all their accesses. -/
theorem chip_run (s : Session σ) (steps : List Step) :
    (s.run steps).1.chip = Trace.replay ((s.run steps).2.flatMap Record.trace) s.chip := by
  induction steps generalizing s with
  | nil => rfl
  | cons step rest ih => rw [run, ih, chip_step, List.flatMap_cons, Trace.replay_append]

end Session

end Ps2Host
