import Ps2Host.Proofs.Delivery
import Ps2Host.Proofs.Independence

/-!
# Where the bytes come from

A scripted chip whose status never shows a byte that is not there gives out what it queues and
nothing else: each byte that the host reads is the head of the output queue. So what an operation
has read and what it leaves in the queue are together what it found there and what its writes made
the chip queue, in this order.

## Main definitions

* `ScriptedChip.supply` — what a byte that is written makes the chip queue.
* `Trace.supply` — the same for the writes of a trace.
* `Trace.Draws` — each byte read is the head of the output queue.

## Main results

* `Trace.Draws.balance` — what is read and what is left is what there was and what came.
* `Exchange.draws_perform`, `Operation.draws_perform` — exchanges and operations draw from the
  queue.
-/
namespace Ps2Host

namespace ScriptedChip

/-- What a byte that is written makes the chip queue: what a command or the command before it asks
for, and the answer of the script. -/
def supply (chip : ScriptedChip) (port : Port) (byte : UInt8) : List Entry :=
  match port with
  | .command =>
    (if byte &&& 0xE0 = 0x20 then [⟨0, chip.ram.get (address byte)⟩] else []) ++
      chip.answer .controller byte
  | .data =>
    (if chip.pending.loop then [⟨0, byte⟩] else []) ++ chip.answer chip.pending.channel byte

theorem queue_write (chip : ScriptedChip) (port : Port) (byte : UInt8) :
    (chip.write port byte).queue = chip.queue ++ chip.supply port byte := by
  have hcell : chip.ram[address byte] = chip.ram.get (address byte) := rfl
  cases port with
  | command =>
    simp only [write, takeCommand, supply, hcell]
    repeat' split
    all_goals simp [react, enqueue, answer, *]
  | data =>
    simp only [write, takeData, supply]
    repeat' split
    all_goals simp [react, enqueue, answer, store, *]

/-- A status that shows a byte shows the head of the queue. -/
theorem queue_of_hasByte {chip : ScriptedChip} (hextra : chip.extra.toNat.testBit 0 = false)
    (h : hasByte (.ofBits chip.showStatus.1) = true) :
    ∃ byte rest, chip.queue = ⟨0, byte⟩ :: rest := by
  rw [hasByte_showStatus hextra] at h
  unfold outputBit at h
  split at h
  · exact ⟨_, _, ‹_›⟩
  · cases h

theorem waiting_read (chip : ScriptedChip) {byte : UInt8} (h : chip.waiting.head? = some byte) :
    chip.waiting = byte :: (Chip.read chip).2.waiting := by
  obtain ⟨rest, hwaiting⟩ := List.head?_eq_some_iff.1 h
  rw [hwaiting, show (Chip.read chip).2.waiting = rest from (waiting_giveByte hwaiting).2]

end ScriptedChip

def Access.supply (chip : ScriptedChip) : Access → List UInt8
  | write port byte => (chip.supply port byte).map ScriptedChip.Entry.byte
  | status _ | read _ => []

namespace Trace

variable {chip : ScriptedChip} {s t trace : Trace}

def supply : Trace → ScriptedChip → List UInt8
  | [], _ => []
  | access :: rest, chip => access.supply chip ++ supply rest (access.apply chip)

theorem supply_append : (s ++ t).supply chip = s.supply chip ++ t.supply (s.replay chip) := by
  induction s generalizing chip with
  | nil => rfl
  | cons access rest ih =>
    rw [List.cons_append, supply, supply, ih, List.append_assoc, Trace.replay_cons]

/-- Each byte read along the trace is the head of the output queue there. -/
def Draws : Trace → ScriptedChip → Prop
  | [], _ => True
  | access :: rest, chip =>
    (∀ byte, access = .read byte → chip.waiting.head? = some byte) ∧ Draws rest (access.apply chip)

theorem draws_append : (s ++ t).Draws chip ↔ s.Draws chip ∧ t.Draws (s.replay chip) := by
  induction s generalizing chip with
  | nil => exact (and_iff_right trivial).symm
  | cons access rest ih => rw [List.cons_append, Draws, Draws, ih, and_assoc, Trace.replay_cons]

theorem draws_statuses (statuses : List UInt8) (chip : ScriptedChip) :
    Draws (statuses.map .status) chip ∧
      (Trace.replay (statuses.map .status) chip).waiting = chip.waiting := by
  induction statuses generalizing chip with
  | nil => exact ⟨trivial, rfl⟩
  | cons status rest ih =>
    obtain ⟨hdraws, hwaiting⟩ := ih chip.showStatus.2
    exact ⟨⟨nofun, hdraws⟩, hwaiting.trans (ScriptedChip.waiting_showStatus chip)⟩

/-- What is read and what is left is what waited before and what was queued on the way. -/
theorem Draws.balance (h : trace.Draws chip) :
    trace.replies ++ (trace.replay chip).waiting = chip.waiting ++ trace.supply chip := by
  induction trace generalizing chip with
  | nil => exact (List.append_nil _).symm
  | cons access rest ih =>
    obtain ⟨hread, hrest⟩ := h
    have hbalance := ih hrest
    cases access with
    | status byte =>
      have hsame := ScriptedChip.waiting_showStatus chip
      exact hbalance.trans (congrArg (· ++ Trace.supply rest _) hsame)
    | write port byte =>
      have hwaiting : (Chip.write port byte chip).waiting =
          chip.waiting ++ (chip.supply port byte).map ScriptedChip.Entry.byte := by
        rw [ScriptedChip.waiting, show (Chip.write port byte chip).queue = _ from
          chip.queue_write port byte, List.map_append, ScriptedChip.waiting]
      have hsplit := hbalance.trans (congrArg (· ++ Trace.supply rest _) hwaiting)
      exact hsplit.trans (List.append_assoc ..)
    | read byte =>
      rw [chip.waiting_read (hread byte rfl)]
      exact congrArg (List.cons byte) hbalance

theorem supply_of_writes_nil (h : trace.writes = []) : trace.supply chip = [] := by
  induction trace generalizing chip with
  | nil => rfl
  | cons access rest ih =>
    cases access with
    | status | read => exact ih h
    | write => cases h

/-- If nothing waits at first, each byte read was queued in answer to what was written before. -/
theorem Draws.prefix_supply (h : trace.Draws chip) (hempty : chip.waiting = [])
    {before after : Trace} {byte : UInt8} (hsplit : trace = before ++ .read byte :: after) :
    (∃ access ∈ before, access.isWrite = true) ∧
      before.replies ++ [byte] <+: before.supply chip := by
  have hdraws : Draws (before ++ [.read byte]) chip := by
    rw [hsplit, List.append_cons] at h
    exact (draws_append.1 h).1
  have hbalance := hdraws.balance
  rw [hempty, supply_append, replies_append] at hbalance
  have hprefix : before.replies ++ [byte] <+: before.supply chip :=
    ⟨_, hbalance.trans (List.append_nil _)⟩
  refine ⟨Decidable.byContradiction fun hnone => ?_, hprefix⟩
  have hwrites : before.writes = [] :=
    List.filter_eq_nil_iff.2 fun access hmem hwrite => hnone ⟨access, hmem, hwrite⟩
  rw [supply_of_writes_nil hwrites, List.prefix_nil] at hprefix
  simp at hprefix

end Trace

/-! ## Runs -/

section Runs

variable {α β : Type} {patience : Patience} {chip : ScriptedChip}

/-- A run changes nothing of the script. -/
theorem Run.Replays.extra {r : Run ScriptedChip α} (h : r.Replays chip) :
    r.chip.extra = chip.extra := by
  rw [h]
  exact (ScriptedChip.script_replay r.trace chip).2.1

theorem Run.draws_andThen {r : Run ScriptedChip α} (hreplays : r.Replays chip)
    (hr : r.trace.Draws chip) {f : α → ScriptedChip → Run ScriptedChip β}
    (hf : ∀ a, r.result = a → (f a r.chip).trace.Draws r.chip) :
    (r.andThen f).trace.Draws chip :=
  Trace.draws_append.2 ⟨hr, hreplays ▸ hf r.result rfl⟩

theorem Patience.draws_await (patience : Patience) (need : Need) (chip : ScriptedChip) :
    (patience.await need chip).trace.Draws chip ∧
      (patience.await need chip).chip.waiting = chip.waiting := by
  obtain ⟨statuses, hstatuses⟩ :
      ∃ statuses : List UInt8, (patience.await need chip).trace = statuses.map .status := by
    obtain ⟨-, missed, shown, hmet, -⟩ | ⟨-, missed, hmissed, -⟩ := patience.await_cases need chip
    · exact ⟨missed ++ [shown], by rw [hmet, List.map_append, List.map_singleton]⟩
    · exact ⟨missed, hmissed⟩
  rw [patience.replays_await need chip, hstatuses]
  exact Trace.draws_statuses statuses chip

/-- If the status shows no byte that is not there, a wait for a byte that ends well has a byte to
be read. -/
theorem Patience.waiting_of_awaitByte (hextra : chip.extra.toNat.testBit 0 = false)
    (h : (patience.awaitByte chip).result = .ok ()) :
    ∃ rest, (patience.awaitByte chip).chip.waiting =
      (Chip.read (patience.awaitByte chip).chip).1 :: rest := by
  have hsame : (patience.awaitByte chip).chip.waiting = chip.waiting :=
    (patience.draws_await .byte chip).2
  cases hwaiting : chip.waiting with
  | nil =>
    -- Every host has the patience for a queue with nothing in it.
    have hserves : chip.Serves patience :=
      { queue := by simp [List.map_eq_nil_iff.1 hwaiting], extra := hextra }
    rw [hserves.awaitByte.1, hwaiting] at h
    cases h
  | cons byte rest =>
    have hbyte := (ScriptedChip.waiting_giveByte (hsame.trans hwaiting)).1
    exact ⟨rest, hsame.trans (hwaiting.trans (congrArg (· :: rest) hbyte.symm))⟩

/-- A byte that is read after a wait for it is the head of the queue. -/
theorem Patience.draws_read (hextra : chip.extra.toNat.testBit 0 = false)
    (h : (patience.awaitByte chip).result = .ok ()) {f : UInt8 → ScriptedChip → Run ScriptedChip β}
    (hf : ∀ byte chip', chip'.extra = chip.extra → (f byte chip').trace.Draws chip') :
    ((Run.read (patience.awaitByte chip).chip).andThen f).trace.Draws
      (patience.awaitByte chip).chip := by
  have hwait : (patience.awaitByte chip).Replays chip := patience.replays_await .byte chip
  have hread := Run.replays_read (patience.awaitByte chip).chip
  refine Run.draws_andThen hread ⟨?_, trivial⟩ fun byte _ => ?_
  · rintro byte ⟨⟩
    obtain ⟨rest, hrest⟩ := patience.waiting_of_awaitByte hextra h
    rw [hrest]
    rfl
  · exact hf byte _ (hread.extra.trans hwait.extra)

end Runs

/-- An exchange reads what the chip has queued, if the status shows no byte that is not there. -/
theorem Exchange.draws_perform {ε α : Type} [Controller.Fault ε] (patience : Patience)
    (x : Exchange ε α) {chip : ScriptedChip} (hextra : chip.extra.toNat.testBit 0 = false) :
    (x.perform patience chip).trace.Draws chip := by
  induction x generalizing chip with
  | done | fail => exact trivial
  | note notice next ih => exact ih hextra
  | send port byte next ih =>
    rw [perform]
    have hwait : (patience.awaitRoom chip).Replays chip := patience.replays_await .room chip
    refine Run.draws_andThen hwait (patience.draws_await .room chip).1 fun wait _ => ?_
    cases wait with
    | error stall => exact trivial
    | ok =>
      have hwrite := Run.replays_write port byte (patience.awaitRoom chip).chip
      refine Run.draws_andThen hwrite ⟨?_, trivial⟩ fun _ _ => ih ?_
      · rintro byte ⟨⟩
      · rwa [hwrite.extra, hwait.extra]
  | receive next ih =>
    rw [perform]
    have hwait : (patience.awaitByte chip).Replays chip := patience.replays_await .byte chip
    refine Run.draws_andThen hwait (patience.draws_await .byte chip).1 fun wait hresult => ?_
    cases wait with
    | error stall => exact trivial
    | ok => exact patience.draws_read hextra hresult fun byte _ heq => ih byte (heq ▸ hextra)
  | listen next ih =>
    rw [perform]
    have hwait : (patience.awaitByte chip).Replays chip := patience.replays_await .byte chip
    refine Run.draws_andThen hwait (patience.draws_await .byte chip).1 fun wait hresult => ?_
    rcases wait with (_ | _) | _
    · exact ih none (hwait.extra ▸ hextra)
    · exact trivial
    · exact patience.draws_read hextra hresult fun byte _ heq => ih (some byte) (heq ▸ hextra)

theorem Controller.draws_carryOut {ε α : Type} [Fault ε] (c : Controller)
    (plan : Except ε (Exchange ε α)) {chip : ScriptedChip}
    (hextra : chip.extra.toNat.testBit 0 = false) : (c.carryOut plan chip).1.trace.Draws chip := by
  cases plan with
  | error e => exact trivial
  | ok x =>
    rw [carryOut, hold_eq]
    cases c.leased with
    | true => exact trivial
    | false => exact x.draws_perform c.patience hextra

/-- A flush drops what the chip has queued, if the status shows no byte that is not there. -/
theorem draws_flush (limit : Nat) {chip : ScriptedChip}
    (hextra : chip.extra.toNat.testBit 0 = false) : (flush limit chip).trace.Draws chip := by
  induction limit generalizing chip with
  | zero => exact trivial
  | succ limit ih =>
    rw [flush_succ]
    have hlook := Run.replays_status chip
    refine Run.draws_andThen hlook ⟨nofun, trivial⟩ fun status hstatus => ?_
    split
    · rename_i hready
      have hread := Run.replays_read chip.showStatus.2
      refine Run.draws_andThen hread ⟨?_, trivial⟩ fun _ _ => ih (hread.extra ▸ hextra)
      rintro byte ⟨⟩
      obtain rfl := hstatus
      obtain ⟨byte, rest, hqueue⟩ := ScriptedChip.queue_of_hasByte hextra hready
      simp [ScriptedChip.waiting, ScriptedChip.showStatus, Chip.read, ScriptedChip.giveByte,
        ScriptedChip.ageQueue, hqueue]
    · exact trivial

/-- An operation reads what the chip has queued, if the status shows no byte that is not there. -/
theorem Operation.draws_perform (operation : Operation) (c : Controller) {chip : ScriptedChip}
    (hextra : chip.extra.toNat.testBit 0 = false) :
    (operation.perform c chip).1.trace.Draws chip := by
  cases operation with
  | controller request => exact request.exchange.draws_perform c.patience hextra
  | keyboard request => exact c.draws_carryOut request.plan hextra
  | mouse request => exact c.draws_carryOut request.plan hextra
  | probe p =>
    cases p with
    | status => exact ⟨nofun, trivial⟩
    | awaitByte => exact (c.patience.draws_await .byte chip).1
    | awaitRoom => exact (c.patience.draws_await .room chip).1
    | flush =>
      refine Run.draws_andThen (replays_flush _ chip) (draws_flush _ hextra) fun count _ => ?_
      rw [Controller.Probe.reportFlush]
      split <;> exact trivial

end Ps2Host
