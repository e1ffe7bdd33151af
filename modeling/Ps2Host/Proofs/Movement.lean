import Ps2Host.Proofs.Delivery
import Ps2Host.Session.Basic

/-!
# Movements

A mouse that reports movements queues three bytes for each. The host takes them three at a time, so
what is queued is read as the sequence of the movements, and it stays so however many are read. A
movement that the host asks for is read in the same way, after the question is acknowledged.

## Main definitions

* `Mouse.Packet.Raw` — the three bytes that report a movement, and `Mouse.Packet.Raw.packet`, what
  they report.
* `Mouse.Packet.raw` — the bytes that report a packet.

## Main results

* `Mouse.Packet.raw_packet` — nothing but a bit without a name is lost.
* `Mouse.Request.perform_readPacket` — reading a packet takes three bytes from the queue.
* `Mouse.Request.perform_requestPacket` — asking for a packet is a question and then the same.
* `Session.run_readPacket` — as many packets are read as are queued.
* `Session.run_movements` — movements are read without loss, and nothing else is taken.
-/
namespace Ps2Host

namespace Mouse

/-! ## Packets -/

theorem signed_bounds (negative : Bool) (low : UInt8) :
    -256 ≤ signed negative low ∧ signed negative low ≤ 255 := by
  have hlt := low.toNat_lt
  unfold signed
  split <;> omega

/-- The low byte of a movement is read off the movement, whatever its sign. -/
theorem ofInt_signed (negative : Bool) (low : UInt8) : .ofInt (signed negative low) = low := by
  obtain ⟨bits⟩ := low
  revert bits
  cases negative <;> decide +kernel

structure Packet.Raw where
  flags : UInt8
  x : UInt8
  y : UInt8
  deriving DecidableEq, Repr

namespace Packet

/-- The bytes in the order in which they come. -/
def Raw.bytes (raw : Raw) : List UInt8 := [raw.flags, raw.x, raw.y]

def Raw.packet (raw : Raw) : Packet := .ofBytes raw.flags raw.x raw.y

/-- The bytes that report a packet, with bit 3 of the first clear. -/
def raw (packet : Packet) : Raw :=
  { flags := packet.flags.bits, x := .ofInt packet.x, y := .ofInt packet.y }

theorem contains_sign (flags : UInt8) :
    let named : Register .movement := .ofBits flags
    named.contains Flag.Movement.xSign = flags.toNat.testBit 4 ∧
      named.contains Flag.Movement.ySign = flags.toNat.testBit 5 := by
  obtain ⟨bits⟩ := flags
  revert bits
  decide +kernel

/-- Nothing is lost of the bytes but the bit of the first that has no name. -/
theorem raw_packet (r : Raw) : r.packet.raw = { r with flags := r.flags &&& 0xF7 } := by
  simp only [raw, Raw.packet, ofBytes, ofInt_signed]
  rfl

end Packet

open Packet (Raw)

/-! ## One packet -/

theorem collects_readPacket : Exchange.Collects 3
    (fun bytes result => ∀ raw : Raw, bytes = raw.bytes → result = .ok (.packet raw.packet))
    (Answer.packet <$> readPacket) := by
  refine .receive fun flags => .receive fun x => .receive fun y => .done ?_
  rintro ⟨_, _, _⟩ ⟨⟩
  rfl

/-- Bytes for the mouse, each of which has to be acknowledged, make a dialogue. -/
theorem dialogue_cycle {σ : Type} [Chip σ] (patience : Patience) (bytes : List UInt8) (chip : σ) :
    let asked := (Exchange.cycle Controller.sendToMouse acknowledged bytes).perform patience chip
    ∃ ending, Dialogue (fun byte => [.write .command 0xD4, .write .data byte]) bytes
      asked.trace.moves ending ∧ asked.result = ending.result refusal := by
  intro asked
  obtain ⟨ending, hdialogue, hresult⟩ := Exchange.dialogue_of_course sends_toMouse
    checks_acknowledged.acknowledges
    (Exchange.course_turns patience (Exchange.cycle Controller.sendToMouse acknowledged bytes) chip)
  refine ⟨ending, ?_, hresult⟩
  rwa [Exchange.trace_perform, Turn.moves_flatMap_trace
    (Exchange.regular_of_mem_turns patience _ chip)]

namespace Request

/-- Reading a packet takes three bytes from the queue, or fails and takes all if there are fewer. -/
theorem perform_readPacket {c : Controller} (hfree : c.leased = false) {chip : ScriptedChip}
    (h : chip.Serves c.patience) :
    let performed := (readPacket.perform c chip).1
    performed.trace.moves = (chip.waiting.take 3).map .read ∧
    performed.chip.waiting = chip.waiting.drop 3 ∧
    performed.chip.Serves c.patience ∧
    (∀ (raw : Raw) (rest : List UInt8), chip.waiting = raw.bytes ++ rest →
      performed.result = .ok (.packet raw.packet)) ∧
    (chip.waiting.length < 3 →
      performed.result = .error (.controller (.stalled (c.patience.stall .byte)))) := by
  intro performed
  have hperformed : performed = (Answer.packet <$> Mouse.readPacket).perform c.patience chip :=
    congrArg Prod.fst (Controller.carryOut_of_free hfree _ chip)
  rw [hperformed]
  obtain ⟨hmoves, hwaiting, hserves, hfull, hshort⟩ := collects_readPacket.perform_of_serves h
  refine ⟨hmoves, hwaiting, hserves, fun raw rest hbytes => ?_, hshort⟩
  rw [hbytes] at hfull
  exact hfull (Nat.le_add_left 3 rest.length) raw rfl

/-- Asking for a packet is a question that has to be acknowledged, and then, from the chip as that
leaves it, what reading a packet is. -/
theorem perform_requestPacket {σ : Type} [Chip σ] {c : Controller} (hfree : c.leased = false)
    (chip : σ) :
    let asked := (Exchange.cycle Controller.sendToMouse acknowledged [0xEB]).perform c.patience chip
    let performed := requestPacket.perform c chip
    (∀ e, asked.result = .error e → performed.1 = asked.map fun _ => .error e) ∧
    (asked.result = .ok () →
      performed.1 = asked.andThen fun _ chip => (readPacket.perform c chip).1) ∧
    performed.2 = c := by
  intro asked performed
  have hread (chip : σ) : (readPacket.perform c chip).1 =
      (Answer.packet <$> Mouse.readPacket).perform c.patience chip :=
    congrArg Prod.fst (Controller.carryOut_of_free hfree _ chip)
  have hplan : Answer.packet <$> Mouse.requestPacket =
      Exchange.cycle Controller.sendToMouse acknowledged [0xEB] >>= fun _ =>
        Answer.packet <$> Mouse.readPacket := by
    rw [Mouse.requestPacket, command_eq, map_bind]
    rfl
  have hperformed : performed.1 = (Exchange.cycle Controller.sendToMouse acknowledged [0xEB] >>=
      fun _ => Answer.packet <$> Mouse.readPacket).perform c.patience chip :=
    hplan ▸ congrArg Prod.fst (Controller.carryOut_of_free hfree _ chip)
  rw [Exchange.perform_bind] at hperformed
  refine ⟨fun e he => ?_, fun hok => ?_, c.carryOut_snd _ chip⟩
  · rw [hperformed]
    show asked.andThen _ = _
    simp [Run.andThen, he, Run.pure, Run.map]
  · rw [hperformed]
    show asked.andThen _ = _
    simp only [Run.andThen, hok, hread]

end Request

end Mouse

/-! ## Packets one after the other -/

namespace Session

open Mouse (Packet)

def readPacket : Step := .operation (.mouse .readPacket)

variable {s : Session ScriptedChip} (hfree : s.controller.leased = false)
  (hserves : s.chip.Serves s.controller.patience)

include hfree hserves

theorem step_readPacket :
    let stepped := s.step readPacket
    stepped.1.controller = s.controller ∧
    stepped.1.chip.Serves s.controller.patience ∧
    stepped.1.chip.waiting = s.chip.waiting.drop 3 ∧
    stepped.2.trace.moves = (s.chip.waiting.take 3).map .read ∧
    (∀ (raw : Packet.Raw) (rest : List UInt8), s.chip.waiting = raw.bytes ++ rest →
      stepped.2.outcome = .operation (.mouse (.ok (.packet raw.packet)))) ∧
    (s.chip.waiting.length < 3 → stepped.2.outcome = .operation (.mouse (.error (.controller
      (.stalled (s.controller.patience.stall .byte)))))) := by
  obtain ⟨hmoves, hwaiting, hlater, hfull, hshort⟩ :=
    Mouse.Request.perform_readPacket hfree hserves
  refine ⟨s.controller.carryOut_snd _ s.chip, hlater, hwaiting, hmoves, ?_, ?_⟩
  · intro raw rest hbytes
    exact congrArg (fun result => Outcome.operation (.mouse result)) (hfull raw rest hbytes)
  · intro hlength
    exact congrArg (fun result => Outcome.operation (.mouse result)) (hshort hlength)

/-- As many packets are read as are queued in full, each as it was queued. -/
theorem run_readPacket {raws : List Packet.Raw} {rest : List UInt8}
    (hwaiting : s.chip.waiting = raws.flatMap Packet.Raw.bytes ++ rest) :
    let run := s.run (List.replicate raws.length readPacket)
    run.1.controller = s.controller ∧
    run.1.chip.Serves s.controller.patience ∧
    run.1.chip.waiting = rest ∧
    run.2.map Record.outcome =
      raws.map (fun raw => .operation (.mouse (.ok (.packet raw.packet)))) ∧
    run.2.map (fun record => record.trace.moves) = raws.map fun raw => raw.bytes.map .read := by
  induction raws generalizing s with
  | nil => exact ⟨rfl, hserves, hwaiting, rfl, rfl⟩
  | cons raw raws ih =>
    rw [List.flatMap_cons, List.append_assoc] at hwaiting
    obtain ⟨hcontroller, hlater, hleft, hmoves, hfull, -⟩ := step_readPacket hfree hserves
    rw [hwaiting] at hleft hmoves
    obtain ⟨hends, hserved, hover, houtcomes, hreads⟩ :=
      ih (hcontroller ▸ hfree) (hcontroller ▸ hlater) hleft
    rw [hcontroller] at hends hserved
    refine ⟨hends, hserved, hover, ?_, ?_⟩
    · exact List.cons_eq_cons.2 ⟨hfull raw _ hwaiting, houtcomes⟩
    · exact List.cons_eq_cons.2 ⟨hmoves, hreads⟩

omit hfree hserves

/-- Bytes that are ready are read as the movements that they report, three at a time and in their
order, without a write. What is left are fewer than three bytes, and one more step takes these and
fails. A movement that is asked for is, from the chip as the acknowledged question leaves it, a
movement that is read. All the bits of a report that have a name can be had back from the packet. -/
theorem run_movements (hfree : s.controller.leased = false)
    (hlooks : s.controller.patience.blocking = true → 1 ≤ s.controller.patience.limit.toNat)
    (hextra : s.chip.extra.toNat.testBit 0 = false) (raws : List Packet.Raw) (rest : List UInt8)
    (hqueue : s.chip.queue = (raws.flatMap Packet.Raw.bytes ++ rest).map fun byte => ⟨0, byte⟩)
    (hrest : rest.length < 3) :
    let run := s.run (List.replicate raws.length readPacket)
    let last := run.1.step readPacket
    run.2.map Record.outcome =
      raws.map (fun raw => .operation (.mouse (.ok (.packet raw.packet)))) ∧
    run.2.map (fun record => record.trace.moves) = raws.map (fun raw => raw.bytes.map .read) ∧
    last.2.outcome = .operation (.mouse (.error (.controller (.stalled
      (if s.controller.patience.blocking then .timeout else .wouldBlock))))) ∧
    last.2.trace.moves = rest.map .read ∧
    last.1.chip.queue = [] ∧
    (∀ {σ : Type} [Chip σ] {c : Controller} (chip : σ), c.leased = false →
      let asked := (Exchange.cycle Controller.sendToMouse Mouse.acknowledged [0xEB]).perform
        c.patience chip
      let performed := Mouse.Request.requestPacket.perform c chip
      (∃ ending, Dialogue (fun byte => [.write .command 0xD4, .write .data byte]) [0xEB]
        asked.trace.moves ending ∧ asked.result = ending.result Mouse.refusal) ∧
      (∀ e, asked.result = .error e → performed.1 = asked.map fun _ => .error e) ∧
      (asked.result = .ok () →
        performed.1 = asked.andThen fun _ chip => (Mouse.Request.readPacket.perform c chip).1) ∧
      performed.2 = c) ∧
    ∀ raw : Packet.Raw,
      raw.packet.flags.bits = raw.flags &&& 0xF7 ∧
      raw.packet.x =
        (if raw.flags.toNat.testBit 4 then (raw.x.toNat : Int) - 256 else raw.x.toNat) ∧
      raw.packet.y =
        (if raw.flags.toNat.testBit 5 then (raw.y.toNat : Int) - 256 else raw.y.toNat) ∧
      raw.packet.raw = { raw with flags := raw.flags &&& 0xF7 } ∧
      (-256 ≤ raw.packet.x ∧ raw.packet.x ≤ 255) ∧
      (-256 ≤ raw.packet.y ∧ raw.packet.y ≤ 255) := by
  intro run last
  have hserves : s.chip.Serves s.controller.patience := by
    refine ScriptedChip.serves_of_ready (fun entry hentry => ?_) hextra hlooks
    rw [hqueue] at hentry
    obtain ⟨byte, -, rfl⟩ := List.mem_map.1 hentry
    rfl
  have hwaiting : s.chip.waiting = raws.flatMap Packet.Raw.bytes ++ rest := by
    rw [ScriptedChip.waiting, hqueue, List.map_map]
    exact List.map_id _
  obtain ⟨hcontroller, hlater, hleft, houtcomes, hreads⟩ := run_readPacket hfree hserves hwaiting
  obtain ⟨-, -, hempty, hmoves, -, hshort⟩ :=
    step_readPacket (hcontroller ▸ hfree) (hcontroller ▸ hlater)
  rw [hleft] at hempty hmoves hshort
  have hall : rest.length ≤ 3 := Nat.le_of_lt hrest
  refine ⟨houtcomes, hreads, ?_, ?_, ?_, ?_, fun raw => ?_⟩
  · rw [hcontroller] at hshort
    exact hshort hrest
  · rwa [List.take_of_length_le hall] at hmoves
  · rw [List.drop_of_length_le hall] at hempty
    exact List.map_eq_nil_iff.1 hempty
  · intro σ _ c chip hfree
    exact ⟨Mouse.dialogue_cycle c.patience [0xEB] chip,
      Mouse.Request.perform_requestPacket hfree chip⟩
  · obtain ⟨hx, hy⟩ := Packet.contains_sign raw.flags
    rw [← hx, ← hy]
    exact ⟨rfl, rfl, rfl, Packet.raw_packet raw, Mouse.signed_bounds .., Mouse.signed_bounds ..⟩

/-- Two movements and the first byte of a third: one to the left and up, one to the right and down.
The bytes of the first look like replies. -/
theorem run_movements_two :
    let s : Session ScriptedChip :=
      { controller := { patience := { limit := 1 } }
        chip := { queue := [0x18, 0xFE, 0xFA, 0x28, 0x01, 0x80, 0x08].map fun byte => ⟨0, byte⟩ } }
    let run := s.run (List.replicate 2 readPacket)
    let last := run.1.step readPacket
    s.controller.leased = false ∧
    s.controller.patience.limit.toNat = 1 ∧
    s.chip.extra.toNat.testBit 0 = false ∧
    run.2.map Record.outcome =
      [.operation (.mouse (.ok (.packet (.ofBytes 0x18 0xFE 0xFA)))),
        .operation (.mouse (.ok (.packet (.ofBytes 0x28 0x01 0x80))))] ∧
    last.2.outcome = .operation (.mouse (.error (.controller (.stalled .timeout)))) ∧
    last.2.trace.moves = [.read 0x08] ∧
    ((Packet.ofBytes 0x18 0xFE 0xFA).x, (Packet.ofBytes 0x18 0xFE 0xFA).y) = (-2, 250) ∧
    ((Packet.ofBytes 0x28 0x01 0x80).x, (Packet.ofBytes 0x28 0x01 0x80).y) = (1, -128) := by
  intro s run last
  have hextra : s.chip.extra.toNat.testBit 0 = false := by decide
  obtain ⟨houtcomes, -, hlast, hmoves, -⟩ := run_movements (s := s) rfl (fun _ => by decide) hextra
    [⟨0x18, 0xFE, 0xFA⟩, ⟨0x28, 0x01, 0x80⟩] [0x08] rfl (by decide)
  exact ⟨rfl, by decide, hextra, houtcomes, hlast, hmoves, by decide, by decide⟩

end Session

end Ps2Host
