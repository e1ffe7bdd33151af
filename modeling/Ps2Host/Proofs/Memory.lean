import Ps2Host.Proofs.Pending
import Ps2Host.Proofs.Prompt

/-!
# Internal memory and the output queue

A scripted chip without rules, which is never busy and whose bytes are ready at once, is an array of
thirty-two cells with a first-in first-out queue in front of the host. Every read of memory goes
through the queue, so what it gives is the head of the queue and not always the cell.

## Main definitions

* `Memory` — the cells and the queue, and `Memory.Request`, what is asked of them.
* `Memory.perform`, `Memory.run` — what comes of one request, and of several.
* `Memory.lastWritten` — the byte last written to a cell.
* `ScriptedChip.Plain` — such a chip, and `ScriptedChip.withMemory`, the same chip with another
  memory.

## Main results

* `Memory.cells_run` — a cell holds what was last written to it.
* `Memory.Request.ends_perform` — on such a chip a request does what it does to the memory.
* `Session.run_memory` — so do several, one after the other.
-/
namespace Ps2Host

open Controller (Answer)

/-! ## The array and the queue -/

/-- Thirty-two cells, and the bytes that wait to be read, head first. -/
structure Memory where
  cells : Vector UInt8 32
  queue : List UInt8

namespace Memory

/-- The cell of an address: addresses start again after thirty-two. -/
def cell (address : UInt8) : Fin 32 := ⟨address.toNat % 32, Nat.mod_lt _ (by decide)⟩

def configCell : Fin 32 := cell 0

inductive Request
  | read (address : UInt8)
  | write (address byte : UInt8)
  | readConfig
  | writeConfig (config : Register .config)
  | fillKeyboardBuffer (byte : UInt8)
  | fillMouseBuffer (byte : UInt8)
  | receive
  deriving DecidableEq

def push (m : Memory) (byte : UInt8) : Memory := { m with queue := m.queue ++ [byte] }

def store (m : Memory) : Fin 32 → UInt8 → Memory
  | ⟨cell, hcell⟩, byte => { m with cells := m.cells.set cell byte hcell }

/-- Takes the head of the queue; if there is none, nothing changes and the host waits in vain. -/
def pop (m : Memory) : Except Controller.Error UInt8 × Memory :=
  match m.queue with
  | [] => (.error (.stalled .timeout), m)
  | head :: rest => (.ok head, { m with queue := rest })

/-- Queues the byte of a cell, and takes the head of the queue. -/
def fetch (m : Memory) (cell : Fin 32) : Except Controller.Error UInt8 × Memory :=
  (m.push (m.cells.get cell)).pop

def perform (m : Memory) : Request → Except Controller.Error Answer × Memory
  | .read address => ((m.fetch (cell address)).1.map .byte, (m.fetch (cell address)).2)
  | .write address byte => (.ok .done, m.store (cell address) byte)
  | .readConfig =>
    ((m.fetch configCell).1.map fun byte => .config (.ofBits byte), (m.fetch configCell).2)
  | .writeConfig config => (.ok .done, m.store configCell config.bits)
  | .fillKeyboardBuffer byte => (.ok .done, m.push byte)
  | .fillMouseBuffer byte => (.ok .done, m.push byte)
  | .receive => (m.pop.1.map .byte, m.pop.2)

def run (m : Memory) : List Request → List (Except Controller.Error Answer) × Memory
  | [] => ([], m)
  | first :: rest =>
    let performed := m.perform first
    let others := performed.2.run rest
    (performed.1 :: others.1, others.2)

def Request.written? (target : Fin 32) : Request → Option UInt8
  | write address byte => if cell address = target then some byte else none
  | writeConfig config => if configCell = target then some config.bits else none
  | _ => none

/-- The byte last written to a cell, or what was in it before. -/
def lastWritten (m : Memory) (requests : List Request) (target : Fin 32) : UInt8 :=
  ((requests.filterMap (Request.written? target)).getLast?).getD (m.cells.get target)

theorem cells_pop (m : Memory) : m.pop.2.cells = m.cells := by
  unfold pop
  split <;> rfl

theorem cells_fetch (m : Memory) (cell : Fin 32) : (m.fetch cell).2.cells = m.cells :=
  cells_pop (m.push (m.cells.get cell))

theorem cells_store (m : Memory) (cell target : Fin 32) (byte : UInt8) :
    (m.store cell byte).cells.get target = if cell = target then byte else m.cells.get target := by
  show (m.cells.set cell byte cell.isLt)[target] =
    if cell = target then byte else m.cells[target]
  simp [Vector.getElem_set, Fin.ext_iff]

/-- A request changes the one cell that it writes, if it writes any. -/
theorem cells_perform (m : Memory) (request : Request) (target : Fin 32) :
    (m.perform request).2.cells.get target =
      (request.written? target).getD (m.cells.get target) := by
  cases request with
  | read address => simp only [perform, cells_fetch, Request.written?, Option.getD_none]
  | readConfig => simp only [perform, cells_fetch, Request.written?, Option.getD_none]
  | receive => simp only [perform, cells_pop, Request.written?, Option.getD_none]
  | fillKeyboardBuffer | fillMouseBuffer => rfl
  | write address byte =>
    rw [perform, cells_store, Request.written?]
    split <;> rfl
  | writeConfig config =>
    rw [perform, cells_store, Request.written?]
    split <;> rfl

/-- A cell holds what was last written to it. -/
theorem cells_run (m : Memory) (requests : List Request) (target : Fin 32) :
    (m.run requests).2.cells.get target = m.lastWritten requests target := by
  induction requests generalizing m with
  | nil => rfl
  | cons first rest ih =>
    rw [run, ih, lastWritten, lastWritten, cells_perform]
    cases hwritten : first.written? target with
    | none => rw [List.filterMap_cons_none hwritten, Option.getD_none]
    | some byte =>
      rw [List.filterMap_cons_some hwritten, List.getLast?_cons, Option.getD_some,
        Option.getD_some]

/-- With an empty queue, what is fetched is the byte of the cell. -/
theorem fetch_of_nil {m : Memory} (h : m.queue = []) (cell : Fin 32) :
    m.fetch cell = (.ok (m.cells.get cell), m) := by
  obtain ⟨cells, queue⟩ := m
  cases h
  rfl

def Request.operation : Request → Controller.Request
  | read address => .readRam address
  | write address byte => .writeRam address byte
  | readConfig => .readConfig
  | writeConfig config => .writeConfig config
  | fillKeyboardBuffer byte => .fillKeyboardBuffer byte
  | fillMouseBuffer byte => .fillMouseBuffer byte
  | receive => .receive

end Memory

def Run.ends {σ α : Type} (r : Run σ α) : α × σ := (r.result, r.chip)

/-! ## Plain chips -/

namespace ScriptedChip

/-- The chip has no rules and is never busy, its bytes are ready at once, and no status bit that the
host waits for is stuck. -/
structure Plain (chip : ScriptedChip) : Prop where
  queue : ∀ entry ∈ chip.queue, entry.delay = 0
  rules : chip.rules = []
  busy : chip.busy = .free
  busyAfter : chip.busyAfter = .free
  stickAfter : chip.stickAfter = 0
  extra : chip.extra &&& 0x03 = 0

def memory (chip : ScriptedChip) : Memory := ⟨chip.ram, chip.queue.map Entry.byte⟩

/-- The chip with another memory, and with bytes in its output queue that are ready at once. -/
def withMemory (chip : ScriptedChip) (m : Memory) : ScriptedChip :=
  { chip with ram := m.cells, queue := m.queue.map fun byte => ⟨0, byte⟩ }

/-- The chip with what a command settles about the next data byte. -/
def settle (chip : ScriptedChip) (code : UInt8) : ScriptedChip :=
  { chip with pending := chip.pending.settle code }

variable {chip : ScriptedChip} {m : Memory}

namespace Plain

theorem withMemory (h : chip.Plain) (m : Memory) : (chip.withMemory m).Plain :=
  { h with queue := by simp [ScriptedChip.withMemory] }

theorem settle (h : chip.Plain) (code : UInt8) : (chip.settle code).Plain := { h with }

theorem withMemory_memory (h : chip.Plain) : chip.withMemory chip.memory = chip := by
  have hready (entry : Entry) (hentry : entry ∈ chip.queue) :
      (⟨0, entry.byte⟩ : Entry) = entry := by
    rw [← h.queue entry hentry]
  have hqueue : (chip.queue.map Entry.byte).map (fun byte => (⟨0, byte⟩ : Entry)) = chip.queue := by
    rw [List.map_map]
    exact (List.map_congr_left hready).trans (List.map_id _)
  simp only [ScriptedChip.withMemory, memory, hqueue]

/-- Such a chip keeps up with every host that waits at all. -/
theorem prompt (h : chip.Plain) {limit : Nat} (hlimit : 0 < limit) : chip.Prompt limit where
  queue entry hentry := by rw [h.queue entry hentry]; exact hlimit
  rules trigger entries hlookup := by rw [h.rules] at hlookup; cases hlookup
  busy := ⟨0, hlimit, h.busy⟩
  busyAfter := ⟨0, hlimit, h.busyAfter⟩
  stickAfter := h.stickAfter
  extra := h.extra

/-- Nothing on it changes while the host looks at the status. -/
theorem showStatus (h : chip.Plain) : chip.showStatus.2 = chip := by
  have hqueue : ageQueue chip.queue = chip.queue := by
    cases hold : chip.queue with
    | nil => rfl
    | cons head rest =>
      obtain ⟨delay, byte⟩ := head
      obtain rfl : delay = 0 := h.queue ⟨delay, byte⟩ (by simp [hold])
      rfl
  have hbusy : chip.busy.next = chip.busy := by
    rw [h.busy]
    rfl
  simp only [ScriptedChip.showStatus, hqueue, hbusy]

theorem chip_poll (h : chip.Plain) (ready : Register .status → Bool) (limit : Nat) :
    (poll ready limit chip).chip = chip := by
  refine poll_invariant (P := (· = chip)) ?_ rfl limit
  rintro _ rfl
  exact h.showStatus

/-- It does not react to what is written, beyond what a command or a data byte does by itself. -/
theorem react (h : chip.Plain) (channel : Channel) (byte : UInt8) :
    chip.react channel byte = chip := by
  have hanswer : chip.answer channel byte = [] := by simp [answer, h.rules]
  rw [ScriptedChip.react, hanswer, if_pos h.busyAfter, h.stickAfter, jam, enqueue, List.append_nil,
    ← h.stickAfter]

end Plain

/-! ## What is written to a plain chip -/

theorem takeCommand_of_ne {code : UInt8} (h : code &&& 0xE0 ≠ 0x20) (chip : ScriptedChip) :
    chip.takeCommand code = chip.settle code := by
  rw [takeCommand, if_neg h, settle, Pending.settle]
  repeat' split
  all_goals rfl

/-- The codes that read memory and those that write it name the cell of the address. -/
theorem code_ram (address : UInt8) :
    (Controller.Command.readRam address).code &&& 0xE0 = 0x20 ∧
    (Controller.Command.writeRam address).code &&& 0xE0 = 0x60 ∧
    ScriptedChip.address (Controller.Command.readRam address).code = Memory.cell address ∧
    ScriptedChip.address (Controller.Command.writeRam address).code = Memory.cell address := by
  obtain ⟨bits⟩ := address
  revert bits
  decide +kernel

section Writes

variable (h : chip.Plain) (hclear : chip.pending = {}) (m : Memory)

include h

theorem write_readRam (address : UInt8) :
    (chip.withMemory m).write .command (Controller.Command.readRam address).code =
      chip.withMemory (m.push (m.cells.get (Memory.cell address))) := by
  obtain ⟨hread, -, hcell, -⟩ := code_ram address
  have htaken : (chip.withMemory m).takeCommand (Controller.Command.readRam address).code =
      chip.withMemory (m.push (m.cells.get (Memory.cell address))) := by
    simp only [takeCommand, if_pos hread, hcell, enqueue, withMemory, Memory.push, List.map_append]
    rfl
  rw [write, htaken, (h.withMemory _).react]

theorem write_command_of_ne {code : UInt8} (hcode : code &&& 0xE0 ≠ 0x20) :
    (chip.withMemory m).write .command code = (chip.settle code).withMemory m := by
  have htaken : (chip.withMemory m).takeCommand code = (chip.settle code).withMemory m :=
    takeCommand_of_ne hcode _
  rw [write, htaken, ((h.settle code).withMemory m).react]

include hclear

theorem write_data_of_writeRam (address byte : UInt8) :
    ((chip.settle (Controller.Command.writeRam address).code).withMemory m).write .data byte =
      chip.withMemory (m.store (Memory.cell address) byte) := by
  obtain ⟨-, hwrite, -, hcell⟩ := code_ram address
  have hsettled : chip.settle (Controller.Command.writeRam address).code =
      { chip with pending := { address? := some (Memory.cell address) } } := by
    simp [settle, hclear, Pending.settle, hwrite, hcell]
  have htaken : ({ chip with pending := { address? := some (Memory.cell address) } }.withMemory
      m).takeData byte = chip.withMemory (m.store (Memory.cell address) byte) := by
    simp [takeData, withMemory, Memory.store, ScriptedChip.store, hclear]
  rw [hsettled, write, htaken, (h.withMemory _).react]

theorem write_data_of_fill {code : UInt8} (hcode : code = 0xD2 ∨ code = 0xD3) (byte : UInt8) :
    ((chip.settle code).withMemory m).write .data byte = chip.withMemory (m.push byte) := by
  have hsettled : chip.settle code = { chip with pending := { loop := true } } := by
    obtain rfl | rfl := hcode <;> rw [settle, hclear] <;> rfl
  have htaken : ({ chip with pending := { loop := true } }.withMemory m).takeData byte =
      chip.withMemory (m.push byte) := by
    simp [takeData, withMemory, Memory.push, enqueue, hclear]
  rw [hsettled, write, htaken, (h.withMemory _).react]

end Writes

/-! ## Exchanges on a plain chip -/

section Exchanges

variable {patience : Patience} (hlimit : 0 < patience.limit.toNat)

include hlimit

theorem Plain.awaitRoom (h : chip.Plain) :
    (patience.awaitRoom chip).result = .ok () ∧ (patience.awaitRoom chip).chip = chip := by
  have hresult := (h.prompt hlimit).poll_hasRoom
  have hchip := h.chip_poll hasRoom patience.limit.toNat
  simp [Patience.awaitRoom, Patience.pollFor, Run.andThen, Run.pure, hresult, hchip]

theorem Plain.awaitByte (h : chip.Plain) (hblocking : patience.blocking = true) :
    (patience.awaitByte chip).result = (if chip.queue.isEmpty then .error .timeout else .ok ()) ∧
      (patience.awaitByte chip).chip = chip := by
  have hresult := (h.prompt hlimit).poll_hasByte
  have hchip := h.chip_poll hasByte patience.limit.toNat
  cases hempty : chip.queue.isEmpty <;>
    simp [Patience.awaitByte, Patience.pollFor, Run.andThen, Run.pure, Run.note, hblocking, hresult,
      hchip, hempty]

variable {ε α : Type}

/-- There is always room on a plain chip. -/
theorem Plain.ends_send [Controller.Fault ε] (h : chip.Plain) (port : Port) (byte : UInt8)
    (next : Exchange ε α) :
    ((Exchange.send port byte next).perform patience chip).ends =
      (next.perform patience (chip.write port byte)).ends := by
  obtain ⟨hresult, hchip⟩ := h.awaitRoom hlimit
  simp only [Exchange.perform, Run.andThen, hresult, hchip]
  rfl

/-- On a plain chip a byte is received if and only if one is queued. -/
theorem Plain.ends_receive (h : chip.Plain) (hblocking : patience.blocking = true) (m : Memory)
    (answer : UInt8 → α) :
    ((Exchange.receive fun byte => .done (answer byte)).perform patience (chip.withMemory m)).ends =
      ((m.pop.1.map answer : Except Controller.Error α), chip.withMemory m.pop.2) := by
  obtain ⟨hresult, hchip⟩ := (h.withMemory m).awaitByte hlimit hblocking
  obtain ⟨cells, queue⟩ := m
  cases queue with
  | nil =>
    replace hresult :
        (patience.awaitByte (chip.withMemory ⟨cells, []⟩)).result = .error .timeout := hresult
    simp only [Exchange.perform, Run.andThen, hresult, hchip]
    rfl
  | cons head rest =>
    replace hresult :
        (patience.awaitByte (chip.withMemory ⟨cells, head :: rest⟩)).result = .ok () := hresult
    simp only [Exchange.perform, Run.andThen, hresult, hchip]
    rfl

/-- A command that does not read memory and its parameter leave the chip as the parameter does. -/
theorem Plain.ends_order (h : chip.Plain) (m : Memory) {code byte : UInt8}
    (hcode : code &&& 0xE0 ≠ 0x20) {after : ScriptedChip}
    (hafter : ((chip.settle code).withMemory m).write .data byte = after) (a : α) :
    ((Exchange.send .command code (.send .data byte (.done a))).perform patience
        (chip.withMemory m)).ends = ((.ok a : Except Controller.Error α), after) := by
  rw [(h.withMemory m).ends_send hlimit, write_command_of_ne h m hcode,
    ((h.settle code).withMemory m).ends_send hlimit, hafter]
  rfl

end Exchanges

end ScriptedChip

/-! ## Requests -/

section Requests

variable {chip : ScriptedChip} (h : chip.Plain) (hclear : chip.pending = {})

include h hclear

open ScriptedChip in
/-- On a plain chip that awaits no data byte, a request does to the chip what it does to the
memory. -/
theorem Memory.Request.ends_perform {patience : Patience} (hblocking : patience.blocking = true)
    (hlimit : 0 < patience.limit.toNat) (m : Memory) (request : Memory.Request) :
    (request.operation.exchange.perform patience (chip.withMemory m)).ends =
      ((m.perform request).1, chip.withMemory (m.perform request).2) := by
  have hread (address : UInt8) (answer : UInt8 → Answer) :
      ((Exchange.send .command (Controller.Command.readRam address).code
        (.receive fun byte => .done (answer byte))).perform patience (chip.withMemory m)).ends =
      ((m.fetch (cell address)).1.map answer, chip.withMemory (m.fetch (cell address)).2) := by
    rw [(h.withMemory m).ends_send hlimit, write_readRam h]
    exact h.ends_receive hlimit hblocking _ answer
  have hwrite (address byte : UInt8) :
      ((Exchange.send .command (Controller.Command.writeRam address).code
        (.send .data byte (.done .done))).perform patience (chip.withMemory m)).ends =
      ((.ok .done : Except Controller.Error Answer),
        chip.withMemory (m.store (cell address) byte)) := by
    refine h.ends_order hlimit m ?_ (write_data_of_writeRam h hclear m address byte) Answer.done
    rw [(code_ram address).2.1]
    decide
  have hfill (code byte : UInt8) (hcode : code = 0xD2 ∨ code = 0xD3) :
      ((Exchange.send .command code (.send .data byte (.done .done))).perform patience
        (chip.withMemory m)).ends =
      ((.ok .done : Except Controller.Error Answer), chip.withMemory (m.push byte)) := by
    refine h.ends_order hlimit m ?_ (write_data_of_fill h hclear m hcode byte) Answer.done
    obtain rfl | rfl := hcode <;> decide
  cases request with
  | read address => exact hread address Answer.byte
  | write address byte => exact hwrite address byte
  | readConfig => exact hread 0 fun byte => Answer.config (.ofBits byte)
  | writeConfig config => exact hwrite 0 config.bits
  | fillKeyboardBuffer byte => exact hfill 0xD2 byte (.inl rfl)
  | fillMouseBuffer byte => exact hfill 0xD3 byte (.inr rfl)
  | receive => exact h.ends_receive hlimit hblocking m Answer.byte

end Requests

namespace Session

def requestStep (request : Memory.Request) : Step := .operation (.controller request.operation)

def requestOutcome (answer : Except Controller.Error Answer) : Outcome :=
  .operation (.controller answer)

def withMemory (s : Session ScriptedChip) (m : Memory) : Session ScriptedChip :=
  { s with chip := s.chip.withMemory m }

section Requests

variable {s : Session ScriptedChip} (hplain : s.chip.Plain) (hclear : s.chip.pending = {})
  (hblocking : s.controller.patience.blocking = true)
  (hlimit : 0 < s.controller.patience.limit.toNat)

include hplain hclear hblocking hlimit

theorem step_request (m : Memory) (request : Memory.Request) :
    ((s.withMemory m).step (requestStep request)).1 = s.withMemory (m.perform request).2 ∧
      ((s.withMemory m).step (requestStep request)).2.outcome =
        requestOutcome (m.perform request).1 := by
  have hends := Memory.Request.ends_perform hplain hclear hblocking hlimit m request
  obtain ⟨hresult, hchip⟩ := Prod.mk.inj hends
  exact ⟨congrArg (fun chip => { s with chip }) hchip, congrArg requestOutcome hresult⟩

theorem run_requests (m : Memory) (requests : List Memory.Request) :
    ((s.withMemory m).run (requests.map requestStep)).1 = s.withMemory (m.run requests).2 ∧
      ((s.withMemory m).run (requests.map requestStep)).2.map Record.outcome =
        (m.run requests).1.map requestOutcome := by
  induction requests generalizing m with
  | nil => exact ⟨rfl, rfl⟩
  | cons first rest ih =>
    obtain ⟨hfirst, houtcome⟩ := step_request hplain hclear hblocking hlimit m first
    obtain ⟨hrest, houtcomes⟩ := ih (m.perform first).2
    rw [List.map_cons, run, hfirst, Memory.run]
    refine ⟨hrest, ?_⟩
    rw [List.map_cons, List.map_cons, houtcome, houtcomes]

end Requests

/-- On a plain chip that awaits no data byte, a host that blocks uses the internal memory and the
output buffer as an array of thirty-two cells and a queue. In particular, while the queue is empty a
read of memory gives the byte last written to the cell, under whatever address. A configuration that
is read has the bits outside `0x77` cleared. -/
theorem run_memory {s : Session ScriptedChip} (hplain : s.chip.Plain)
    (hclear : s.chip.pending = {}) (hblocking : s.controller.patience.blocking = true)
    (hlimit : 1 ≤ s.controller.patience.limit) (requests : List Memory.Request) :
    let modelled := s.chip.memory.run requests
    let ran := s.run (requests.map requestStep)
    ran.1 = s.withMemory modelled.2 ∧
    ran.2.map Record.outcome = modelled.1.map requestOutcome ∧
    (∀ address, modelled.2.queue = [] →
      (ran.1.step (requestStep (.read address))).2.outcome =
        requestOutcome (.ok (.byte (s.chip.memory.lastWritten requests (Memory.cell address))))) ∧
    ∀ byte, (Register.ofBits byte : Register .config).bits = byte &&& 0x77 := by
  intro modelled ran
  have hpositive : 0 < s.controller.patience.limit.toNat := UInt32.le_iff_toNat_le.1 hlimit
  have hsame : s.withMemory s.chip.memory = s := by
    rw [withMemory, hplain.withMemory_memory]
  obtain ⟨hran, houtcomes⟩ :=
    run_requests hplain hclear hblocking hpositive s.chip.memory requests
  rw [hsame] at hran houtcomes
  refine ⟨hran, houtcomes, fun address hempty => ?_, fun _ => rfl⟩
  obtain ⟨-, houtcome⟩ :=
    step_request hplain hclear hblocking hpositive modelled.2 (.read address)
  rw [show ran.1 = s.withMemory modelled.2 from hran, houtcome, Memory.perform,
    Memory.fetch_of_nil hempty]
  exact congrArg (fun byte => requestOutcome (.ok (.byte byte))) (Memory.cells_run ..)

/-- A byte that waits in the buffer comes before the byte of the cell, which then waits itself. -/
theorem run_memory_stale :
    let s : Session ScriptedChip := { chip := {} }
    let requests : List Memory.Request :=
      [.write 0x25 0x99, .fillMouseBuffer 0x11, .read 0x05, .readConfig, .receive]
    let ran := s.run (requests.map requestStep)
    s.chip.Plain ∧ s.chip.pending = {} ∧ s.controller.patience.blocking = true ∧
    1 ≤ s.controller.patience.limit ∧
    ran.2.map Record.outcome =
      [.ok .done, .ok .done, .ok (.byte 0x11), .ok (.config (.ofBits 0x99)),
        .ok (.byte 0x00)].map requestOutcome ∧
    (ran.1.step (requestStep (.read 0xE5))).2.outcome = requestOutcome (.ok (.byte 0x99)) := by
  intro s requests ran
  have hplain : s.chip.Plain := ⟨nofun, rfl, rfl, rfl, rfl, by decide⟩
  obtain ⟨-, houtcomes, hread, -⟩ := run_memory hplain rfl rfl (by decide) requests
  exact ⟨hplain, rfl, rfl, by decide, houtcomes, hread 0xE5 (by decide +kernel)⟩

end Session

end Ps2Host
