import Ps2Host.Chip.PortSpace

/-!
# A scripted chip

A chip that acts out a script. Bytes wait in its output queue, each with a delay in status reads;
its input buffer is busy for a number of status reads after each write; it keeps thirty-two bytes of
internal memory; and rules say what it queues in answer to what is written.

## Main definitions

* `ScriptedChip` — the state of such a chip.
* `ScriptedChip.showStatus`, `ScriptedChip.giveByte`, `ScriptedChip.write` — the accesses, which
  make it a `Chip`.
* `ScriptedChip.Update` — a change of the script, and `ScriptedChip.update`, which makes it.
-/
namespace Ps2Host

namespace ScriptedChip

structure Entry where
  /-- The status reads, with the byte at the head, that do not show it yet. -/
  delay : Nat
  byte : UInt8
  deriving DecidableEq, Repr

/-- For how long the input buffer is full. -/
inductive Busy
  /-- For a number of status reads. -/
  | polls (count : Nat)
  | stuck
  deriving DecidableEq, Repr

def Busy.free : Busy := .polls 0

def Busy.next : Busy → Busy
  | .polls count => .polls (count - 1)
  | .stuck => .stuck

inductive Channel
  | controller
  | keyboard
  | mouse
  deriving DecidableEq, Repr

structure Trigger where
  channel : Channel
  /-- The byte, or any byte that no other rule of the channel names. -/
  byte? : Option UInt8
  deriving DecidableEq, Repr

/-- What commands have settled about the next data byte. -/
structure Pending where
  /-- It is stored at this address. -/
  address? : Option (Fin 32) := none
  /-- It comes back through the output queue. -/
  loop : Bool := false
  mouse : Bool := false
  deriving DecidableEq, Repr

/-- The address in internal memory that a byte names, by its low five bits. -/
def address (byte : UInt8) : Fin 32 := Fin.ofNat 32 byte.toNat

end ScriptedChip

open ScriptedChip in
structure ScriptedChip where
  /-- The output queue, head first. -/
  queue : List Entry := []
  /-- For how long the input buffer is full from now. -/
  busy : Busy := .free
  /-- For how long a write fills the input buffer, if for any time. -/
  busyAfter : Busy := .free
  /-- The write, counted from the next, that jams the input buffer; zero if none does. -/
  stickAfter : Nat := 0
  /-- Status bits that are always set. -/
  extra : UInt8 := 0
  /-- What a read of the empty queue gives. -/
  idle : UInt8 := 0
  ram : Vector UInt8 32 := Vector.replicate 32 0
  /-- What is queued in answer to what. -/
  rules : List (Trigger × List Entry) := []
  pending : Pending := {}
  deriving DecidableEq

namespace ScriptedChip

def outputBit : List Entry → UInt8
  | ⟨0, _⟩ :: _ => 0x01
  | _ => 0x00

/-- What one status read leaves of the queue: the head comes closer. -/
def ageQueue : List Entry → List Entry
  | ⟨delay, byte⟩ :: rest => ⟨delay - 1, byte⟩ :: rest
  | [] => []

def inputBit (busy : Busy) : UInt8 := if busy = .free then 0x00 else 0x02

/-- Shows the status; time passes for the head of the queue and for the input buffer. -/
def showStatus (chip : ScriptedChip) : UInt8 × ScriptedChip :=
  (chip.extra ||| outputBit chip.queue ||| inputBit chip.busy,
    { chip with queue := ageQueue chip.queue, busy := chip.busy.next })

/-- Gives the head of the queue, ready or not. -/
def giveByte (chip : ScriptedChip) : UInt8 × ScriptedChip :=
  match chip.queue with
  | [] => (chip.idle, chip)
  | entry :: rest => (entry.byte, { chip with queue := rest })

def enqueue (chip : ScriptedChip) (entries : List Entry) : ScriptedChip :=
  { chip with queue := chip.queue ++ entries }

/-- The answer to a byte: the rule for that byte, else the one for any byte of its channel. -/
def answer (chip : ScriptedChip) (channel : Channel) (byte : UInt8) : List Entry :=
  match chip.rules.lookup ⟨channel, some byte⟩ with
  | some entries => entries
  | none => (chip.rules.lookup ⟨channel, none⟩).getD []

/-- The input buffer after a write, and the writes left until it jams. -/
def jam (busy : Busy) : Nat → Busy × Nat
  | 0 => (busy, 0)
  | 1 => (.stuck, 0)
  | n + 2 => (busy, n + 1)

def react (chip : ScriptedChip) (channel : Channel) (byte : UInt8) : ScriptedChip :=
  let busy := if chip.busyAfter = .free then chip.busy else chip.busyAfter
  let jammed := jam busy chip.stickAfter
  { chip.enqueue (chip.answer channel byte) with busy := jammed.1, stickAfter := jammed.2 }

/-- What a command does by itself: it reads memory or settles something about the next byte. -/
def takeCommand (chip : ScriptedChip) (code : UInt8) : ScriptedChip :=
  if code &&& 0xE0 = 0x20 then chip.enqueue [⟨0, chip.ram[address code]⟩]
  else if code &&& 0xE0 = 0x60 then
    { chip with pending := { chip.pending with address? := some (address code) } }
  else if code = 0xD2 ∨ code = 0xD3 then
    { chip with pending := { chip.pending with loop := true } }
  else if code = 0xD4 then { chip with pending := { chip.pending with mouse := true } }
  else chip

def Pending.channel (pending : Pending) : Channel := if pending.mouse then .mouse else .keyboard

def store (chip : ScriptedChip) (address : Fin 32) (byte : UInt8) : ScriptedChip :=
  { chip with ram := chip.ram.set address byte }

/-- What was settled about a data byte is done with it, and settled no longer. -/
def takeData (chip : ScriptedChip) (byte : UInt8) : ScriptedChip :=
  let stored := match chip.pending.address? with
    | none => chip
    | some address => chip.store address byte
  let looped := if chip.pending.loop then stored.enqueue [⟨0, byte⟩] else stored
  { looped with pending := {} }

def write (port : Port) (byte : UInt8) (chip : ScriptedChip) : ScriptedChip :=
  match port with
  | .command => (chip.takeCommand byte).react .controller byte
  | .data => (chip.takeData byte).react chip.pending.channel byte

instance : Chip ScriptedChip where
  status := showStatus
  read := giveByte
  write := write

/-- A change of the script; what it leaves out stays as it is. -/
structure Update where
  /-- Entries to add at the end of the queue. -/
  queue : List Entry := []
  busy : Option Busy := none
  busyAfter : Option Busy := none
  stickAfter : Option Nat := none
  extra : Option UInt8 := none
  idle : Option UInt8 := none
  /-- Bytes to store in internal memory. -/
  stores : List (Fin 32 × UInt8) := []
  /-- Rules, each in the place of the old one with the same trigger. -/
  rules : List (Trigger × List Entry) := []
  deriving DecidableEq, Repr

/-- Puts a rule in the place of the old one with the same trigger. -/
def setRule (rules : List (Trigger × List Entry)) (rule : Trigger × List Entry) :
    List (Trigger × List Entry) :=
  rule :: rules.filter fun old => old.1 ≠ rule.1

def update (chip : ScriptedChip) (u : Update) : ScriptedChip :=
  let chip := u.stores.foldl (fun chip cell => chip.store cell.1 cell.2) chip
  { chip.enqueue u.queue with
    busy := u.busy.getD chip.busy
    busyAfter := u.busyAfter.getD chip.busyAfter
    stickAfter := u.stickAfter.getD chip.stickAfter
    extra := u.extra.getD chip.extra
    idle := u.idle.getD chip.idle
    rules := u.rules.foldl setRule chip.rules }

end ScriptedChip

end Ps2Host
