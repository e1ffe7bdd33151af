import Ps2Host.Chip.PortSpace
import Ps2Host.Log.Logger

/-!
# Exchanges

A conversation with the chip: bytes to send, bytes to receive and notices to raise, each step chosen
by the bytes received before it. An exchange says nothing about waiting; how long to wait for each
byte is decided when it is carried out.

## Main definitions

* `Exchange ε α` — an exchange that ends with an `α` or fails with an `ε`; a monad.
* `Exchange.sendData`, `Exchange.sendCommand`, `Exchange.receiveByte`, `Exchange.listenForByte`,
  `Exchange.emit` — the exchanges of one step.
-/
namespace Ps2Host

/-- A conversation with the chip that ends with an `α` or fails with an `ε`. -/
inductive Exchange (ε α : Type)
  | done (a : α)
  /-- Ends with an error of its own, as opposed to a wait that fails. -/
  | fail (e : ε)
  | note (notice : Notice) (next : Exchange ε α)
  | send (port : Port) (byte : UInt8) (next : Exchange ε α)
  | receive (next : UInt8 → Exchange ε α)
  /-- Receives a byte, or notes that none came within the limit. -/
  | listen (next : Option UInt8 → Exchange ε α)

namespace Exchange

variable {ε α β γ : Type}

protected def bind : Exchange ε α → (α → Exchange ε β) → Exchange ε β
  | done a, f => f a
  | fail e, _ => fail e
  | note notice next, f => note notice (next.bind f)
  | send port byte next, f => send port byte (next.bind f)
  | receive next, f => receive fun byte => (next byte).bind f
  | listen next, f => listen fun byte? => (next byte?).bind f

instance : Monad (Exchange ε) where
  pure := done
  bind := Exchange.bind

@[simp] theorem pure_eq_done (a : α) : (pure a : Exchange ε α) = done a := rfl

@[simp] theorem done_bind (a : α) (f : α → Exchange ε β) : done a >>= f = f a := rfl

@[simp] theorem fail_bind (e : ε) (f : α → Exchange ε β) : fail e >>= f = fail e := rfl

@[simp] theorem note_bind (notice : Notice) (next : Exchange ε α) (f : α → Exchange ε β) :
    note notice next >>= f = note notice (next >>= f) := rfl

@[simp] theorem send_bind (port : Port) (byte : UInt8) (next : Exchange ε α)
    (f : α → Exchange ε β) : send port byte next >>= f = send port byte (next >>= f) := rfl

@[simp] theorem receive_bind (next : UInt8 → Exchange ε α) (f : α → Exchange ε β) :
    receive next >>= f = receive fun byte => next byte >>= f := rfl

@[simp] theorem listen_bind (next : Option UInt8 → Exchange ε α) (f : α → Exchange ε β) :
    listen next >>= f = listen fun byte? => next byte? >>= f := rfl

theorem bind_done (x : Exchange ε α) : x >>= done = x := by
  induction x with
  | done | fail => rfl
  | note notice next ih => rw [note_bind, ih]
  | send port byte next ih => rw [send_bind, ih]
  | receive next ih => rw [receive_bind]; exact congrArg receive (funext ih)
  | listen next ih => rw [listen_bind]; exact congrArg listen (funext ih)

theorem bind_bind (x : Exchange ε α) (f : α → Exchange ε β) (g : β → Exchange ε γ) :
    x >>= f >>= g = x >>= fun a => f a >>= g := by
  induction x with
  | done | fail => rfl
  | note notice next ih => simp only [note_bind, ih]
  | send port byte next ih => simp only [send_bind, ih]
  | receive next ih => simp only [receive_bind]; exact congrArg receive (funext ih)
  | listen next ih => simp only [listen_bind]; exact congrArg listen (funext ih)

instance : LawfulMonad (Exchange ε) :=
  LawfulMonad.mk' (Exchange ε) bind_done (fun _ _ => rfl) bind_bind

def sendData (byte : UInt8) : Exchange ε Unit := send .data byte (done ())

def sendCommand (byte : UInt8) : Exchange ε Unit := send .command byte (done ())

def receiveByte : Exchange ε UInt8 := receive done

def receiveBytes : Nat → Exchange ε (List UInt8)
  | 0 => pure []
  | n + 1 => do
    let byte ← receiveByte
    let bytes ← receiveBytes n
    return byte :: bytes

/-- Receives a byte, unless none comes within the limit. -/
def listenForByte : Exchange ε (Option UInt8) := listen done

def emit (notice : Notice) : Exchange ε Unit := note notice (done ())

end Exchange

end Ps2Host
