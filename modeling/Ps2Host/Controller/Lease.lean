import Ps2Host.Exchange.Perform

/-!
# Holding the controller

A keyboard or mouse operation needs the controller for itself from its first byte to its last, so
that two of them can never mix their bytes. It takes a lease; while one is held no other can be had.

## Main definitions

* `Controller` — the settings of the controller and whether it is taken.
* `Lease` — a lease that was asked for; it says whether it was granted, which never changes.
* `Controller.hold` — carries out an exchange under a lease of its own.
* `Controller.carryOut` — the same for a plan, which may have been refused.

## Main results

* `Controller.hold_eq` — an exchange is carried out if the controller is free, and leaves it free.
-/
namespace Ps2Host

/-- The host's side of the controller. -/
structure Controller where
  /-- How long transfers wait. -/
  patience : Patience := {}
  leased : Bool := false
  deriving DecidableEq, Repr

/-- A lease that was asked for. -/
structure Lease where
  acquired : Bool
  deriving DecidableEq, Repr

namespace Controller

def lease (c : Controller) : Lease × Controller := (⟨!c.leased⟩, { c with leased := true })

/-- Gives a lease back; one that was not granted releases nothing. -/
def release (c : Controller) (lease : Lease) : Controller :=
  if lease.acquired then { c with leased := false } else c

variable {σ ε α : Type} [Chip σ] [Fault ε]

/-- Carries out an exchange under a lease of its own, or finds the controller busy and does
nothing. The lease is given back however the exchange ends. -/
def hold (c : Controller) (x : Exchange ε α) (chip : σ) : Run σ (Except ε α) × Controller :=
  let lease := c.lease.1
  let held := c.lease.2
  let run :=
    if lease.acquired then x.perform held.patience chip
    else .pure (.error (Fault.ofController .busy)) chip
  (run, held.release lease)

/-- Carries out what was planned under a lease of its own; a plan that was refused ends at once,
whoever holds the controller. -/
def carryOut (c : Controller) (plan : Except ε (Exchange ε α)) (chip : σ) :
    Run σ (Except ε α) × Controller :=
  match plan with
  | .error e => (.pure (.error e) chip, c)
  | .ok x => c.hold x chip

/-- Taking a lease and giving it back leaves the controller as it was. -/
@[simp] theorem release_lease (c : Controller) : c.lease.2.release c.lease.1 = c := by
  obtain ⟨patience, leased⟩ := c
  cases leased <;> rfl

/-- An exchange is carried out unless the controller is taken, which it is afterwards only if it
was before. -/
theorem hold_eq (c : Controller) (x : Exchange ε α) (chip : σ) :
    c.hold x chip =
      (if c.leased then .pure (.error (Fault.ofController .busy)) chip
        else x.perform c.patience chip, c) := by
  obtain ⟨patience, leased⟩ := c
  cases leased <;> rfl

end Controller

end Ps2Host
