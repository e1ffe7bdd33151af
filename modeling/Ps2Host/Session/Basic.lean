import Ps2Host.Keyboard.Request
import Ps2Host.Log.Logger
import Ps2Host.Mouse.Request

/-!
# Operations and sessions

Everything that can be asked of the controller, the keyboard and the mouse is one type. A session
drives one controller step by step: operations, leases taken and given back by name, settings, and
commands for the logger. Each step leaves a record of its outcome, of the register accesses it made
and of the lines that reached the log.

## Main definitions

* `Operation`, `Operation.Outcome` — an operation and what comes of it.
* `Operation.perform` — carries an operation out.
* `Session σ` — the state between steps, on a chip with states `σ`.
* `Session.Step` — one step.
* `Session.step`, `Session.run` — one step and a list of them, with their records.

## Main results

* `Session.run_append` — a list of steps can be cut anywhere.
-/
namespace Ps2Host

inductive Operation
  | probe (probe : Controller.Probe)
  | controller (request : Controller.Request)
  | keyboard (request : Keyboard.Request)
  | mouse (request : Mouse.Request)
  deriving DecidableEq

namespace Operation

inductive Outcome
  | controller (result : Except Controller.Error Controller.Answer)
  | keyboard (result : Except Keyboard.Error Keyboard.Answer)
  | mouse (result : Except Mouse.Error Mouse.Answer)

variable {σ : Type} [Chip σ]

/-- Carries an operation out. Only those of a device need the controller for themselves. -/
def perform (operation : Operation) (c : Controller) (chip : σ) : Run σ Outcome × Controller :=
  match operation with
  | probe p => ((p.perform c.patience chip).map .controller, c)
  | controller request => ((request.exchange.perform c.patience chip).map .controller, c)
  | keyboard request =>
    let performed := request.perform c chip
    (performed.1.map .keyboard, performed.2)
  | mouse request =>
    let performed := request.perform c chip
    (performed.1.map .mouse, performed.2)

end Operation

/-! ### Sessions -/

structure Session (σ : Type) where
  controller : Controller := {}
  /-- The live leases by their names. -/
  leases : List (Int × Lease) := []
  logger : Logger := {}
  chip : σ

namespace Session

inductive LeaseStep
  /-- Gives back the lease of the name, if there is one, and asks for a new one. -/
  | take (name : Int)
  /-- Asks whether the lease of the name was granted. -/
  | query (name : Int)
  /-- Gives back the lease of the name, if there is one. -/
  | drop (name : Int)
  deriving DecidableEq, Repr

inductive Setting
  | setLimit (limit : UInt32)
  | limit
  | setBlocking (on : Bool)
  | isBlocking
  deriving DecidableEq, Repr

inductive Step
  | operation (operation : Operation)
  | lease (step : LeaseStep)
  | setting (setting : Setting)
  | log (command : Logger.Command)
  /-- Asks whether debug notices are delivered. -/
  | isDebug
  deriving DecidableEq

inductive Outcome
  | done
  | flag (on : Bool)
  | limit (limit : UInt32)
  /-- Whether a lease was granted, if there is one. -/
  | granted (answer : Option Bool)
  | operation (outcome : Operation.Outcome)

structure Record where
  outcome : Outcome
  trace : Trace := []
  /-- The notices that were raised, whether or not they were delivered. -/
  notices : List Notice := []
  /-- The lines that reached the log. -/
  lines : List Text := []

variable {σ : Type}

def dropLease (s : Session σ) (name : Int) : Session σ :=
  match s.leases.lookup name with
  | none => s
  | some lease =>
    { s with
      controller := s.controller.release lease
      leases := s.leases.filter fun named => named.1 ≠ name }

/-- Asks for a lease under a name that no live lease has. -/
def addLease (s : Session σ) (name : Int) : Session σ :=
  { s with
    controller := s.controller.lease.2
    leases := (name, s.controller.lease.1) :: s.leases }

/-- Whether the lease of a name was granted, if there is one. -/
def granted (s : Session σ) (name : Int) : Option Bool :=
  (s.leases.lookup name).map Lease.acquired

def stepLease (s : Session σ) : LeaseStep → Session σ × Outcome
  | .take name =>
    let taken := (s.dropLease name).addLease name
    (taken, .granted (taken.granted name))
  | .query name => (s, .granted (s.granted name))
  | .drop name => (s.dropLease name, .done)

def setPatience (s : Session σ) (patience : Patience) : Session σ :=
  { s with controller := { s.controller with patience } }

def stepSetting (s : Session σ) : Setting → Session σ × Outcome
  | .setLimit limit => (s.setPatience { s.controller.patience with limit }, .done)
  | .limit => (s, .limit s.controller.patience.limit)
  | .setBlocking blocking => (s.setPatience { s.controller.patience with blocking }, .done)
  | .isBlocking => (s, .flag s.controller.patience.blocking)

/-- The record of a step: its notices are delivered to the logger as it is before the step. -/
def record (s : Session σ) (outcome : Outcome) (trace : Trace := []) (notices : List Notice := []) :
    Record :=
  ⟨outcome, trace, notices, s.logger.deliver notices⟩

def step [Chip σ] (s : Session σ) : Step → Session σ × Record
  | .operation operation =>
    let performed := operation.perform s.controller s.chip
    let run := performed.1
    ({ s with controller := performed.2, chip := run.chip },
      s.record (.operation run.result) run.trace run.notices)
  | .lease lease =>
    let stepped := s.stepLease lease
    (stepped.1, s.record stepped.2)
  | .setting setting =>
    let stepped := s.stepSetting setting
    (stepped.1, s.record stepped.2)
  | .log command =>
    ({ s with logger := s.logger.obey command }, s.record .done [] command.notices)
  | .isDebug => (s, s.record (.flag s.logger.debug))

def run [Chip σ] (s : Session σ) : List Step → Session σ × List Record
  | [] => (s, [])
  | first :: rest =>
    let stepped := s.step first
    let others := stepped.1.run rest
    (others.1, stepped.2 :: others.2)

@[simp] theorem run_nil [Chip σ] (s : Session σ) : s.run [] = (s, []) := rfl

theorem run_append [Chip σ] (s : Session σ) (first second : List Step) :
    s.run (first ++ second) =
      (((s.run first).1.run second).1, (s.run first).2 ++ ((s.run first).1.run second).2) := by
  induction first generalizing s with
  | nil => rfl
  | cons step rest ih => simp only [List.cons_append, run, ih]

end Session

end Ps2Host
