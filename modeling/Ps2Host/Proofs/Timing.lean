import Ps2Host.Proofs.Lease
import Ps2Host.Proofs.Prompt

/-!
# How long the chip takes does not matter

Two sessions on chips that differ in their timing only, and that both keep up with the limit of a
host that blocks, go the same way: the same outcomes, the same lines in the log and the same reads
and writes in the same order. Only the numbers of status reads between them differ.

## Main definitions

* `Trace.moves` — the reads and writes of a trace.
* `Run.Agree` — two runs differ in their status reads only and leave chips that agree.
* `Session.Agree` — two sessions differ in the timing of their chips only.
* `Session.Step.Timeless` — the steps that ask about the timing in no other way than by waiting.

## Main results

* `Exchange.agree_perform`, `Operation.agree_perform` — exchanges and operations go the same way.
* `Session.run_agree` — so do sessions, whatever their steps.
-/
namespace Ps2Host

/-- The reads and writes of a trace, without the status reads. -/
def Trace.moves (trace : Trace) : Trace :=
  trace.filter fun access => access.need?.isSome

@[simp] theorem Trace.moves_nil : Trace.moves [] = [] := rfl

@[simp] theorem Trace.moves_append (s t : Trace) :
    Trace.moves (s ++ t) = s.moves ++ t.moves :=
  List.filter_append ..

@[simp] theorem Trace.moves_cons_status (status : UInt8) (rest : Trace) :
    Trace.moves (.status status :: rest) = rest.moves := rfl

/-- Two runs have the same result, notices and moves, and leave chips that agree. -/
structure Run.Agree {α : Type} (limit : Nat) (r s : Run ScriptedChip α) : Prop where
  result : r.result = s.result
  notices : r.notices = s.notices
  moves : r.trace.moves = s.trace.moves
  chip : ScriptedChip.Agree limit r.chip s.chip

namespace Run

variable {α β : Type} {limit : Nat} {a b : ScriptedChip}

theorem Agree.andThen {r s : Run ScriptedChip α} (h : r.Agree limit s)
    {f : α → ScriptedChip → Run ScriptedChip β}
    (hf : ∀ result a b, ScriptedChip.Agree limit a b → (f result a).Agree limit (f result b)) :
    (r.andThen f).Agree limit (s.andThen f) := by
  have hnext := hf r.result r.chip s.chip h.chip
  rw [Run.andThen, Run.andThen, ← h.result]
  refine ⟨hnext.result, ?_, ?_, hnext.chip⟩
  · simp only [h.notices, hnext.notices]
  · simp only [Trace.moves_append, h.moves, hnext.moves]

theorem Agree.map {r s : Run ScriptedChip α} (h : r.Agree limit s) (f : α → β) :
    (r.map f).Agree limit (s.map f) :=
  ⟨congrArg f h.result, h.notices, h.moves, h.chip⟩

theorem agree_pure (x : α) (h : ScriptedChip.Agree limit a b) :
    (Run.pure x a).Agree limit (Run.pure x b) :=
  ⟨rfl, rfl, rfl, h⟩

theorem agree_note (notice : Notice) (h : ScriptedChip.Agree limit a b) :
    (Run.note notice a).Agree limit (Run.note notice b) :=
  ⟨rfl, rfl, rfl, h⟩

theorem agree_write (port : Port) (byte : UInt8) (h : ScriptedChip.Agree limit a b) :
    (Run.write port byte a).Agree limit (Run.write port byte b) :=
  ⟨rfl, rfl, rfl, h.write port byte⟩

theorem agree_read (h : ScriptedChip.Agree limit a b) : (Run.read a).Agree limit (Run.read b) := by
  obtain ⟨hbyte, hchip⟩ := h.giveByte
  exact ⟨hbyte, rfl, congrArg (fun byte => [Access.read byte]) hbyte, hchip⟩

end Run

/-! ## Waits -/

theorem moves_poll {σ : Type} [Chip σ] (ready : Register .status → Bool) (limit : Nat) (chip : σ) :
    (poll ready limit chip).trace.moves = [] ∧ (poll ready limit chip).notices = [] := by
  induction limit generalizing chip with
  | zero => exact ⟨rfl, rfl⟩
  | succ limit ih =>
    obtain ⟨hmoves, hnotices⟩ := ih (Chip.status chip).2
    rw [poll_succ]
    cases hready : ready (.ofBits (Chip.status chip).1) <;>
      simp [Run.status, Run.andThen, Run.pure, hready, hmoves, hnotices]

namespace Patience

variable {patience : Patience} {a b : ScriptedChip}

theorem agree_pollFor {ready : Register .status → Bool} (complaint : Notice)
    (h : ScriptedChip.Agree patience.limit.toNat a b)
    (hresult : (poll ready patience.limit.toNat a).result =
      (poll ready patience.limit.toNat b).result) :
    (patience.pollFor ready complaint a).Agree patience.limit.toNat
      (patience.pollFor ready complaint b) := by
  have hpoll : (poll ready patience.limit.toNat a).Agree patience.limit.toNat
      (poll ready patience.limit.toNat b) := by
    obtain ⟨hmoves, hnotices⟩ := moves_poll ready patience.limit.toNat a
    obtain ⟨hmoves', hnotices'⟩ := moves_poll ready patience.limit.toNat b
    exact ⟨hresult, hnotices.trans hnotices'.symm, hmoves.trans hmoves'.symm, h.poll ready⟩
  refine hpoll.andThen fun ready a b h => ?_
  split
  · exact Run.agree_pure _ h
  · exact (Run.agree_note complaint h).andThen fun _ _ _ h => Run.agree_pure _ h

/-- A host that blocks waits for a byte with the same outcome. -/
theorem agree_awaitByte (hblocking : patience.blocking = true)
    (h : ScriptedChip.Agree patience.limit.toNat a b) :
    (patience.awaitByte a).Agree patience.limit.toNat (patience.awaitByte b) := by
  rw [awaitByte, awaitByte, if_pos hblocking, if_pos hblocking]
  exact agree_pollFor readTimeout h h.poll_hasByte

theorem agree_awaitRoom (h : ScriptedChip.Agree patience.limit.toNat a b) :
    (patience.awaitRoom a).Agree patience.limit.toNat (patience.awaitRoom b) :=
  agree_pollFor writeTimeout h (by rw [h.left.poll_hasRoom, h.right.poll_hasRoom])

end Patience

/-! ## Exchanges and operations -/

theorem Exchange.agree_perform {ε α : Type} [Controller.Fault ε] {patience : Patience}
    (hblocking : patience.blocking = true) (x : Exchange ε α) {a b : ScriptedChip}
    (h : ScriptedChip.Agree patience.limit.toNat a b) :
    (x.perform patience a).Agree patience.limit.toNat (x.perform patience b) := by
  induction x generalizing a b with
  | done | fail => exact Run.agree_pure _ h
  | note notice next ih => exact (Run.agree_note notice h).andThen fun _ _ _ h => ih h
  | send port byte next ih =>
    rw [perform, perform]
    refine (Patience.agree_awaitRoom h).andThen fun wait a b h => ?_
    cases wait with
    | error stall => exact Run.agree_pure _ h
    | ok => exact (Run.agree_write port byte h).andThen fun _ _ _ h => ih h
  | receive next ih =>
    rw [perform, perform]
    refine (Patience.agree_awaitByte hblocking h).andThen fun wait a b h => ?_
    cases wait with
    | error stall => exact Run.agree_pure _ h
    | ok => exact (Run.agree_read h).andThen fun byte _ _ h => ih byte h
  | listen next ih =>
    rw [perform, perform]
    refine (Patience.agree_awaitByte hblocking h).andThen fun wait a b h => ?_
    rcases wait with (_ | _) | _
    · exact ih none h
    · exact Run.agree_pure _ h
    · exact (Run.agree_read h).andThen fun byte _ _ h => ih (some byte) h

theorem Controller.agree_carryOut {ε α : Type} [Fault ε] {c : Controller}
    (hblocking : c.patience.blocking = true) (plan : Except ε (Exchange ε α)) {a b : ScriptedChip}
    (h : ScriptedChip.Agree c.patience.limit.toNat a b) :
    (c.carryOut plan a).1.Agree c.patience.limit.toNat (c.carryOut plan b).1 := by
  cases plan with
  | error e => exact Run.agree_pure _ h
  | ok x =>
    rw [carryOut, carryOut, hold_eq, hold_eq]
    cases c.leased with
    | true => exact Run.agree_pure _ h
    | false => exact x.agree_perform hblocking h

/-- An operation goes the same way, unless it reads the status or drops what is ready by now. -/
theorem Operation.agree_perform (operation : Operation) (hstatus : operation ≠ .probe .status)
    (hflush : operation ≠ .probe .flush) {c : Controller} (hblocking : c.patience.blocking = true)
    {a b : ScriptedChip} (h : ScriptedChip.Agree c.patience.limit.toNat a b) :
    (operation.perform c a).1.Agree c.patience.limit.toNat (operation.perform c b).1 := by
  cases operation with
  | probe p =>
    cases p with
    | status => exact absurd rfl hstatus
    | flush => exact absurd rfl hflush
    | awaitByte => exact ((Patience.agree_awaitByte hblocking h).map _).map _
    | awaitRoom => exact ((Patience.agree_awaitRoom h).map _).map _
  | controller request => exact (request.exchange.agree_perform hblocking h).map _
  | keyboard request => exact (c.agree_carryOut hblocking request.plan h).map _
  | mouse request => exact (c.agree_carryOut hblocking request.plan h).map _

/-! ## Sessions -/

namespace Session

/-- Two sessions differ in nothing but the timing of their chips. -/
structure Agree (limit : Nat) (s t : Session ScriptedChip) : Prop where
  controller : s.controller = t.controller
  leases : s.leases = t.leases
  logger : s.logger = t.logger
  chip : ScriptedChip.Agree limit s.chip t.chip

/-- The step neither reads the status as such, nor flushes, nor changes how the host waits. -/
def Step.Timeless : Step → Prop
  | .operation (.probe .status) | .operation (.probe .flush) => False
  | .setting (.setLimit _) | .setting (.setBlocking _) => False
  | _ => True

def Record.withoutStatus (record : Record) : Record := { record with trace := record.trace.moves }

variable {limit : Nat} {s t : Session ScriptedChip}

theorem agree_dropLease (h : Agree limit s t) (name : Int) :
    Agree limit (s.dropLease name) (t.dropLease name) := by
  unfold dropLease
  rw [h.leases, h.controller]
  split
  · exact h
  · exact { h with controller := rfl, leases := rfl }

theorem agree_addLease (h : Agree limit s t) (name : Int) :
    Agree limit (s.addLease name) (t.addLease name) := by
  refine { h with controller := ?_, leases := ?_ }
  · exact congrArg (fun c => c.lease.2) h.controller
  · simp only [addLease, h.controller, h.leases]

theorem agree_granted (h : Agree limit s t) (name : Int) : s.granted name = t.granted name := by
  rw [granted, granted, h.leases]

theorem agree_stepLease (h : Agree limit s t) (step : LeaseStep) :
    Agree limit (s.stepLease step).1 (t.stepLease step).1 ∧
      (s.stepLease step).2 = (t.stepLease step).2 := by
  cases step with
  | query name => exact ⟨h, congrArg Outcome.granted (agree_granted h name)⟩
  | drop name => exact ⟨agree_dropLease h name, rfl⟩
  | take name =>
    have htaken := agree_addLease (agree_dropLease h name) name
    exact ⟨htaken, congrArg Outcome.granted (agree_granted htaken name)⟩

/-- A step goes the same way, and the host waits as before. -/
theorem agree_step (hblocking : s.controller.patience.blocking = true)
    (h : Agree s.controller.patience.limit.toNat s t) {step : Step} (htimeless : step.Timeless) :
    Agree s.controller.patience.limit.toNat (s.step step).1 (t.step step).1 ∧
      (s.step step).2.withoutStatus = (t.step step).2.withoutStatus ∧
      (s.step step).1.controller.patience = s.controller.patience := by
  cases step with
  | operation operation =>
    have hrun := operation.agree_perform (by rintro rfl; exact htimeless)
      (by rintro rfl; exact htimeless) hblocking h.chip
    rw [Session.step, Session.step, ← h.controller]
    refine ⟨⟨?_, h.leases, h.logger, hrun.chip⟩, ?_, ?_⟩
    · simp only [Operation.perform_snd]
    · simp only [record, Record.withoutStatus, hrun.result, hrun.notices, hrun.moves, h.logger]
    · simp only [Operation.perform_snd]
  | lease lease =>
    obtain ⟨hstep, houtcome⟩ := agree_stepLease h lease
    refine ⟨hstep, ?_, s.patience_stepLease lease⟩
    simp only [Session.step, record, houtcome, h.logger]
  | setting setting =>
    cases setting with
    | setLimit | setBlocking => cases htimeless
    | limit | isBlocking =>
      refine ⟨h, ?_, rfl⟩
      simp only [Session.step, stepSetting, record, h.controller, h.logger]
  | log command =>
    refine ⟨{ h with logger := congrArg (fun logger => logger.obey command) h.logger }, ?_, rfl⟩
    simp only [Session.step, record, h.logger]
  | isDebug =>
    refine ⟨h, ?_, rfl⟩
    simp only [Session.step, record, h.logger]

/-- Two sessions on chips that differ in their timing only, and that keep up with a host that
blocks, go the same way: all outcomes, notices, log lines, reads and writes are the same, and in the
end the chips still differ in their timing only. -/
theorem run_agree {s t : Session ScriptedChip} (hblocking : s.controller.patience.blocking = true)
    (h : Agree s.controller.patience.limit.toNat s t) {steps : List Step}
    (htimeless : ∀ step ∈ steps, step.Timeless) :
    (s.run steps).2.map Record.withoutStatus = (t.run steps).2.map Record.withoutStatus ∧
      Agree s.controller.patience.limit.toNat (s.run steps).1 (t.run steps).1 := by
  induction steps generalizing s t with
  | nil => exact ⟨rfl, h⟩
  | cons step rest ih =>
    obtain ⟨hstep, hrest⟩ := List.forall_mem_cons.1 htimeless
    obtain ⟨hagree, hrecord, hpatience⟩ := agree_step hblocking h hstep
    rw [← hpatience] at hblocking hagree ⊢
    obtain ⟨hrecords, hend⟩ := ih hblocking hagree hrest
    exact ⟨List.cons_eq_cons.2 ⟨hrecord, hrecords⟩, hend⟩

/-- An echo from a keyboard that is as quick as can be, and from one that takes all the time that
the host allows. -/
theorem run_agree_echo :
    let c : Controller := { patience := { limit := 3 } }
    let quick : ScriptedChip := { rules := [(⟨.keyboard, some 0xEE⟩, [⟨0, 0xEE⟩])] }
    let slow : ScriptedChip :=
      { busy := .polls 2, busyAfter := .polls 1, rules := [(⟨.keyboard, some 0xEE⟩, [⟨2, 0xEE⟩])] }
    let s : Session ScriptedChip := { controller := c, chip := quick }
    let t : Session ScriptedChip := { controller := c, chip := slow }
    let steps := [Step.operation (.keyboard .echo)]
    c.patience.blocking = true ∧ Agree 3 s t ∧ (∀ step ∈ steps, step.Timeless) ∧
      (s.run steps).2.map (fun record => record.trace.length) = [4] ∧
      (t.run steps).2.map (fun record => record.trace.length) = [8] ∧
      (s.run steps).2.map Record.withoutStatus = (t.run steps).2.map Record.withoutStatus ∧
      Agree 3 (s.run steps).1 (t.run steps).1 := by
  intro c quick slow s t steps
  have hrules (delay : Nat) (trigger : ScriptedChip.Trigger) (entries : List ScriptedChip.Entry)
      (hlookup : List.lookup trigger [(⟨.keyboard, some 0xEE⟩, [⟨delay, 0xEE⟩])] = some entries) :
      entries = [⟨delay, 0xEE⟩] := by
    rw [List.lookup_cons] at hlookup
    split at hlookup <;> cases hlookup
    rfl
  have halike : ScriptedChip.Alike quick slow := by
    refine ⟨rfl, fun trigger => ?_, rfl, rfl, rfl, rfl⟩
    simp only [quick, slow, List.lookup_cons]
    split <;> rfl
  have hquick : ScriptedChip.Prompt 3 quick := by
    refine ⟨nofun, ?_, ⟨0, by decide, rfl⟩, ⟨0, by decide, rfl⟩, rfl, by decide⟩
    intro trigger entries hlookup
    simp [hrules 0 trigger entries hlookup]
  have hslow : ScriptedChip.Prompt 3 slow := by
    refine ⟨nofun, ?_, ⟨2, by decide, rfl⟩, ⟨1, by decide, rfl⟩, rfl, by decide⟩
    intro trigger entries hlookup
    simp [hrules 2 trigger entries hlookup]
  have hagree : Agree 3 s t := ⟨rfl, rfl, rfl, halike, hquick, hslow⟩
  have htimeless : ∀ step ∈ steps, step.Timeless := by simp [steps, Step.Timeless]
  exact ⟨rfl, hagree, htimeless, by decide +kernel, by decide +kernel,
    run_agree (s := s) rfl hagree htimeless⟩

end Session

end Ps2Host
