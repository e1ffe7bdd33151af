import Ps2Host.Chip.Scripted
import Ps2Host.Proofs.Replay

/-!
# More patience than was needed

A wait that ends well has looked at the status as often as it took, and a host that would have gone
on longer does the same. So a session in which no wait fails, and in which no flush stops at its
limit, is the same session for every host that is at least as patient.

## Main definitions

* `Operation.WithinPatience` — the operation comes to an end before the patience of the host does.

## Main results

* `Patience.await_mono`, `Exchange.perform_mono`, `Operation.perform_mono` — waits, exchanges and
  operations that a more patient host carries out alike.
* `Session.run_of_more_patience` — so with sessions, also for a host that blocks instead of not.
-/
namespace Ps2Host

variable {σ : Type} [Chip σ]

/-! ## Waits -/

/-- A poll that was ready is ready after as many status reads if more are allowed. -/
theorem poll_mono {ready : Register .status → Bool} {limit more : Nat} (hle : limit ≤ more)
    {chip : σ} (h : (poll ready limit chip).result = true) :
    poll ready more chip = poll ready limit chip := by
  induction limit generalizing more chip with
  | zero => cases h
  | succ limit ih =>
    obtain ⟨more, rfl⟩ : ∃ rest, more = rest + 1 := ⟨more - 1, by omega⟩
    rw [poll_succ] at h
    rw [poll_succ, poll_succ]
    cases hready : ready (.ofBits (Chip.status chip).1) with
    | true => simp [Run.status, Run.andThen, hready]
    | false =>
      have hrest : (poll ready limit (Chip.status chip).2).result = true := by
        simpa [Run.status, Run.andThen, hready] using h
      have hsame := ih (Nat.le_of_succ_le_succ hle) hrest
      simp [Run.status, Run.andThen, hready, hsame]

/-- A flush that stopped before its limit found nothing more to drop. -/
theorem flush_mono {limit more : Nat} (hle : limit ≤ more) {chip : σ}
    (h : (flush limit chip).result < limit) : flush more chip = flush limit chip := by
  induction limit generalizing more chip with
  | zero => exact absurd h (Nat.not_lt_zero _)
  | succ limit ih =>
    obtain ⟨more, rfl⟩ : ∃ rest, more = rest + 1 := ⟨more - 1, by omega⟩
    rw [flush_succ] at h
    rw [flush_succ, flush_succ]
    cases hbyte : hasByte (.ofBits (Chip.status chip).1) with
    | false => simp [Run.status, Run.andThen, hbyte]
    | true =>
      let next : σ := (Chip.read (Chip.status chip).2).2
      have hrest : (flush limit next).result < limit := by
        have hdropped : (flush limit next).result + 1 < limit + 1 := by
          simpa [Run.status, Run.andThen, Run.read, Run.map, hbyte, next] using h
        omega
      have hsame := ih (Nat.le_of_succ_le_succ hle) hrest
      simp [Run.status, Run.andThen, Run.read, hbyte, next, hsame]

namespace Patience

def ready : Need → Register .status → Bool
  | .byte => hasByte
  | .room => hasRoom

/-- A wait ends well if and only if its poll does, and is then nothing but the poll. -/
theorem await_of_ok {patience : Patience} {need : Need} {chip : σ} :
    ((patience.await need chip).result = .ok () ↔
      (poll (ready need) (patience.tries need) chip).result = true) ∧
    ((patience.await need chip).result = .ok () → patience.await need chip =
      (poll (ready need) (patience.tries need) chip).map fun _ => .ok ()) := by
  have polled (test : Register .status → Bool) (complaint : Notice) (run : Run σ Bool)
      (hrun : run = poll test patience.limit.toNat chip) :
      ((patience.pollFor test complaint chip).result = .ok () ↔ run.result = true) ∧
        ((patience.pollFor test complaint chip).result = .ok () →
          patience.pollFor test complaint chip = run.map fun _ => .ok ()) := by
    subst hrun
    cases hready : (poll test patience.limit.toNat chip).result <;>
      simp [pollFor, Run.andThen, Run.map, Run.pure, hready]
  cases need with
  | room => exact polled hasRoom writeTimeout _ rfl
  | byte =>
    cases hblocking : patience.blocking with
    | true =>
      have hpolled := polled hasByte readTimeout _ rfl
      simpa [await, awaitByte, tries, ready, hblocking] using hpolled
    | false =>
      -- A single look is a poll that may look once.
      cases hbyte : hasByte (.ofBits (Chip.status chip).1) <;>
        simp [await, awaitByte, tries, ready, hblocking, poll_succ, Run.status, Run.andThen,
          Run.map, Run.pure, hbyte]

/-- A wait that ended well goes the same way if more looks are allowed. -/
theorem await_mono {patience more : Patience} {need : Need}
    (hle : patience.tries need ≤ more.tries need) {chip : σ}
    (h : (patience.await need chip).result = .ok ()) :
    more.await need chip = patience.await need chip := by
  have hready := await_of_ok.1.1 h
  have hpoll := poll_mono hle hready
  have hmore : (more.await need chip).result = .ok () := await_of_ok.1.2 (hpoll ▸ hready)
  rw [await_of_ok.2 hmore, await_of_ok.2 h, hpoll]

end Patience

/-! ## Exchanges and operations -/

section Mono

variable {patience more : Patience}

/-- An exchange in which no wait failed goes the same way if more looks are allowed. -/
theorem Exchange.perform_mono {ε α : Type} [Controller.Fault ε]
    (hle : ∀ need, patience.tries need ≤ more.tries need) (x : Exchange ε α) {chip : σ}
    (h : ∀ turn ∈ x.turns patience chip, turn.isTransfer = true) :
    x.perform more chip = x.perform patience chip := by
  have hroom (chip : σ) (hwait : (patience.awaitRoom chip).result = .ok ()) :
      more.awaitRoom chip = patience.awaitRoom chip := Patience.await_mono (hle .room) hwait
  have hbyte (chip : σ) (hwait : (patience.awaitByte chip).result = .ok ()) :
      more.awaitByte chip = patience.awaitByte chip := Patience.await_mono (hle .byte) hwait
  induction x generalizing chip with
  | done | fail => rfl
  | note notice next ih => simp only [perform, Run.andThen, Run.note, ih h]
  | send port byte next ih =>
    cases hwait : (patience.awaitRoom chip).result with
    | error stall => simp [turns, hwait] at h
    | ok =>
      simp only [turns, hwait, List.mem_cons, forall_eq_or_imp] at h
      simp only [perform, hroom chip hwait, Run.andThen, hwait, Run.write, ih h.2]
  | receive next ih =>
    cases hwait : (patience.awaitByte chip).result with
    | error stall => simp [turns, hwait] at h
    | ok =>
      simp only [turns, hwait, List.mem_cons, forall_eq_or_imp] at h
      simp only [perform, hbyte chip hwait, Run.andThen, hwait, Run.read, ih _ h.2]
  | listen next ih =>
    rcases hwait : (patience.awaitByte chip).result with (_ | _) | _
    · simp [turns, hwait] at h
    · simp [turns, hwait] at h
    · simp only [turns, hwait, List.mem_cons, forall_eq_or_imp] at h
      simp only [perform, hbyte chip hwait, Run.andThen, hwait, Run.read, ih _ h.2]

namespace Operation

/-- No wait of the operation fails, and if it is a flush, it drops fewer bytes than it may. -/
structure WithinPatience (operation : Operation) (c : Controller) (chip : σ) : Prop where
  moved : ∀ turn ∈ operation.turns c chip, turn.isTransfer = true
  dropped : ∀ count, (operation.perform c chip).1.result = .controller (.ok (.dropped count)) →
    count < c.patience.limit.toNat

theorem result_perform_flush (c : Controller) (chip : σ) :
    ((probe .flush).perform c chip).1.result =
      .controller (.ok (.dropped (flush c.patience.limit.toNat chip).result)) := by
  simp [perform, Controller.Probe.perform, Run.map, Run.andThen,
    Controller.Probe.result_reportFlush]

theorem carryOut_mono {ε α : Type} [Controller.Fault ε] {c : Controller}
    (hle : ∀ need, c.patience.tries need ≤ more.tries need) {plan : Except ε (Exchange ε α)}
    {chip : σ} (h : ∀ turn ∈ c.turns plan chip, turn.isTransfer = true) :
    (Controller.carryOut { c with patience := more } plan chip).1 = (c.carryOut plan chip).1 := by
  cases plan with
  | error e => rfl
  | ok x =>
    rw [Controller.carryOut, Controller.carryOut, Controller.hold_eq, Controller.hold_eq]
    cases hleased : c.leased with
    | true => rfl
    | false =>
      simp only [Controller.turns, hleased] at h
      exact x.perform_mono hle h

theorem waits_mono {c : Controller} (hle : ∀ need, c.patience.tries need ≤ more.tries need)
    (need : Need) {chip : σ}
    (h : ∀ turn ∈ Controller.Probe.turns.stalled need (c.patience.await need chip),
      turn.isTransfer = true) : more.await need chip = c.patience.await need chip := by
  cases hwait : (c.patience.await need chip).result with
  | ok => exact Patience.await_mono (hle need) hwait
  | error stall => simp [Controller.Probe.turns.stalled, hwait] at h

/-- An operation within the patience of one host goes the same way for a host with more. -/
theorem perform_mono {operation : Operation} {c : Controller} {chip : σ}
    (h : operation.WithinPatience c chip) {more : Patience}
    (hle : ∀ need, c.patience.tries need ≤ more.tries need) :
    (operation.perform { c with patience := more } chip).1 = (operation.perform c chip).1 := by
  obtain ⟨hmoved, hdropped⟩ := h
  cases operation with
  | controller request => exact congrArg (Run.map _) (request.exchange.perform_mono hle hmoved)
  | keyboard request => exact congrArg (Run.map _) (carryOut_mono hle hmoved)
  | mouse request => exact congrArg (Run.map _) (carryOut_mono hle hmoved)
  | probe p =>
    cases p with
    | status => rfl
    | awaitByte =>
      have hwait : more.awaitByte chip = c.patience.awaitByte chip := waits_mono hle .byte hmoved
      simp only [perform, Controller.Probe.perform, hwait]
    | awaitRoom =>
      have hwait : more.awaitRoom chip = c.patience.awaitRoom chip := waits_mono hle .room hmoved
      simp only [perform, Controller.Probe.perform, hwait]
    | flush =>
      have hcount : (flush c.patience.limit.toNat chip).result < c.patience.limit.toNat :=
        hdropped _ (result_perform_flush c chip)
      have hflush : flush more.limit.toNat chip = flush c.patience.limit.toNat chip :=
        flush_mono (hle .room) hcount
      simp only [perform, Controller.Probe.perform, hflush]

end Operation

end Mono

/-! ## Sessions -/

namespace Session

theorem dropLease_setPatience {σ : Type} (s : Session σ) (more : Patience) (name : Int) :
    (s.setPatience more).dropLease name = (s.dropLease name).setPatience more := by
  simp only [dropLease, setPatience]
  cases s.leases.lookup name with
  | none => rfl
  | some lease =>
    simp only [Controller.release]
    cases lease.acquired <;> rfl

theorem stepLease_setPatience {σ : Type} (s : Session σ) (more : Patience) (step : LeaseStep) :
    (s.setPatience more).stepLease step =
      ((s.stepLease step).1.setPatience more, (s.stepLease step).2) := by
  cases step with
  | query name => rfl
  | drop name => simp only [stepLease, dropLease_setPatience]
  | take name =>
    simp only [stepLease, dropLease_setPatience]
    rfl

variable {s : Session σ} {more : Patience}

/-- A step that does not touch the settings goes the same way for a more patient host. -/
theorem step_setPatience (hle : ∀ need, s.controller.patience.tries need ≤ more.tries need)
    {step : Step} (hsetting : ∀ setting, step ≠ .setting setting)
    (h : ∀ operation, step = .operation operation →
      operation.WithinPatience s.controller s.chip) :
    (s.setPatience more).step step = ((s.step step).1.setPatience more, (s.step step).2) := by
  cases step with
  | operation operation =>
    have hsame := Operation.perform_mono (h operation rfl) hle
    simp only [step, setPatience, Operation.perform_snd, hsame, record]
  | lease lease => simp only [step, stepLease_setPatience]; rfl
  | setting setting => exact absurd rfl (hsetting setting)
  | log | isDebug => rfl

theorem patience_step {step : Step} (hsetting : ∀ setting, step ≠ .setting setting) :
    (s.step step).1.controller.patience = s.controller.patience := by
  cases step with
  | operation operation => rw [controller_stepOperation]
  | lease lease => exact s.patience_stepLease lease
  | setting setting => exact absurd rfl (hsetting setting)
  | log | isDebug => rfl

/-- Steps that stay within the patience of the host go the same way for a host with more. -/
theorem run_setPatience (hle : ∀ need, s.controller.patience.tries need ≤ more.tries need)
    {steps : List Step} (hsettings : ∀ step ∈ steps, ∀ setting, step ≠ .setting setting)
    (h : s.EachOperation Operation.WithinPatience steps) :
    (s.setPatience more).run steps = ((s.run steps).1.setPatience more, (s.run steps).2) := by
  induction steps generalizing s with
  | nil => rfl
  | cons step rest ih =>
    obtain ⟨hsetting, hothers⟩ := List.forall_mem_cons.1 hsettings
    have hrest := ih (s := (s.step step).1) (by rwa [patience_step hsetting]) hothers h.2
    rw [run, step_setPatience hle hsetting h.1, hrest]
    rfl

/-- If no wait of a session fails, and each flush stops before its limit, a host with a higher limit
goes through the same session: outcomes, accesses, notices and lines are the same, and so is all
that is left in the end. A host that did not block may as well block. -/
theorem run_of_more_patience (s : Session σ) (more : Patience)
    (hlimit : s.controller.patience.limit ≤ more.limit)
    (hmode : more.blocking = s.controller.patience.blocking ∨
      s.controller.patience.blocking = false ∧ more.blocking = true ∧ 1 ≤ more.limit)
    {steps : List Step} (hsettings : ∀ step ∈ steps, ∀ setting, step ≠ .setting setting)
    (h : s.EachOperation Operation.WithinPatience steps) :
    (s.setPatience more).run steps = ((s.run steps).1.setPatience more, (s.run steps).2) := by
  refine run_setPatience (fun need => ?_) hsettings h
  have hmore : s.controller.patience.limit.toNat ≤ more.limit.toNat :=
    UInt32.le_iff_toNat_le.1 hlimit
  cases need with
  | room => exact hmore
  | byte =>
    obtain hsame | ⟨hlooks, hblocks, hpositive⟩ := hmode
    · rw [Patience.tries, Patience.tries, hsame]
      split
      · exact hmore
      · exact Nat.le_refl 1
    · -- A single look is no more than the first of many.
      have hone : 1 ≤ more.limit.toNat := UInt32.le_iff_toNat_le.1 hpositive
      simpa [Patience.tries, hlooks, hblocks] using hone

/-- A flush that drops one byte and two echoes, of which the second has to wait for room. -/
theorem run_of_more_patience_echo :
    let chip : ScriptedChip :=
      { queue := [⟨0, 0x11⟩], busyAfter := .polls 2,
        rules := [(⟨.keyboard, some 0xEE⟩, [⟨0, 0xEE⟩])] }
    let s : Session ScriptedChip :=
      { controller := { patience := { limit := 2, blocking := false } }, chip }
    let more : Patience := { limit := 7 }
    let echo := Step.operation (.keyboard .echo)
    let steps := [.operation (.probe .flush), echo, echo]
    s.controller.patience.limit ≤ more.limit ∧
      (s.controller.patience.blocking = false ∧ more.blocking = true ∧ 1 ≤ more.limit) ∧
      (∀ step ∈ steps, ∀ setting, step ≠ .setting setting) ∧
      s.EachOperation Operation.WithinPatience steps ∧
      (s.run steps).2.map (fun record => record.trace.length) = [3, 4, 5] ∧
      (s.setPatience more).run steps = ((s.run steps).1.setPatience more, (s.run steps).2) := by
  intro chip s more echo steps
  have hsettings : ∀ step ∈ steps, ∀ setting, step ≠ .setting setting := by simp [steps, echo]
  have hwithin : s.EachOperation Operation.WithinPatience steps := by
    refine ⟨fun operation heq => ?_, fun operation heq => ?_, fun operation heq => ?_, trivial⟩
    · obtain rfl := Step.operation.inj heq
      refine ⟨by decide +kernel, fun count hcount => ?_⟩
      rw [Operation.result_perform_flush] at hcount
      cases hcount
      decide +kernel
    · obtain rfl := Step.operation.inj heq
      exact ⟨by decide +kernel, nofun⟩
    · obtain rfl := Step.operation.inj heq
      exact ⟨by decide +kernel, nofun⟩
  have hmode : s.controller.patience.blocking = false ∧ more.blocking = true ∧ 1 ≤ more.limit :=
    ⟨rfl, rfl, by decide⟩
  exact ⟨by decide, hmode, hsettings, hwithin, by decide +kernel,
    run_of_more_patience s more (by decide) (.inr hmode) hsettings hwithin⟩

end Session

end Ps2Host
