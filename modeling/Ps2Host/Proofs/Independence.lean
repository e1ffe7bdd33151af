import Ps2Host.Proofs.HalfOpen
import Ps2Host.Proofs.Patience
import Ps2Host.Proofs.Timing

/-!
# Operations that leave no trace

An operation that takes all the answers to its own bytes from the output queue leaves the chip as it
found it, except for how long things take. So such operations can follow one another in any order,
and each goes as it would go alone.

## Main definitions

* `Operation.Clean` — an operation of a device that leaves the output queue empty.

## Main results

* `Exchange.room_of_prompt` — on a chip that keeps up with the host no wait for room fails.
* `Operation.Clean.agree` — the chip after a clean operation differs from the one before it in its
  timing only.
* `Session.run_clean` — clean operations do not notice each other.
-/
namespace Ps2Host

namespace ScriptedChip

variable {limit : Nat} {a b c : ScriptedChip}

theorem Agree.refl (h : Prompt limit a) : Agree limit a a := ⟨.refl a, h, h⟩

theorem Agree.trans (hab : Agree limit a b) (hbc : Agree limit b c) : Agree limit a c :=
  ⟨hab.alike.trans hbc.alike, hab.left, hbc.right⟩

/-- The host cannot change the script. -/
theorem script_replay (trace : Trace) (chip : ScriptedChip) :
    (trace.replay chip).rules = chip.rules ∧ (trace.replay chip).extra = chip.extra ∧
      (trace.replay chip).idle = chip.idle := by
  induction trace generalizing chip with
  | nil => exact ⟨rfl, rfl, rfl⟩
  | cons access rest ih =>
    obtain ⟨hrules, hextra, hidle⟩ := ih (access.apply chip)
    rw [Trace.replay_cons, hrules, hextra, hidle]
    rcases access with _ | _ | ⟨_ | _, byte⟩
    · exact ⟨rfl, rfl, rfl⟩
    · simp only [Access.apply, Chip.read, giveByte]
      split <;> exact ⟨rfl, rfl, rfl⟩
    · simp only [Access.apply, Chip.write, write, takeData]
      split <;> split <;> exact ⟨rfl, rfl, rfl⟩
    · simp only [Access.apply, Chip.write, write, takeCommand]
      repeat' split
      all_goals exact ⟨rfl, rfl, rfl⟩

end ScriptedChip

/-! ## Chips that keep up -/

/-- On a chip that keeps up with the host no wait for room fails. -/
theorem Exchange.room_of_prompt {ε α : Type} {patience : Patience}
    (hblocking : patience.blocking = true) (x : Exchange ε α) {chip : ScriptedChip}
    (h : chip.Prompt patience.limit.toNat) {wait : Trace} {stall : Stall} :
    .stalled wait .room stall ∉ x.turns patience chip := by
  induction x generalizing chip with
  | done | fail => exact List.not_mem_nil
  | note notice next ih => exact ih h
  | send port byte next ih =>
    have hwait : (patience.await .room chip).result = .ok () :=
      Patience.await_of_ok.1.2 h.poll_hasRoom
    rw [Patience.await] at hwait
    have hnext : ScriptedChip.Prompt patience.limit.toNat
        (Chip.write port byte (patience.awaitRoom chip).chip) :=
      ((Patience.agree_awaitRoom (.refl h)).chip.write port byte).left
    simpa [turns, hwait] using ih hnext
  | receive next ih =>
    have hwaited := (Patience.agree_awaitByte hblocking (.refl h)).chip
    have hnext : ScriptedChip.Prompt patience.limit.toNat
        (Chip.read (patience.awaitByte chip).chip).2 := hwaited.giveByte.2.left
    cases hwait : (patience.awaitByte chip).result with
    | error stall => simp [turns, hwait]
    | ok => simpa [turns, hwait] using ih _ hnext
  | listen next ih =>
    have hwaited := (Patience.agree_awaitByte hblocking (.refl h)).chip
    have hnext : ScriptedChip.Prompt patience.limit.toNat
        (Chip.read (patience.awaitByte chip).chip).2 := hwaited.giveByte.2.left
    rcases hwait : (patience.awaitByte chip).result with (_ | _) | _
    · simpa [turns, hwait] using ih none hwaited.left
    · simp [turns, hwait]
    · simpa [turns, hwait] using ih (some _) hnext

theorem Controller.room_of_prompt {ε α : Type} [Fault ε] {c : Controller}
    (hblocking : c.patience.blocking = true) (plan : Except ε (Exchange ε α)) {chip : ScriptedChip}
    (h : chip.Prompt c.patience.limit.toNat) {wait : Trace} {stall : Stall} :
    .stalled wait .room stall ∉ c.turns plan chip := by
  cases plan with
  | error e => exact List.not_mem_nil
  | ok x =>
    rw [turns]
    split
    · exact List.not_mem_nil
    · exact x.room_of_prompt hblocking h

namespace Operation

variable {operation : Operation} {c : Controller} {chip : ScriptedChip}

/-- The operation is one of a device, and leaves nothing in the output queue. -/
structure Clean (operation : Operation) (c : Controller) (chip : ScriptedChip) : Prop where
  device : operation.isDevice = true
  queue : (operation.perform c chip).1.chip.queue = []

/-- On a chip that keeps up with the host a device operation leaves nothing pending. -/
theorem pending_of_prompt (hdevice : operation.isDevice = true)
    (hblocking : c.patience.blocking = true) (hprompt : chip.Prompt c.patience.limit.toNat)
    (hclear : chip.pending = {}) : (operation.perform c chip).1.chip.pending = {} := by
  have hraw : ∀ code, operation ≠ .controller (.sendCommand code) := by
    rintro code rfl
    cases hdevice
  have hroom (wait : Trace) (stall : Stall) :
      .stalled wait .room stall ∉ operation.turns c chip := by
    cases operation with
    | probe | controller => cases hdevice
    | keyboard request => exact c.room_of_prompt hblocking request.plan hprompt
    | mouse request => exact c.room_of_prompt hblocking request.plan hprompt
  refine Decidable.byContradiction fun hne => ?_
  obtain ⟨code, -, ⟨before, first, second, stall, hturns⟩, -⟩ :=
    (pending_perform hraw c hclear).1.1 hne
  exact hroom second stall (by simp [hturns])

/-- With nothing pending before, a device operation leaves the memory as it is. -/
theorem ram_perform (hdevice : operation.isDevice = true) (c : Controller)
    (hclear : chip.pending = {}) : (operation.perform c chip).1.chip.ram = chip.ram := by
  rw [operation.replays_perform c chip]
  refine ScriptedChip.ram_replay fun before byte after hsplit => ?_
  obtain ⟨channel, hchannel⟩ : ∃ channel, operation.channel? = some channel := by
    cases operation with
    | probe | controller => cases hdevice
    | keyboard => exact ⟨.keyboard, rfl⟩
    | mouse => exact ⟨.mouse, rfl⟩
  rw [← ScriptedChip.pending_replay]
  exact (operation.delivers_perform c hclear channel hchannel before byte after hsplit).address

/-- The chip after a clean operation differs from the one before it in its timing only. -/
theorem Clean.agree (h : operation.Clean c chip) (hblocking : c.patience.blocking = true)
    (hprompt : chip.Prompt c.patience.limit.toNat) (hqueue : chip.queue = [])
    (hclear : chip.pending = {}) :
    ScriptedChip.Agree c.patience.limit.toNat chip (operation.perform c chip).1.chip := by
  obtain ⟨hrules, hextra, hidle⟩ :=
    ScriptedChip.script_replay (operation.perform c chip).1.trace chip
  rw [← operation.replays_perform c chip] at hrules hextra hidle
  have hdevice := h.device
  have hpending := pending_of_prompt hdevice hblocking hprompt hclear
  refine ⟨⟨?_, fun trigger => ?_, hextra.symm, hidle.symm, ?_, ?_⟩, hprompt, ?_⟩
  · rw [hqueue, h.queue]
  · rw [hrules]
  · exact (ram_perform hdevice c hclear).symm
  · rw [hclear, hpending]
  · refine (operation.agree_perform ?_ ?_ hblocking (.refl hprompt)).chip.left <;>
      · rintro rfl
        cases hdevice

end Operation

/-! ## Sessions -/

namespace Session

variable {s t : Session ScriptedChip}

theorem Agree.trans {limit : Nat} {u : Session ScriptedChip} (hst : Agree limit s t)
    (htu : Agree limit t u) : Agree limit s u :=
  ⟨hst.controller.trans htu.controller, hst.leases.trans htu.leases, hst.logger.trans htu.logger,
    hst.chip.trans htu.chip⟩

/-- What operations, made one after the other, leave on record without the status reads. -/
def records (s : Session ScriptedChip) (operations : List Operation) : List Record :=
  (s.run (operations.map .operation)).2.map Record.withoutStatus

/-- What an operation leaves on record if it is made at once. -/
def alone (s : Session ScriptedChip) (operation : Operation) : Record :=
  (s.step (.operation operation)).2.withoutStatus

/-- A session that agrees with one in which each operation is clean still does after all of them. -/
theorem run_of_agree (hblocking : s.controller.patience.blocking = true)
    (hqueue : s.chip.queue = []) (hclear : s.chip.pending = {})
    (h : Agree s.controller.patience.limit.toNat s t) {operations : List Operation}
    (hclean : ∀ operation ∈ operations, operation.Clean s.controller s.chip) :
    t.records operations = operations.map s.alone ∧
      Agree s.controller.patience.limit.toNat s (t.run (operations.map .operation)).1 := by
  induction operations generalizing t with
  | nil => exact ⟨rfl, h⟩
  | cons operation rest ih =>
    obtain ⟨hfirst, hrest⟩ := List.forall_mem_cons.1 hclean
    have htimeless : (Step.operation operation).Timeless := by
      have hdevice := hfirst.device
      cases operation with
      | probe | controller => cases hdevice
      | keyboard | mouse => trivial
    obtain ⟨hstep, hrecord, -⟩ := agree_step hblocking h htimeless
    have hback : Agree s.controller.patience.limit.toNat s (s.step (.operation operation)).1 := by
      refine ⟨?_, rfl, rfl, hfirst.agree hblocking h.chip.left hqueue hclear⟩
      simp only [step, Operation.perform_snd]
    obtain ⟨hrecords, hend⟩ := ih (hback.trans hstep) hrest
    exact ⟨List.cons_eq_cons.2 ⟨hrecord.symm, hrecords⟩, hend⟩

/-- Clean operations on a chip that keeps up with the host do not notice each other. Each leaves the
record that it leaves alone, whatever their order, and none leaves anything in the queue, pending or
in the memory. -/
theorem run_clean {s : Session ScriptedChip} (hblocking : s.controller.patience.blocking = true)
    (hprompt : s.chip.Prompt s.controller.patience.limit.toNat) (hqueue : s.chip.queue = [])
    (hclear : s.chip.pending = {}) {operations : List Operation}
    (hclean : ∀ operation ∈ operations, operation.Clean s.controller s.chip) :
    s.records operations = operations.map s.alone ∧
    (∀ made, made <+: operations →
      let chip := (s.run (made.map .operation)).1.chip
      chip.queue = [] ∧ chip.pending = {} ∧ chip.ram = s.chip.ram) ∧
    ∀ reordered, reordered.Perm operations → s.records reordered = reordered.map s.alone ∧
      (s.records reordered).Perm (s.records operations) := by
  have hself : Agree s.controller.patience.limit.toNat s s := ⟨rfl, rfl, rfl, .refl hprompt⟩
  have hrecords := (run_of_agree hblocking hqueue hclear hself hclean).1
  refine ⟨hrecords, fun made hmade => ?_, fun reordered hperm => ?_⟩
  · intro chip
    have hmadeClean : ∀ operation ∈ made, operation.Clean s.controller s.chip :=
      fun operation hmem => hclean operation (hmade.subset hmem)
    have hagree := (run_of_agree hblocking hqueue hclear hself hmadeClean).2.chip
    refine ⟨?_, hagree.alike.pending.symm.trans hclear, hagree.alike.ram.symm⟩
    have hempty := hagree.alike.queue.symm
    rwa [hqueue, List.map_nil, List.map_eq_nil_iff] at hempty
  · have hreordered := (run_of_agree hblocking hqueue hclear hself fun operation hmem =>
      hclean operation (hperm.subset hmem)).1
    rw [hreordered, hrecords]
    exact ⟨rfl, hperm.map s.alone⟩

/-- An echo from the keyboard and an order that the mouse wants again, in either order. -/
theorem run_clean_echo :
    let rules := [(⟨.keyboard, some 0xEE⟩, [⟨1, 0xEE⟩]), (⟨.mouse, some 0xF6⟩, [⟨2, 0xFE⟩])]
    let s : Session ScriptedChip :=
      { controller := { patience := { limit := 3 } }, chip := { busyAfter := .polls 2, rules } }
    let echo := Operation.keyboard .echo
    let setDefaults := Operation.mouse .setDefaults
    s.controller.patience.blocking = true ∧ s.chip.Prompt 3 ∧ s.chip.queue = [] ∧
      s.chip.pending = {} ∧
      (∀ operation ∈ [echo, setDefaults], operation.Clean s.controller s.chip) ∧
      s.records [echo, setDefaults] = [s.alone echo, s.alone setDefaults] ∧
      s.records [setDefaults, echo] = [s.alone setDefaults, s.alone echo] := by
  intro rules s echo setDefaults
  have hprompt : s.chip.Prompt 3 := by
    refine ⟨nofun, fun trigger entries hlookup => ?_, ⟨0, by decide, rfl⟩, ⟨2, by decide, rfl⟩, rfl,
      by decide⟩
    simp only [s, rules, List.lookup_cons, List.lookup_nil] at hlookup
    split at hlookup
    · cases hlookup
      decide
    · split at hlookup <;> cases hlookup
      decide
  have hclean : ∀ operation ∈ [echo, setDefaults], operation.Clean s.controller s.chip := by
    refine List.forall_mem_cons.2 ⟨⟨rfl, by decide +kernel⟩, ?_⟩
    exact List.forall_mem_singleton.2 ⟨rfl, by decide +kernel⟩
  obtain ⟨hrecords, -, hreordered⟩ := run_clean (s := s) rfl hprompt rfl rfl hclean
  exact ⟨rfl, hprompt, rfl, rfl, hclean, hrecords, (hreordered _ (.swap ..)).1⟩

end Session

end Ps2Host
