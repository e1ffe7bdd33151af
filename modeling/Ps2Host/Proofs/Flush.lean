import Ps2Host.Proofs.Supply

/-!
# Dropping what is ready

A flush reads a byte for each status that shows one and stops at the first status that shows none,
or when it has dropped as many bytes as it may. So on a scripted chip it drops the bytes at the head
of the queue that are ready, and no other. If they were all there was, the next operation reads
nothing but what its own writes have made the chip queue.

## Main definitions

* `Trace.drops` — the accesses of bytes that are dropped.
* `ScriptedChip.ready` — how many entries at the head of a queue are ready.

## Main results

* `flush_cases` — what a flush does on any chip.
* `ScriptedChip.flush_of_clear` — what it leaves of the queue of a scripted chip.
* `Session.step_flush` — the count, the accesses, the notice and what is left.
-/
namespace Ps2Host

/-- The accesses of bytes that are dropped: each is read directly after a status. -/
def Trace.drops (pairs : List (UInt8 × UInt8)) : Trace :=
  pairs.flatMap fun pair => [.status pair.1, .read pair.2]

def Access.isStatus : Access → Bool
  | status _ => true
  | read _ | write _ _ => false

namespace Trace

variable (pairs : List (UInt8 × UInt8))

theorem countP_drops : (drops pairs).countP Access.isStatus = pairs.length := by
  induction pairs with
  | nil => rfl
  | cons pair rest ih =>
    show (Access.status pair.1 :: .read pair.2 :: drops rest).countP Access.isStatus = _
    rw [List.countP_cons_of_pos rfl, List.countP_cons_of_neg Bool.false_ne_true, ih,
      List.length_cons]

theorem writes_drops : (drops pairs).writes = [] := by
  induction pairs with
  | nil => rfl
  | cons pair rest ih => exact ih

theorem length_replies_drops : (drops pairs).replies.length = pairs.length := by
  induction pairs with
  | nil => rfl
  | cons pair rest ih => exact congrArg Nat.succ ih

end Trace

/-! ## On any chip -/

section AnyChip

variable {σ : Type} [Chip σ] {chip : σ}

theorem flush_succ_of_met (h : Need.byte.met (Chip.status chip).1 = true) (limit : Nat) :
    flush (limit + 1) chip =
      let stale := Chip.read (Chip.status chip).2
      ((flush limit stale.2).map (· + 1)).after
        [.status (Chip.status chip).1, .read stale.1] := by
  simp [flush_succ, Run.status, Run.read, Run.andThen, Run.after, hasByte_ofBits, h]

theorem flush_succ_of_not_met (h : Need.byte.met (Chip.status chip).1 = false) (limit : Nat) :
    flush (limit + 1) chip =
      (Run.pure 0 (Chip.status chip).2).after [.status (Chip.status chip).1] := by
  simp [flush_succ, Run.status, Run.andThen, Run.after, Run.pure, hasByte_ofBits, h]

/-- A flush drops a byte for each status that shows one. It ends when it has dropped as many as it
may, or with a status that shows none. -/
theorem flush_cases (limit : Nat) (chip : σ) :
    ∃ pairs : List (UInt8 × UInt8), (flush limit chip).result = pairs.length ∧
      (flush limit chip).notices = [] ∧ (∀ pair ∈ pairs, Need.byte.met pair.1 = true) ∧
      ((pairs.length = limit ∧ (flush limit chip).trace = Trace.drops pairs) ∨
        (pairs.length < limit ∧ ∃ shown, Need.byte.met shown = false ∧
          (flush limit chip).trace = Trace.drops pairs ++ [.status shown])) := by
  induction limit generalizing chip with
  | zero => exact ⟨[], rfl, rfl, nofun, .inl ⟨rfl, rfl⟩⟩
  | succ limit ih =>
    cases hshown : Need.byte.met (Chip.status chip).1 with
    | false =>
      rw [flush_succ_of_not_met hshown]
      exact ⟨[], rfl, rfl, nofun, .inr ⟨Nat.succ_pos limit, _, hshown, rfl⟩⟩
    | true =>
      obtain ⟨pairs, hresult, hnotices, hpairs, hends⟩ := ih (Chip.read (Chip.status chip).2).2
      rw [flush_succ_of_met hshown]
      refine ⟨((Chip.status chip).1, (Chip.read (Chip.status chip).2).1) :: pairs,
        congrArg Nat.succ hresult, hnotices, List.forall_mem_cons.2 ⟨hshown, hpairs⟩, ?_⟩
      obtain ⟨hlength, htrace⟩ | ⟨hlength, shown, hclear, htrace⟩ := hends
      · exact .inl ⟨congrArg Nat.succ hlength, congrArg (_ :: _ :: ·) htrace⟩
      · exact .inr ⟨Nat.succ_lt_succ hlength, shown, hclear, congrArg (_ :: _ :: ·) htrace⟩

/-- The notice of a flush says that something was dropped. -/
theorem Controller.Probe.perform_flush (patience : Patience) (chip : σ) :
    let flushed := Ps2Host.flush patience.limit.toNat chip
    flush.perform patience chip =
      ⟨.ok (.dropped flushed.result), flushed.chip, flushed.trace,
        if flushed.result = 0 then [] else [Probe.flushed]⟩ := by
  intro flushed
  obtain ⟨-, -, hnotices, -⟩ := flush_cases patience.limit.toNat chip
  rw [perform, Run.andThen, hnotices, reportFlush]
  split <;> simp [Run.pure, Run.note, Run.andThen, flushed, *]

end AnyChip

/-! ## On a scripted chip -/

namespace ScriptedChip

def ready (queue : List Entry) : Nat := (queue.takeWhile fun entry => entry.delay == 0).length

variable {chip : ScriptedChip}

theorem met_showStatus_of_stuck (hextra : chip.extra.toNat.testBit 0 = true) :
    Need.byte.met chip.showStatus.1 = true := by
  simp only [Need.met, showStatus, UInt8.toNat_or, Nat.testBit_or, hextra, Bool.true_or]

/-- A flush never sees the end of what there is if the status always shows a byte. -/
theorem flush_of_stuck (hextra : chip.extra.toNat.testBit 0 = true) (limit : Nat) :
    (flush limit chip).result = limit := by
  induction limit generalizing chip with
  | zero => rfl
  | succ limit ih =>
    have hread : (Chip.read chip.showStatus.2).2.extra = chip.extra :=
      (script_replay [.status 0, .read 0] chip).2.1
    rw [flush_succ_of_met (met_showStatus_of_stuck hextra)]
    exact congrArg Nat.succ (ih (hread ▸ hextra))

/-- A flush drops the entries at the head of the queue that are ready, as many as it may. The status
that ends it, if one does, brings the next entry closer. -/
theorem flush_of_clear (hextra : chip.extra.toNat.testBit 0 = false) (limit : Nat) :
    (flush limit chip).result = min limit (ready chip.queue) ∧
      (ready chip.queue < limit →
        (flush limit chip).chip.queue = ageQueue (chip.queue.drop (ready chip.queue))) ∧
      (limit ≤ ready chip.queue →
        (flush limit chip).chip.queue = chip.queue.drop limit) := by
  induction limit generalizing chip with
  | zero => exact ⟨(Nat.zero_min _).symm, fun h => absurd h (Nat.not_lt_zero _), fun _ => rfl⟩
  | succ limit ih =>
    have hshown := met_byte_showStatus hextra
    match hqueue : chip.queue with
    | [] =>
      rw [hqueue] at hshown
      rw [flush_succ_of_not_met hshown]
      exact ⟨rfl, fun _ => congrArg ageQueue hqueue, fun h => absurd h (Nat.not_succ_le_zero _)⟩
    | ⟨delay + 1, byte⟩ :: rest =>
      rw [hqueue] at hshown
      rw [flush_succ_of_not_met hshown]
      exact ⟨rfl, fun _ => congrArg ageQueue hqueue, fun h => absurd h (Nat.not_succ_le_zero _)⟩
    | ⟨0, byte⟩ :: rest =>
      rw [hqueue] at hshown
      have hleft : (Chip.read chip.showStatus.2).2.queue = rest := by
        simp [Chip.read, giveByte, showStatus, ageQueue, hqueue]
      have hread : (Chip.read chip.showStatus.2).2.extra = chip.extra :=
        (script_replay [.status 0, .read 0] chip).2.1
      have hready : ready (⟨0, byte⟩ :: rest) = ready rest + 1 := rfl
      obtain ⟨hresult, hclear, hfull⟩ := ih (hread ▸ hextra)
      rw [hleft] at hresult hclear hfull
      rw [flush_succ_of_met hshown, hready]
      refine ⟨?_, fun h => ?_, fun h => ?_⟩
      · exact (congrArg Nat.succ hresult).trans (Nat.succ_min_succ ..).symm
      · exact hclear (Nat.lt_of_succ_lt_succ h)
      · exact hfull (Nat.le_of_succ_le_succ h)

/-- The bytes dropped are the first of those that waited, and the status is read once for each and,
unless there are as many as may be dropped, once more. -/
theorem trace_flush_of_clear (hextra : chip.extra.toNat.testBit 0 = false) (limit : Nat) :
    let flushed := flush limit chip
    flushed.trace.replies = chip.waiting.take (min limit (ready chip.queue)) ∧
      flushed.chip.waiting = chip.waiting.drop (min limit (ready chip.queue)) ∧
      flushed.trace.countP Access.isStatus = min limit (ready chip.queue + 1) := by
  intro flushed
  have hcount : flushed.result = min limit (ready chip.queue) := (flush_of_clear hextra limit).1
  obtain ⟨pairs, hresult, -, -, hends⟩ := flush_cases limit chip
  have hpairs : pairs.length = min limit (ready chip.queue) := hresult.symm.trans hcount
  obtain ⟨hwrites, hlength, hlooks⟩ : flushed.trace.writes = [] ∧
      flushed.trace.replies.length = pairs.length ∧
      flushed.trace.countP Access.isStatus = min limit (ready chip.queue + 1) := by
    obtain ⟨hfull, htrace⟩ | ⟨hshort, shown, -, htrace⟩ := hends
    · rw [htrace, Trace.countP_drops]
      refine ⟨Trace.writes_drops pairs, Trace.length_replies_drops pairs, ?_⟩
      omega
    · rw [htrace, Trace.writes_append, Trace.replies_append, List.countP_append,
        Trace.countP_drops, Trace.writes_drops]
      refine ⟨rfl, ?_, ?_⟩
      · rw [List.length_append, Trace.length_replies_drops]
        rfl
      · rw [List.countP_cons_of_pos rfl, List.countP_nil]
        omega
  have hbalance := (draws_flush limit hextra).balance
  rw [← replays_flush limit chip, Trace.supply_of_writes_nil hwrites, List.append_nil] at hbalance
  rw [← hbalance, ← hpairs, ← hlength, List.take_left, List.drop_left]
  exact ⟨rfl, rfl, hlooks⟩

theorem ready_eq_length {queue : List Entry} (h : ∀ entry ∈ queue, entry.delay = 0) :
    ready queue = queue.length := by
  induction queue with
  | nil => rfl
  | cons entry rest ih =>
    obtain ⟨delay, byte⟩ := entry
    obtain ⟨rfl, hrest⟩ : delay = 0 ∧ ∀ entry ∈ rest, entry.delay = 0 :=
      List.forall_mem_cons.1 h
    exact congrArg Nat.succ (ih hrest)

end ScriptedChip

/-! ## The operation -/

namespace Session

theorem step_probe_flush {σ : Type} [Chip σ] (s : Session σ) :
    let flushed := flush s.controller.patience.limit.toNat s.chip
    s.step (.operation (.probe .flush)) =
      ({ s with chip := flushed.chip },
        s.record (.operation (.controller (.ok (.dropped flushed.result)))) flushed.trace
          (if flushed.result = 0 then [] else [Controller.Probe.flushed])) := by
  simp only [step, Operation.perform, Controller.Probe.perform_flush, Run.map]

open ScriptedChip in
/-- A flush gives the number of bytes that it dropped, each read directly after a status that shows
one. It stops at its limit or at a status that shows none, and raises a notice if it dropped
anything. On a scripted chip it drops the entries at the head of the queue that are ready, as many
as it may; if the status always shows a byte, this is the limit. So if all entries are ready and
fewer than the limit, nothing is left, and each byte that the next operation reads was queued in
answer to one of its writes. -/
theorem step_flush :
    (∀ (σ : Type) [Chip σ] (s : Session σ),
      let limit := s.controller.patience.limit.toNat
      let record := (s.step (.operation (.probe .flush))).2
      ∃ pairs : List (UInt8 × UInt8),
        record.outcome = .operation (.controller (.ok (.dropped pairs.length))) ∧
        pairs.length ≤ limit ∧ (∀ pair ∈ pairs, Need.byte.met pair.1 = true) ∧
        ((pairs.length = limit ∧ record.trace = Trace.drops pairs) ∨
          (pairs.length < limit ∧ ∃ shown, Need.byte.met shown = false ∧
            record.trace = Trace.drops pairs ++ [.status shown])) ∧
        record.notices = (if pairs.length = 0 then [] else [Controller.Probe.flushed]) ∧
        record.lines = s.logger.deliver record.notices) ∧
    ∀ s : Session ScriptedChip,
      let limit := s.controller.patience.limit.toNat
      let stepped := s.step (.operation (.probe .flush))
      let left := stepped.1.chip
      let dropped := min limit (ready s.chip.queue)
      (s.chip.extra.toNat.testBit 0 = true →
        stepped.2.outcome = .operation (.controller (.ok (.dropped limit)))) ∧
      (s.chip.extra.toNat.testBit 0 = false →
        stepped.2.outcome = .operation (.controller (.ok (.dropped dropped))) ∧
        stepped.2.trace.replies = s.chip.waiting.take dropped ∧
        left.waiting = s.chip.waiting.drop dropped ∧
        (ready s.chip.queue < limit → left.queue = ageQueue (s.chip.queue.drop dropped)) ∧
        (limit ≤ ready s.chip.queue → left.queue = s.chip.queue.drop dropped) ∧
        stepped.2.trace.countP Access.isStatus = min limit (ready s.chip.queue + 1) ∧
        ((∀ entry ∈ s.chip.queue, entry.delay = 0) → s.chip.queue.length < limit →
          left.queue = [] ∧
          ∀ (c : Controller) (operation : Operation) (before after : Trace) (byte : UInt8),
            (operation.perform c left).1.trace = before ++ .read byte :: after →
            (∃ access ∈ before, access.isWrite = true) ∧
              before.replies ++ [byte] <+: before.supply left)) := by
  refine ⟨fun σ _ s => ?_, fun s => ?_⟩
  · intro limit record
    obtain ⟨pairs, hresult, -, hpairs, hends⟩ := flush_cases limit s.chip
    have hrecord : record = s.record (.operation (.controller (.ok (.dropped pairs.length))))
        (flush limit s.chip).trace
        (if pairs.length = 0 then [] else [Controller.Probe.flushed]) := by
      rw [← hresult]
      exact congrArg Prod.snd s.step_probe_flush
    rw [hrecord]
    refine ⟨pairs, rfl, ?_, hpairs, hends, rfl, rfl⟩
    obtain ⟨hfull, -⟩ | ⟨hshort, -⟩ := hends
    · exact Nat.le_of_eq hfull
    · exact Nat.le_of_lt hshort
  · intro limit stepped left dropped
    have hstepped := s.step_probe_flush
    have houtcome : stepped.2.outcome =
        .operation (.controller (.ok (.dropped (flush limit s.chip).result))) :=
      congrArg (fun stepped => Record.outcome stepped.2) hstepped
    have htrace : stepped.2.trace = (flush limit s.chip).trace :=
      congrArg (fun stepped => Record.trace stepped.2) hstepped
    have hleft : left = (flush limit s.chip).chip :=
      congrArg (fun stepped => Session.chip stepped.1) hstepped
    rw [houtcome, htrace, hleft]
    refine ⟨fun hextra => by rw [flush_of_stuck hextra], fun hextra => ?_⟩
    obtain ⟨hresult, hclear, hfull⟩ := flush_of_clear hextra limit
    obtain ⟨hreplies, hwaiting, hlooks⟩ := trace_flush_of_clear hextra limit
    refine ⟨by rw [hresult], hreplies, hwaiting, fun h => ?_, fun h => ?_, hlooks,
      fun hready h => ?_⟩
    · rw [hclear h, show dropped = ready s.chip.queue from Nat.min_eq_right (Nat.le_of_lt h)]
    · rw [hfull h, show dropped = limit from Nat.min_eq_left h]
    · have hall : ready s.chip.queue = s.chip.queue.length := ready_eq_length hready
      have hempty : (flush limit s.chip).chip.queue = [] := by
        rw [hclear (hall ▸ h), hall, List.drop_length]
        rfl
      refine ⟨hempty, fun c operation before after byte hsplit => ?_⟩
      have hsame := (replays_flush limit s.chip).extra
      have hdraws := operation.draws_perform c (hsame ▸ hextra)
      exact hdraws.prefix_supply (congrArg (List.map Entry.byte) hempty) hsplit

/-- Two bytes that were left over, and an echo after them. -/
theorem step_flush_echo :
    let s : Session ScriptedChip :=
      { controller := { patience := { limit := 3, blocking := false } }
        chip :=
          { queue := [⟨0, 0xAA⟩, ⟨0, 0xFA⟩], rules := [(⟨.keyboard, some 0xEE⟩, [⟨0, 0xEE⟩])] } }
    let stepped := s.step (.operation (.probe .flush))
    let left := stepped.1.chip
    let before : Trace := [.status 0, .write .data 0xEE, .status 1]
    s.chip.extra.toNat.testBit 0 = false ∧
    (∀ entry ∈ s.chip.queue, entry.delay = 0) ∧
    s.chip.queue.length < s.controller.patience.limit.toNat ∧
    stepped.2.outcome = .operation (.controller (.ok (.dropped 2))) ∧
    stepped.2.trace.replies = [0xAA, 0xFA] ∧
    left.queue = [] ∧
    ((Operation.keyboard .echo).perform s.controller left).1.trace = before ++ [.read 0xEE] ∧
    before.replies ++ [0xEE] <+: before.supply left := by
  intro s stepped left before
  have hextra : s.chip.extra.toNat.testBit 0 = false := by decide
  have hready : ∀ entry ∈ s.chip.queue, entry.delay = 0 := by decide
  have hlength : s.chip.queue.length < s.controller.patience.limit.toNat := by decide
  have htrace : ((Operation.keyboard .echo).perform s.controller left).1.trace =
      before ++ [.read 0xEE] := by decide +kernel
  obtain ⟨houtcome, hreplies, -, -, -, -, hall⟩ := (step_flush.2 s).2 hextra
  obtain ⟨hempty, hnext⟩ := hall hready hlength
  obtain ⟨-, hsupplied⟩ := hnext s.controller (.keyboard .echo) before [] 0xEE htrace
  exact ⟨hextra, hready, hlength, houtcome, hreplies, hempty, htrace, hsupplied⟩

end Session

end Ps2Host
