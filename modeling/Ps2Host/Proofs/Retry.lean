import Ps2Host.Proofs.Patience
import Ps2Host.Proofs.Timing

/-!
# Trying again

A wait that fails has looked at the status as often as it may and has done nothing else, so the chip
is as many status reads closer to what was waited for. A host that tries again goes on where it
stopped: a transfer for which the chip needs a number of status reads comes after as many failed
attempts as this number has whole limits in it, and takes what is left over.

## Main definitions

* `Trace.Looks` — the accesses are so many status reads.
* `Session.Misses`, `Session.Hits` — attempts that fail, and one that succeeds.

## Main results

* `poll_missed`, `poll_found` — what a poll sees of a chip that counts down.
* `Session.run_missed` — attempts that fail, one after the other.
* `Session.run_retries` — how often a transfer fails, and how it then succeeds.
-/
namespace Ps2Host

def Trace.Looks (n : Nat) (trace : Trace) : Prop :=
  ∃ statuses : List UInt8, statuses.length = n ∧ trace = statuses.map .status

/-! ## Counting down -/

section Countdown

variable {σ : Type} [Chip σ] {chip : σ} {need : Need} {P : Nat → σ → Prop} {count limit : Nat}

/-- As long as the count is not zero, a look at the status does not show what is needed, and the
count goes down by one. -/
def CountsDown (need : Need) (P : Nat → σ → Prop) : Prop :=
  ∀ count chip, P (count + 1) chip →
    need.met (Chip.status chip).1 = false ∧ P count (Chip.status chip).2

/-- When the count is zero, the status shows what is needed. -/
def ShowsAtZero (need : Need) (P : Nat → σ → Prop) : Prop :=
  ∀ chip, P 0 chip → need.met (Chip.status chip).1 = true ∧ P 0 (Chip.status chip).2

theorem Trace.Looks.cons {trace : Trace} {n : Nat} (h : trace.Looks n) (status : UInt8) :
    Looks (n + 1) (.status status :: trace) := by
  obtain ⟨statuses, hlength, rfl⟩ := h
  exact ⟨status :: statuses, congrArg Nat.succ hlength, rfl⟩

theorem poll_succ_of_met {ready : Register .status → Bool}
    (hready : ∀ status, ready (.ofBits status) = need.met status)
    (h : need.met (Chip.status chip).1 = true) (limit : Nat) :
    poll ready (limit + 1) chip =
      (Run.pure true (Chip.status chip).2).after [.status (Chip.status chip).1] := by
  simp [poll_succ, Run.status, Run.andThen, Run.after, Run.pure, hready, h]

theorem poll_succ_of_not_met {ready : Register .status → Bool}
    (hready : ∀ status, ready (.ofBits status) = need.met status)
    (h : need.met (Chip.status chip).1 = false) (limit : Nat) :
    poll ready (limit + 1) chip =
      (poll ready limit (Chip.status chip).2).after [.status (Chip.status chip).1] := by
  simp [poll_succ, Run.status, Run.andThen, Run.after, hready, h]

/-- A poll that ends before the count is zero has looked as often as it may. -/
theorem poll_missed {ready : Register .status → Bool}
    (hready : ∀ status, ready (.ofBits status) = need.met status) (hcounts : CountsDown need P)
    (h : P count chip) (hle : limit ≤ count) :
    let polled := poll ready limit chip
    polled.result = false ∧ polled.trace.Looks limit ∧ P (count - limit) polled.chip := by
  induction limit generalizing chip count with
  | zero => exact ⟨rfl, ⟨[], rfl, rfl⟩, h⟩
  | succ limit ih =>
    obtain ⟨rest, rfl⟩ : ∃ rest, count = rest + 1 := ⟨count - 1, by omega⟩
    obtain ⟨hshown, hnext⟩ := hcounts rest chip h
    obtain ⟨hresult, hlooks, hleft⟩ := ih hnext (Nat.le_of_succ_le_succ hle)
    rw [poll_succ_of_not_met hready hshown, Nat.add_sub_add_right]
    exact ⟨hresult, hlooks.cons _, hleft⟩

/-- A poll that may look more often than the count sees that it is zero with one look more. -/
theorem poll_found {ready : Register .status → Bool}
    (hready : ∀ status, ready (.ofBits status) = need.met status) (hcounts : CountsDown need P)
    (hshows : ShowsAtZero need P) (h : P count chip) (hlt : count < limit) :
    let polled := poll ready limit chip
    polled.result = true ∧ polled.trace.Looks (count + 1) ∧ P 0 polled.chip := by
  induction limit generalizing chip count with
  | zero => exact absurd hlt (Nat.not_lt_zero count)
  | succ limit ih =>
    cases count with
    | zero =>
      obtain ⟨hshown, hnext⟩ := hshows chip h
      rw [poll_succ_of_met hready hshown]
      exact ⟨rfl, ⟨[_], rfl, rfl⟩, hnext⟩
    | succ count =>
      obtain ⟨hshown, hnext⟩ := hcounts count chip h
      obtain ⟨hresult, hlooks, hleft⟩ := ih hnext (Nat.lt_of_succ_lt_succ hlt)
      rw [poll_succ_of_not_met hready hshown]
      exact ⟨hresult, hlooks.cons _, hleft⟩

namespace Patience

theorem ready_ofBits (need : Need) (status : UInt8) :
    ready need (.ofBits status) = need.met status := by
  cases need with
  | byte => exact hasByte_ofBits status
  | room => exact hasRoom_ofBits status

theorem await_poll (patience : Patience) (need : Need) (chip : σ) :
    let polled := poll (ready need) (patience.tries need) chip
    let wait := patience.await need chip
    wait.result = (if polled.result then .ok () else .error (patience.stall need)) ∧
      wait.trace = polled.trace ∧ wait.chip = polled.chip := by
  have hpolled (test : Register .status → Bool) (complaint : Notice) :
      let polled := poll test patience.limit.toNat chip
      let wait := patience.pollFor test complaint chip
      wait.result = (if polled.result then .ok () else .error .timeout) ∧
        wait.trace = polled.trace ∧ wait.chip = polled.chip := by
    cases hresult : (poll test patience.limit.toNat chip).result <;>
      simp [pollFor, Run.andThen, Run.pure, Run.note, hresult]
  cases need with
  | room => exact hpolled hasRoom writeTimeout
  | byte =>
    cases hblocking : patience.blocking with
    | true =>
      have hwait := hpolled hasByte readTimeout
      simpa [await, awaitByte, tries, stall, ready, hblocking] using hwait
    | false =>
      -- A single look is a poll that may look once.
      cases hbyte : hasByte (.ofBits (Chip.status chip).1) <;>
        simp [await, awaitByte, tries, stall, ready, hblocking, poll_succ, Run.status, Run.andThen,
          Run.pure, hbyte]

/-- A wait that may look no more often than the count fails. -/
theorem await_missed (patience : Patience) (hcounts : CountsDown need P) (h : P count chip)
    (hle : patience.tries need ≤ count) :
    let wait := patience.await need chip
    wait.result = .error (patience.stall need) ∧ wait.trace.Looks (patience.tries need) ∧
      P (count - patience.tries need) wait.chip := by
  obtain ⟨hresult, htrace, hchip⟩ := patience.await_poll need chip
  obtain ⟨hmissed, hlooks, hleft⟩ := poll_missed (ready_ofBits need) hcounts h hle
  rw [hmissed] at hresult
  exact ⟨hresult, htrace ▸ hlooks, hchip ▸ hleft⟩

/-- A wait that may look more often than the count ends well. -/
theorem await_found (patience : Patience) (hcounts : CountsDown need P)
    (hshows : ShowsAtZero need P) (h : P count chip) (hlt : count < patience.tries need) :
    let wait := patience.await need chip
    wait.result = .ok () ∧ wait.trace.Looks (count + 1) ∧ P 0 wait.chip := by
  obtain ⟨hresult, htrace, hchip⟩ := patience.await_poll need chip
  obtain ⟨hfound, hlooks, hleft⟩ := poll_found (ready_ofBits need) hcounts hshows h hlt
  rw [hfound] at hresult
  exact ⟨hresult, htrace ▸ hlooks, hchip ▸ hleft⟩

end Patience

end Countdown

/-! ## Scripted chips -/

namespace ScriptedChip

/-- The byte is at the head of the queue, and shows after so many status reads. -/
def Offers (byte : UInt8) (rest : List Entry) (delay : Nat) (chip : ScriptedChip) : Prop :=
  chip.extra.toNat.testBit 0 = false ∧ chip.queue = ⟨delay, byte⟩ :: rest

/-- The input buffer is full for so many status reads. -/
def BusyFor (polls : Nat) (chip : ScriptedChip) : Prop :=
  chip.extra.toNat.testBit 1 = false ∧ chip.busy = .polls polls

def Jammed (chip : ScriptedChip) : Prop :=
  chip.extra.toNat.testBit 1 = false ∧ chip.busy = .stuck

/-- What a look at the status shows of a queue, and what it leaves of it. -/
theorem showStatus_of_queue {chip : ScriptedChip} {queue : List Entry}
    (h : chip.extra.toNat.testBit 0 = false ∧ chip.queue = queue) :
    Need.byte.met chip.showStatus.1 = (outputBit queue == 1) ∧
      chip.showStatus.2.extra.toNat.testBit 0 = false ∧
      chip.showStatus.2.queue = ageQueue queue := by
  obtain ⟨hextra, rfl⟩ := h
  exact ⟨met_byte_showStatus hextra, hextra, rfl⟩

/-- What a look at the status shows of the input buffer, and what it leaves of its busy time. -/
theorem showStatus_of_busy {chip : ScriptedChip} {busy : Busy}
    (h : chip.extra.toNat.testBit 1 = false ∧ chip.busy = busy) :
    Need.room.met chip.showStatus.1 = (inputBit busy == 0) ∧
      chip.showStatus.2.extra.toNat.testBit 1 = false ∧ chip.showStatus.2.busy = busy.next := by
  obtain ⟨hextra, rfl⟩ := h
  exact ⟨met_room_showStatus hextra, hextra, rfl⟩

theorem countsDown_offers (byte : UInt8) (rest : List Entry) :
    CountsDown .byte (Offers byte rest) :=
  fun _ _ => showStatus_of_queue

theorem showsAtZero_offers (byte : UInt8) (rest : List Entry) :
    ShowsAtZero .byte (Offers byte rest) :=
  fun _ => showStatus_of_queue

theorem Offers.giveByte {byte : UInt8} {rest : List Entry} {delay : Nat} {chip : ScriptedChip}
    (h : Offers byte rest delay chip) : chip.giveByte.1 = byte ∧ chip.giveByte.2.queue = rest := by
  rw [ScriptedChip.giveByte, h.2]
  exact ⟨rfl, rfl⟩

theorem countsDown_busyFor : CountsDown .room BusyFor := fun _ _ => showStatus_of_busy

theorem showsAtZero_busyFor : ShowsAtZero .room BusyFor := fun _ => showStatus_of_busy

theorem countsDown_jammed : CountsDown .room fun _ => Jammed := fun _ _ => showStatus_of_busy

/-- Looking at the status changes nothing but how long things take. -/
theorem alike_of_looks {n : Nat} {trace : Trace} (h : trace.Looks n) (chip : ScriptedChip) :
    Alike chip (trace.replay chip) := by
  obtain ⟨statuses, -, rfl⟩ := h
  induction statuses generalizing chip with
  | nil => exact .refl chip
  | cons status rest ih => exact (Alike.showStatus chip).trans (ih chip.showStatus.2)

end ScriptedChip

/-! ## One transfer -/

namespace Controller.Request

/-- The operation that writes a byte to a port, and nothing else. -/
def sendTo : Port → UInt8 → Request
  | .data => send
  | .command => sendCommand

/-- The operation begins with this wait, and is over if it fails. -/
def Waits (request : Request) (need : Need) : Prop :=
  ∀ {σ : Type} [Chip σ] (patience : Patience) (chip : σ) (stall : Stall),
    let wait := patience.await need chip
    wait.result = .error stall →
      let run := request.exchange.perform patience chip
      run.result = .error (.stalled stall) ∧ run.trace = wait.trace ∧ run.chip = wait.chip

theorem exchange_receive :
    receive.exchange = .receive fun byte => .done (.byte byte) := rfl

theorem exchange_sendTo (port : Port) (byte : UInt8) :
    (sendTo port byte).exchange = .send port byte (.done .done) := by
  cases port <;> rfl

theorem waits_receive : receive.Waits .byte := by
  intro σ _ patience chip stall wait hwait
  have hbyte : (patience.awaitByte chip).result = .error stall := hwait
  rw [exchange_receive]
  simp only [Exchange.perform, Run.andThen, hbyte, Run.pure, List.append_nil]
  exact ⟨rfl, rfl, rfl⟩

theorem waits_sendTo (port : Port) (byte : UInt8) : (sendTo port byte).Waits .room := by
  intro σ _ patience chip stall wait hwait
  have hroom : (patience.awaitRoom chip).result = .error stall := hwait
  rw [exchange_sendTo]
  simp only [Exchange.perform, Run.andThen, hroom, Run.pure, List.append_nil]
  exact ⟨rfl, rfl, rfl⟩

variable {σ : Type} [Chip σ] {patience : Patience} {chip : σ}

theorem perform_receive (h : (patience.await .byte chip).result = .ok ()) :
    let wait := patience.await .byte chip
    let run := receive.exchange.perform patience chip
    run.result = .ok (.byte (Chip.read wait.chip).1) ∧
      run.trace = wait.trace ++ [.read (Chip.read wait.chip).1] ∧
      run.chip = (Chip.read wait.chip).2 := by
  have hbyte : (patience.awaitByte chip).result = .ok () := h
  rw [exchange_receive]
  simp [Exchange.perform, Run.andThen, hbyte, Run.read, Run.pure, Patience.await]

theorem perform_sendTo (port : Port) (byte : UInt8)
    (h : (patience.await .room chip).result = .ok ()) :
    let run := (sendTo port byte).exchange.perform patience chip
    run.result = .ok .done ∧
      run.trace = (patience.await .room chip).trace ++ [.write port byte] := by
  have hroom : (patience.awaitRoom chip).result = .ok () := h
  rw [exchange_sendTo]
  simp [Exchange.perform, Run.andThen, hroom, Run.write, Run.pure, Patience.await]

end Controller.Request

/-! ## Attempts -/

namespace Session

open Controller (Request)
open ScriptedChip (Alike Offers BusyFor Jammed)

variable {s : Session ScriptedChip} {request : Request} {need : Need}
  {P : Nat → ScriptedChip → Prop} {count : Nat}

/-- So many attempts at a step fail, each after so many looks at the status and nothing else. They
leave the chip as it was, except for how long things take. -/
def Misses (s : Session ScriptedChip) (step : Step) (attempts looks : Nat) (stall : Stall) : Prop :=
  let run := s.run (List.replicate attempts step)
  run.2.length = attempts ∧
  (∀ record ∈ run.2, record.outcome = .operation (.controller (.error (.stalled stall))) ∧
    record.trace.Looks looks) ∧
  Alike s.chip run.1.chip

/-- The step succeeds after so many looks at the status, and with the one access that they are
for. -/
def Hits (s : Session ScriptedChip) (step : Step) (looks : Nat) (access : Access)
    (answer : Controller.Answer) : Prop :=
  let record := (s.step step).2
  record.outcome = .operation (.controller (.ok answer)) ∧
  ∃ wait : Trace, wait.Looks looks ∧ record.trace = wait ++ [access]

/-- An attempt that may look no more often than the count fails. -/
theorem step_missed (hwaits : request.Waits need) (hcounts : CountsDown need P)
    (h : P count s.chip) (hle : s.controller.patience.tries need ≤ count) :
    let stepped := s.step (.operation (.controller request))
    stepped.2.outcome =
        .operation (.controller (.error (.stalled (s.controller.patience.stall need)))) ∧
      stepped.2.trace.Looks (s.controller.patience.tries need) ∧
      stepped.1.controller = s.controller ∧
      P (count - s.controller.patience.tries need) stepped.1.chip := by
  intro stepped
  obtain ⟨hfailed, hlooks, hleft⟩ := s.controller.patience.await_missed hcounts h hle
  obtain ⟨hresult, htrace, hchip⟩ := hwaits s.controller.patience s.chip _ hfailed
  refine ⟨?_, ?_, rfl, ?_⟩
  · exact congrArg (fun result => Outcome.operation (.controller result)) hresult
  · rwa [show stepped.2.trace = _ from htrace]
  · rwa [show stepped.1.chip = _ from hchip]

/-- Attempts fail as long as there are not more looks in them than the count. -/
theorem run_missed (hwaits : request.Waits need) (hcounts : CountsDown need P) (attempts : Nat)
    (h : P count s.chip) (hle : attempts * s.controller.patience.tries need ≤ count) :
    let step := Step.operation (.controller request)
    let t := (s.run (List.replicate attempts step)).1
    s.Misses step attempts (s.controller.patience.tries need)
        (s.controller.patience.stall need) ∧
      t.controller = s.controller ∧
      P (count - attempts * s.controller.patience.tries need) t.chip := by
  intro step
  induction attempts generalizing s count with
  | zero =>
    rw [Nat.zero_mul]
    exact ⟨⟨rfl, nofun, .refl s.chip⟩, rfl, h⟩
  | succ attempts ih =>
    rw [Nat.succ_mul] at hle
    obtain ⟨houtcome, hlooks, hcontroller, hnext⟩ :=
      step_missed hwaits hcounts h (Nat.le_trans (Nat.le_add_left ..) hle)
    have hrest := ih hnext (by rw [hcontroller]; omega)
    rw [hcontroller, Nat.sub_sub, Nat.add_comm, ← Nat.succ_mul] at hrest
    obtain ⟨⟨hlength, hrecords, halike⟩, hsame, hleft⟩ := hrest
    have hfirst : Alike s.chip (s.step step).1.chip := by
      rw [s.chip_step step]
      exact ScriptedChip.alike_of_looks hlooks s.chip
    refine ⟨⟨congrArg Nat.succ hlength, ?_, hfirst.trans halike⟩, hsame.trans hcontroller, hleft⟩
    exact List.forall_mem_cons.2 ⟨⟨houtcome, hlooks⟩, hrecords⟩

/-- A transfer fails as often as the count has whole limits in it, and what is left of the count is
less than the limit. -/
theorem run_missed_div (hwaits : request.Waits need) (hcounts : CountsDown need P)
    (h : P count s.chip) :
    let tries := s.controller.patience.tries need
    let step := Step.operation (.controller request)
    let t := (s.run (List.replicate (count / tries) step)).1
    s.Misses step (count / tries) tries (s.controller.patience.stall need) ∧
      t.controller = s.controller ∧ P (count % tries) t.chip := by
  intro tries step t
  have hmod : count - count / tries * tries = count % tries := by
    rw [Nat.mod_def, Nat.mul_comm]
  rw [← hmod]
  exact run_missed hwaits hcounts (count / tries) h (Nat.div_mul_le_self count tries)

theorem step_receive_found {byte : UInt8} {rest : List ScriptedChip.Entry} {delay : Nat}
    (h : Offers byte rest delay s.chip) (hlt : delay < s.controller.patience.tries .byte) :
    let step := Step.operation (.controller .receive)
    s.Hits step (delay + 1) (.read byte) (.byte byte) ∧ (s.step step).1.chip.queue = rest := by
  intro step
  obtain ⟨hresult, hlooks, hleft⟩ := s.controller.patience.await_found
    (ScriptedChip.countsDown_offers byte rest) (ScriptedChip.showsAtZero_offers byte rest) h hlt
  obtain ⟨hanswer, htrace, hchip⟩ := Request.perform_receive hresult
  obtain ⟨hbyte, hrest⟩ := hleft.giveByte
  rw [show (Chip.read _).1 = byte from hbyte] at hanswer htrace
  refine ⟨⟨?_, _, hlooks, htrace⟩, ?_⟩
  · exact congrArg (fun result => Outcome.operation (.controller result)) hanswer
  · exact (congrArg ScriptedChip.queue hchip).trans hrest

theorem step_sendTo_found (port : Port) (byte : UInt8) {polls : Nat} (h : BusyFor polls s.chip)
    (hlt : polls < s.controller.patience.tries .room) :
    s.Hits (.operation (.controller (.sendTo port byte))) (polls + 1) (.write port byte)
      .done := by
  obtain ⟨hresult, hlooks, -⟩ := s.controller.patience.await_found
    ScriptedChip.countsDown_busyFor ScriptedChip.showsAtZero_busyFor h hlt
  obtain ⟨hanswer, htrace⟩ := Request.perform_sendTo port byte hresult
  refine ⟨?_, _, hlooks, htrace⟩
  exact congrArg (fun result => Outcome.operation (.controller result)) hanswer

/-- A byte that is late is received after as many failed attempts as its delay has limits in it. -/
theorem retry_receive {byte : UInt8} {rest : List ScriptedChip.Entry} {delay : Nat}
    (h : Offers byte rest delay s.chip) (hpos : 0 < s.controller.patience.tries .byte) :
    let tries := s.controller.patience.tries .byte
    let receive := Step.operation (.controller .receive)
    let t := (s.run (List.replicate (delay / tries) receive)).1
    s.Misses receive (delay / tries) tries (s.controller.patience.stall .byte) ∧
      t.chip.queue = ⟨delay % tries, byte⟩ :: rest ∧
      t.Hits receive (delay % tries + 1) (.read byte) (.byte byte) ∧
      (t.step receive).1.chip.queue = rest := by
  intro tries receive t
  obtain ⟨hmissed, hsame, hleft⟩ :=
    run_missed_div Request.waits_receive (ScriptedChip.countsDown_offers byte rest) h
  have hlt : delay % tries < t.controller.patience.tries .byte := by
    rw [show t.controller = s.controller from hsame]
    exact Nat.mod_lt delay hpos
  exact ⟨hmissed, hleft.2, step_receive_found hleft hlt⟩

/-- A byte is written after as many failed attempts as the input buffer is full for whole limits. -/
theorem retry_sendTo (port : Port) (byte : UInt8) {polls : Nat} (h : BusyFor polls s.chip)
    (hpos : 0 < s.controller.patience.tries .room) :
    let tries := s.controller.patience.tries .room
    let send := Step.operation (.controller (.sendTo port byte))
    let t := (s.run (List.replicate (polls / tries) send)).1
    s.Misses send (polls / tries) tries .timeout ∧
      t.Hits send (polls % tries + 1) (.write port byte) .done := by
  intro tries send t
  obtain ⟨hmissed, hsame, hleft⟩ :=
    run_missed_div (Request.waits_sendTo port byte) ScriptedChip.countsDown_busyFor h
  have hlt : polls % tries < t.controller.patience.tries .room := by
    rw [show t.controller = s.controller from hsame]
    exact Nat.mod_lt polls hpos
  exact ⟨hmissed, step_sendTo_found port byte hleft hlt⟩

/-- On a scripted chip, a byte that is late is received, and a byte is written to an input buffer
that is full for some time, after as many attempts in vain as there are whole limits in that time,
and with as many looks in the last attempt as are left, and one. A host that does not block looks
once in each attempt to receive. Attempts in vain make no access but these looks and lose nothing.
An input buffer that is stuck is never written to. -/
theorem run_retries (s : Session ScriptedChip) :
    let limit := s.controller.patience.limit.toNat
    let receive := Step.operation (.controller .receive)
    (∀ delay byte rest, s.chip.extra.toNat.testBit 0 = false →
      s.chip.queue = ⟨delay, byte⟩ :: rest →
      (s.controller.patience.blocking = true → 1 ≤ limit →
        let t := (s.run (List.replicate (delay / limit) receive)).1
        s.Misses receive (delay / limit) limit .timeout ∧
        t.chip.queue = ⟨delay % limit, byte⟩ :: rest ∧
        t.Hits receive (delay % limit + 1) (.read byte) (.byte byte) ∧
        (t.step receive).1.chip.queue = rest) ∧
      (s.controller.patience.blocking = false →
        let t := (s.run (List.replicate delay receive)).1
        s.Misses receive delay 1 .wouldBlock ∧
        t.chip.queue = ⟨0, byte⟩ :: rest ∧
        t.Hits receive 1 (.read byte) (.byte byte) ∧
        (t.step receive).1.chip.queue = rest)) ∧
    ∀ port byte, s.chip.extra.toNat.testBit 1 = false →
      let send := Step.operation (.controller (.sendTo port byte))
      (∀ polls, s.chip.busy = .polls polls → 1 ≤ limit →
        let t := (s.run (List.replicate (polls / limit) send)).1
        s.Misses send (polls / limit) limit .timeout ∧
        t.Hits send (polls % limit + 1) (.write port byte) .done) ∧
      (s.chip.busy = .stuck → ∀ attempts, s.Misses send attempts limit .timeout) := by
  intro limit receive
  refine ⟨fun delay byte rest hextra hqueue => ⟨fun hblocking hlimit => ?_, fun hblocking => ?_⟩,
    fun port byte hextra => ⟨fun polls hbusy hlimit => ?_, fun hbusy attempts => ?_⟩⟩
  · have htries : s.controller.patience.tries .byte = limit := by
      simp [Patience.tries, hblocking, limit]
    have hstall : s.controller.patience.stall .byte = .timeout := by
      simp [Patience.stall, hblocking]
    have hretry := retry_receive ⟨hextra, hqueue⟩ (htries ▸ hlimit)
    rwa [htries, hstall] at hretry
  · have htries : s.controller.patience.tries .byte = 1 := by simp [Patience.tries, hblocking]
    have hstall : s.controller.patience.stall .byte = .wouldBlock := by
      simp [Patience.stall, hblocking]
    have hretry := retry_receive ⟨hextra, hqueue⟩ (htries ▸ Nat.one_pos)
    simp only [htries, hstall, Nat.div_one, Nat.mod_one] at hretry
    exact hretry
  · exact retry_sendTo port byte ⟨hextra, hbusy⟩ hlimit
  · exact (run_missed (Request.waits_sendTo port byte) ScriptedChip.countsDown_jammed attempts
      ⟨hextra, hbusy⟩ (Nat.le_refl _)).1

/-- A byte that comes after seven looks and an input buffer that is full for five, with three looks
in an attempt. -/
theorem run_retries_three :
    let s : Session ScriptedChip :=
      { controller := { patience := { limit := 3 } }
        chip := { queue := [⟨7, 0x1C⟩, ⟨0, 0x9C⟩], busy := .polls 5 } }
    let receive := Step.operation (.controller .receive)
    let send := Step.operation (.controller (.sendTo .data 0xED))
    s.chip.extra.toNat.testBit 0 = false ∧ s.chip.extra.toNat.testBit 1 = false ∧
    s.controller.patience.blocking = true ∧ 1 ≤ s.controller.patience.limit.toNat ∧
    s.chip.queue = ⟨7, 0x1C⟩ :: [⟨0, 0x9C⟩] ∧ s.chip.busy = .polls 5 ∧
    s.Misses receive 2 3 .timeout ∧
    (s.run [receive, receive]).1.Hits receive 2 (.read 0x1C) (.byte 0x1C) ∧
    s.Misses send 1 3 .timeout ∧
    (s.run [send]).1.Hits send 3 (.write .data 0xED) .done := by
  intro s receive send
  have hbyte : s.chip.extra.toNat.testBit 0 = false := by decide
  have hroom : s.chip.extra.toNat.testBit 1 = false := by decide
  have hlimit : 1 ≤ s.controller.patience.limit.toNat := by decide
  obtain ⟨hreceive, hsend⟩ := run_retries s
  obtain ⟨hmissed, -, hhit, -⟩ := (hreceive 7 0x1C [⟨0, 0x9C⟩] hbyte rfl).1 rfl hlimit
  obtain ⟨hmissed', hhit'⟩ := (hsend .data 0xED hroom).1 5 rfl hlimit
  have hthree : s.controller.patience.limit.toNat = 3 := rfl
  rw [hthree] at hmissed hhit hmissed' hhit'
  exact ⟨hbyte, hroom, rfl, hlimit, rfl, rfl, hmissed, hhit, hmissed', hhit'⟩

end Session

end Ps2Host
