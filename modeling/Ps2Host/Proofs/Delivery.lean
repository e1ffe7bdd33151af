import Ps2Host.Proofs.Handshake
import Ps2Host.Proofs.Prompt

/-!
# What a scripted chip delivers

A host that waits long enough for each byte in the output queue of a scripted chip gets them in the
order in which they wait. An exchange that receives a number of bytes takes as many from the head of
the queue and leaves the rest; if there are too few, it takes what there is and then waits in vain.

## Main definitions

* `ScriptedChip.waiting` — the bytes in the output queue.
* `ScriptedChip.Serves` — a host of a given patience waits long enough for each of them.

## Main results

* `ScriptedChip.Serves.awaitByte` — a wait ends well if and only if a byte is queued.
* `Exchange.Collects.perform_of_serves` — what an exchange that receives bytes does on such a chip.
-/
namespace Ps2Host

namespace ScriptedChip

/-- The bytes in the output queue, head first. -/
def waiting (chip : ScriptedChip) : List UInt8 := chip.queue.map Entry.byte

/-- Each byte in the output queue shows before a host of this patience gives up, and the status
shows a byte only if there is one. -/
structure Serves (patience : Patience) (chip : ScriptedChip) : Prop where
  queue : ∀ entry ∈ chip.queue, entry.delay < patience.tries .byte
  extra : chip.extra.toNat.testBit 0 = false

variable {patience : Patience} {chip : ScriptedChip}

theorem serves_of_ready (hready : ∀ entry ∈ chip.queue, entry.delay = 0)
    (hextra : chip.extra.toNat.testBit 0 = false)
    (hlooks : patience.blocking = true → 1 ≤ patience.limit.toNat) : chip.Serves patience where
  queue entry hentry := by
    rw [hready entry hentry, Patience.tries]
    split
    · exact hlooks ‹_›
    · exact Nat.one_pos
  extra := hextra

theorem waiting_showStatus (chip : ScriptedChip) : chip.showStatus.2.waiting = chip.waiting :=
  map_byte_ageQueue chip.queue

theorem waiting_giveByte {byte : UInt8} {rest : List UInt8} (h : chip.waiting = byte :: rest) :
    chip.giveByte.1 = byte ∧ chip.giveByte.2.waiting = rest := by
  obtain ⟨entry, entries, hqueue, hbyte, hrest⟩ := List.map_eq_cons_iff.1 h
  rw [giveByte, hqueue]
  exact ⟨hbyte, hrest⟩

namespace Serves

theorem showStatus (h : chip.Serves patience) : chip.showStatus.2.Serves patience :=
  { h with queue := fun _ hentry => delay_lt_of_mem_ageQueue h.queue hentry }

theorem giveByte (h : chip.Serves patience) : chip.giveByte.2.Serves patience := by
  unfold ScriptedChip.giveByte
  split
  · exact h
  · rename_i hqueue
    exact { h with queue := fun entry hentry => h.queue entry (by simp [hqueue, hentry]) }

theorem chip_poll (h : chip.Serves patience) (ready : Register .status → Bool) (limit : Nat) :
    (poll ready limit chip).chip.waiting = chip.waiting ∧
      (poll ready limit chip).chip.Serves patience := by
  apply poll_invariant (P := fun later : ScriptedChip =>
    later.waiting = chip.waiting ∧ later.Serves patience)
  · rintro later ⟨hwaiting, hserves⟩
    exact ⟨(waiting_showStatus later).trans hwaiting, hserves.showStatus⟩
  · exact ⟨rfl, h⟩

/-- One look is enough for a host that does not wait. -/
theorem hasByte_showStatus (h : chip.Serves patience) (hblocking : patience.blocking = false) :
    hasByte (.ofBits chip.showStatus.1) = !chip.waiting.isEmpty := by
  rw [ScriptedChip.hasByte_showStatus h.extra, waiting]
  cases hold : chip.queue with
  | nil => rfl
  | cons head rest =>
    obtain ⟨delay, byte⟩ := head
    have hdelay := h.queue ⟨delay, byte⟩ (by simp [hold])
    simp only [Patience.tries, hblocking, Bool.false_eq_true, if_false, Nat.lt_one_iff] at hdelay
    rw [hdelay]
    rfl

/-- A host that waits sees the head of the queue. -/
theorem poll_hasByte (h : chip.Serves patience) (hblocking : patience.blocking = true) :
    (poll hasByte patience.limit.toNat chip).result = !chip.waiting.isEmpty := by
  cases hold : chip.queue with
  | nil => simp [waiting, hold, poll_hasByte_of_nil h.extra hold]
  | cons head rest =>
    have hdelay := h.queue head (by simp [hold])
    simp only [Patience.tries, hblocking, if_true] at hdelay
    simp [waiting, hold, poll_hasByte_of_cons h.extra hold hdelay]

/-- A wait for a byte ends well if and only if one is queued, and takes none. -/
theorem awaitByte (h : chip.Serves patience) :
    (patience.awaitByte chip).result =
        (if chip.waiting.isEmpty then .error (patience.stall .byte) else .ok ()) ∧
      (patience.awaitByte chip).chip.waiting = chip.waiting ∧
      (patience.awaitByte chip).chip.Serves patience := by
  cases hblocking : patience.blocking with
  | true =>
    have hresult := h.poll_hasByte hblocking
    have hchip := h.chip_poll hasByte patience.limit.toNat
    cases hempty : chip.waiting.isEmpty <;>
      simpa [Patience.awaitByte, Patience.pollFor, Patience.stall, Run.andThen, Run.pure, Run.note,
        hblocking, hresult, hempty] using hchip
  | false =>
    have hresult := h.hasByte_showStatus hblocking
    have hchip := And.intro (waiting_showStatus chip) h.showStatus
    cases hempty : chip.waiting.isEmpty <;>
      simpa [Patience.awaitByte, Patience.stall, Run.andThen, Run.pure, Run.status, Chip.status,
        hblocking, hresult, hempty] using hchip

end Serves

end ScriptedChip

theorem Patience.moves_await {σ : Type} [Chip σ] (patience : Patience) (need : Need) (chip : σ) :
    (patience.await need chip).trace.moves = [] := by
  obtain ⟨-, hmet⟩ | ⟨-, hmissed⟩ := patience.await_cases need chip
  · exact hmet.moves
  · exact hmissed.moves

/-! ## Exchanges that receive bytes -/

section Exchanges

variable {ε α : Type} [Controller.Fault ε] {patience : Patience} {chip : ScriptedChip}

/-- An exchange that receives a number of bytes takes as many from the head of the queue and leaves
the rest. These decide what it comes to. If there are too few, it takes all of them and fails. -/
theorem Exchange.Collects.perform_of_serves {n : Nat} {decides : List UInt8 → Except ε α → Prop}
    {x : Exchange ε α} (hx : x.Collects n decides) (h : chip.Serves patience) :
    (x.perform patience chip).trace.moves = (chip.waiting.take n).map .read ∧
    (x.perform patience chip).chip.waiting = chip.waiting.drop n ∧
    (x.perform patience chip).chip.Serves patience ∧
    (n ≤ chip.waiting.length → decides (chip.waiting.take n) (x.perform patience chip).result) ∧
    (chip.waiting.length < n →
      (x.perform patience chip).result = .error (patience.stall .byte).fault) := by
  induction hx generalizing chip with
  | done hdecides | fail hdecides =>
    exact ⟨rfl, rfl, h, fun _ => hdecides, fun hlength => absurd hlength (Nat.not_lt_zero _)⟩
  | note _ ih => exact ih h
  | @receive n decides next _ ih =>
    obtain ⟨hresult, hwaiting, hserves⟩ := h.awaitByte
    have hlooks := patience.moves_await .byte chip
    rw [Patience.await] at hlooks
    cases hold : chip.waiting with
    | nil =>
      rw [hold, List.isEmpty_nil, if_pos rfl] at hresult
      rw [hold] at hwaiting
      simp only [Exchange.perform, Run.andThen, hresult, Run.pure, List.append_nil]
      exact ⟨hlooks, hwaiting, hserves, fun hlength => absurd hlength (Nat.not_succ_le_zero n),
        fun _ => trivial⟩
    | cons byte rest =>
      rw [hold, List.isEmpty_cons, if_neg Bool.false_ne_true] at hresult
      obtain ⟨hbyte, hrest⟩ := ScriptedChip.waiting_giveByte (hwaiting.trans hold)
      obtain ⟨hmoves, hleft, hlater, hfull, hshort⟩ := ih byte hserves.giveByte
      rw [hrest] at hmoves hleft hfull hshort
      simp only [Exchange.perform, Run.andThen, hresult, Run.read, Chip.read, hbyte]
      refine ⟨?_, hleft, hlater, fun hlength => hfull (Nat.le_of_succ_le_succ hlength),
        fun hlength => hshort (Nat.lt_of_succ_lt_succ hlength)⟩
      rw [Trace.moves_append, Trace.moves_append, hlooks, hmoves]
      rfl

end Exchanges

end Ps2Host
