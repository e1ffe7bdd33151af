import Ps2Host.Controller.Wait

/-!
# What a wait sees

Before each byte the host waits for one of two needs, which a single status bit answers. A wait
reads the status until the bit is as needed and not once more, and gives up after a fixed number of
reads. This holds on every chip.

## Main definitions

* `Need`, `Need.met` — what the host waits for, and the status bytes that show it.
* `Patience.tries`, `Patience.stall` — how often a wait looks, and how it fails.
* `Patience.Met`, `Patience.Missed` — the accesses of a wait that ends well, and of one that fails.

## Main results

* `Patience.await_cases` — every wait is of one of the two kinds, and its result says of which.
-/
namespace Ps2Host

/-- What the host waits for. -/
inductive Need
  | byte
  | room
  deriving DecidableEq, Repr

/-- The status byte shows what is needed: bit 0 is set, or bit 1 is clear. -/
def Need.met : Need → UInt8 → Bool
  | byte, status => status.toNat.testBit 0
  | room, status => !status.toNat.testBit 1

theorem hasByte_ofBits (status : UInt8) : hasByte (.ofBits status) = Need.byte.met status := by
  obtain ⟨bits⟩ := status
  revert bits
  decide +kernel

theorem hasRoom_ofBits (status : UInt8) : hasRoom (.ofBits status) = Need.room.met status := by
  obtain ⟨bits⟩ := status
  revert bits
  decide +kernel

namespace Patience

/-- The most status reads of a wait. Without blocking, a wait for a byte is one look. -/
def tries (patience : Patience) : Need → Nat
  | .byte => if patience.blocking then patience.limit.toNat else 1
  | .room => patience.limit.toNat

def stall (patience : Patience) : Need → Stall
  | .byte => if patience.blocking then .timeout else .wouldBlock
  | .room => .timeout

/-- The accesses of a wait that ends well: status reads that do not show what is needed, fewer than
the tries, and one that does. -/
def Met (patience : Patience) (need : Need) (wait : Trace) : Prop :=
  ∃ (missed : List UInt8) (shown : UInt8), wait = missed.map .status ++ [.status shown] ∧
    missed.length < patience.tries need ∧ (∀ status ∈ missed, need.met status = false) ∧
    need.met shown = true

/-- The accesses of a wait that fails: as many status reads as there are tries, none of which shows
what is needed. -/
def Missed (patience : Patience) (need : Need) (wait : Trace) : Prop :=
  ∃ missed : List UInt8, wait = missed.map .status ∧ missed.length = patience.tries need ∧
    ∀ status ∈ missed, need.met status = false

variable {σ : Type} [Chip σ]

def await (patience : Patience) : Need → σ → Run σ (Except Stall Unit)
  | .byte => patience.awaitByte
  | .room => patience.awaitRoom

end Patience

variable {σ : Type} [Chip σ]

/-- A poll reads the status as long as it is not ready, and at most `limit` times. -/
theorem poll_cases {ready : Register .status → Bool} {need : Need}
    (h : ∀ status, ready (.ofBits status) = need.met status) (limit : Nat) (chip : σ) :
    ∃ missed : List UInt8, (∀ status ∈ missed, need.met status = false) ∧
      (((poll ready limit chip).result = true ∧ missed.length < limit ∧ ∃ shown,
          need.met shown = true ∧
          (poll ready limit chip).trace = missed.map .status ++ [.status shown]) ∨
        ((poll ready limit chip).result = false ∧ missed.length = limit ∧
          (poll ready limit chip).trace = missed.map .status)) := by
  induction limit generalizing chip with
  | zero => exact ⟨[], by simp, .inr ⟨rfl, rfl, rfl⟩⟩
  | succ limit ih =>
    rw [poll_succ]
    cases hshown : need.met (Chip.status chip).1 with
    | true =>
      refine ⟨[], by simp, .inl ⟨?_, Nat.succ_pos _, (Chip.status chip).1, hshown, ?_⟩⟩ <;>
        simp [Run.status, Run.andThen, h, hshown, Run.pure]
    | false =>
      obtain ⟨missed, hmissed, hends⟩ := ih (Chip.status chip).2
      refine ⟨(Chip.status chip).1 :: missed, by simpa [hshown] using hmissed, ?_⟩
      obtain ⟨hresult, hlength, shown, hmet, htrace⟩ | ⟨hresult, hlength, htrace⟩ := hends
      · refine .inl ⟨?_, Nat.succ_lt_succ hlength, shown, hmet, ?_⟩ <;>
          simp [Run.status, Run.andThen, h, hshown, hresult, htrace]
      · refine .inr ⟨?_, congrArg Nat.succ hlength, ?_⟩ <;>
          simp [Run.status, Run.andThen, h, hshown, hresult, htrace]

namespace Patience

/-- A wait that polls ends well with the need met, or is a timeout after all its tries. -/
theorem pollFor_cases (patience : Patience) {ready : Register .status → Bool} {need : Need}
    (h : ∀ status, ready (.ofBits status) = need.met status)
    (htries : patience.tries need = patience.limit.toNat) (complaint : Notice) (chip : σ) :
    ((patience.pollFor ready complaint chip).result = .ok () ∧
        patience.Met need (patience.pollFor ready complaint chip).trace) ∨
      ((patience.pollFor ready complaint chip).result = .error .timeout ∧
        patience.Missed need (patience.pollFor ready complaint chip).trace) := by
  obtain ⟨missed, hmissed, hends⟩ := poll_cases h patience.limit.toNat chip
  obtain ⟨hresult, hlength, shown, hmet, htrace⟩ | ⟨hresult, hlength, htrace⟩ := hends
  · refine .inl ⟨?_, missed, shown, ?_, htries ▸ hlength, hmissed, hmet⟩ <;>
      simp [pollFor, Run.andThen, hresult, htrace, Run.pure]
  · refine .inr ⟨?_, missed, ?_, htries ▸ hlength, hmissed⟩ <;>
      simp [pollFor, Run.andThen, hresult, htrace, Run.note, Run.pure]

/-- A wait ends well with the need met, or fails after all its tries. -/
theorem await_cases (patience : Patience) (need : Need) (chip : σ) :
    ((patience.await need chip).result = .ok () ∧
        patience.Met need (patience.await need chip).trace) ∨
      ((patience.await need chip).result = .error (patience.stall need) ∧
        patience.Missed need (patience.await need chip).trace) := by
  cases need with
  | room => exact patience.pollFor_cases hasRoom_ofBits rfl writeTimeout chip
  | byte =>
    cases hblocking : patience.blocking with
    | true =>
      have hcases := patience.pollFor_cases hasByte_ofBits (by simp [tries, hblocking])
        readTimeout chip
      simpa [await, awaitByte, stall, hblocking] using hcases
    | false =>
      -- One look at the status: it is the byte shown, or the only one missed.
      cases hmet : Need.byte.met (Chip.status chip).1 with
      | true =>
        refine .inl ⟨?_, [], (Chip.status chip).1, ?_, ?_, by simp, hmet⟩ <;>
          simp [await, awaitByte, hblocking, tries, Run.status, Run.andThen, Run.pure,
            hasByte_ofBits, hmet]
      | false =>
        refine .inr ⟨?_, [(Chip.status chip).1], ?_, ?_, by simpa using hmet⟩ <;>
          simp [await, awaitByte, hblocking, tries, stall, Run.status, Run.andThen, Run.pure,
            hasByte_ofBits, hmet]

end Patience

end Ps2Host
