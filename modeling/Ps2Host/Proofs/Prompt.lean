import Ps2Host.Chip.Scripted
import Ps2Host.Proofs.Wait

/-!
# Chips that keep up with the host

A scripted chip keeps up with a limit if each byte that it queues shows, and each byte that it takes
is done with, in fewer status reads than the limit. On such a chip a wait for room always ends well,
and a wait for a byte does if any byte is queued, however long either takes.

## Main definitions

* `ScriptedChip.Prompt limit` — the chip keeps up with the limit.
* `ScriptedChip.Alike` — two chips differ in nothing but their timing.
* `ScriptedChip.Agree limit` — two chips are alike and keep up with the limit.

## Main results

* `ScriptedChip.poll_hasByte`, `ScriptedChip.poll_hasRoom` — whether a poll ends well.
* `ScriptedChip.Agree.poll` — chips that agree still do after polls, however long each was.
* `ScriptedChip.Agree.write`, `ScriptedChip.Agree.giveByte` — the same for writes and reads.
-/
namespace Ps2Host

/-! ## Polls on any chip -/

section Poll

variable {σ : Type} [Chip σ] {ready : Register .status → Bool} {chip : σ}

/-- What no status read changes, no poll does. -/
theorem poll_invariant {P : σ → Prop} (hstatus : ∀ chip, P chip → P (Chip.status chip).2)
    (h : P chip) (limit : Nat) : P (poll ready limit chip).chip := by
  induction limit generalizing chip with
  | zero => exact h
  | succ limit ih =>
    cases hready : ready (.ofBits (Chip.status chip).1) with
    | true => simpa [poll_succ, Run.status, Run.andThen, Run.pure, hready] using hstatus chip h
    | false => simpa [poll_succ, Run.status, Run.andThen, hready] using ih (hstatus chip h)

/-- A poll is in vain if the chip never gets ready. -/
theorem poll_never {P : σ → Prop} (hstatus : ∀ chip, P chip → P (Chip.status chip).2)
    (hnever : ∀ chip, P chip → ready (.ofBits (Chip.status chip).1) = false) (h : P chip)
    (limit : Nat) : (poll ready limit chip).result = false := by
  induction limit generalizing chip with
  | zero => rfl
  | succ limit ih =>
    simpa [poll_succ, Run.status, Run.andThen, hnever chip h] using ih (hstatus chip h)

/-- A poll ends well if the chip counts down to being ready from less than the limit. -/
theorem poll_countdown {P : Nat → σ → Prop}
    (hstatus : ∀ count chip, P (count + 1) chip → P count (Chip.status chip).2)
    (hready : ∀ chip, P 0 chip → ready (.ofBits (Chip.status chip).1) = true) {count : Nat}
    (h : P count chip) {limit : Nat} (hlt : count < limit) :
    (poll ready limit chip).result = true := by
  induction limit generalizing chip count with
  | zero => exact absurd hlt (Nat.not_lt_zero count)
  | succ limit ih =>
    cases hshown : ready (.ofBits (Chip.status chip).1) with
    | true => simp [poll_succ, Run.status, Run.andThen, Run.pure, hshown]
    | false =>
      cases count with
      | zero => cases hshown.symm.trans (hready chip h)
      | succ count =>
        have hrest := ih (hstatus count chip h) (Nat.lt_of_succ_lt_succ hlt)
        simpa [poll_succ, Run.status, Run.andThen, hshown] using hrest

end Poll

namespace ScriptedChip

/-! ## The queue between two status reads -/

theorem map_byte_ageQueue (queue : List Entry) :
    (ageQueue queue).map Entry.byte = queue.map Entry.byte := by
  cases queue <;> rfl

theorem delay_lt_of_mem_ageQueue {queue : List Entry} {limit : Nat}
    (h : ∀ entry ∈ queue, entry.delay < limit) {entry : Entry} (hentry : entry ∈ ageQueue queue) :
    entry.delay < limit := by
  cases queue with
  | nil => cases hentry
  | cons head rest =>
    obtain ⟨hhead, hrest⟩ := List.forall_mem_cons.1 h
    obtain rfl | hmem := List.mem_cons.1 hentry
    · exact Nat.lt_of_le_of_lt (Nat.sub_le head.delay 1) hhead
    · exact hrest entry hmem

/-! ## What polls see -/

/-- The status shows a byte if the head of the queue is ready, and the bit is not stuck. -/
theorem hasByte_showStatus {chip : ScriptedChip} (hextra : chip.extra.toNat.testBit 0 = false) :
    hasByte (.ofBits chip.showStatus.1) = (outputBit chip.queue == 1) := by
  have hinput : (inputBit chip.busy).toNat.testBit 0 = false := by
    unfold inputBit
    split <;> decide
  have houtput : (outputBit chip.queue).toNat.testBit 0 = (outputBit chip.queue == 1) := by
    unfold outputBit
    split <;> decide
  rw [hasByte_ofBits, showStatus, Need.met]
  simp only [UInt8.toNat_or, Nat.testBit_or, hextra, hinput, houtput, Bool.false_or, Bool.or_false]

/-- The status shows room if the input buffer is free, and the bit is not stuck. -/
theorem hasRoom_showStatus {chip : ScriptedChip} (hextra : chip.extra.toNat.testBit 1 = false) :
    hasRoom (.ofBits chip.showStatus.1) = (inputBit chip.busy == 0) := by
  have houtput : (outputBit chip.queue).toNat.testBit 1 = false := by
    unfold outputBit
    split <;> decide
  have hinput : (inputBit chip.busy).toNat.testBit 1 = !(inputBit chip.busy == 0) := by
    unfold inputBit
    split <;> decide
  rw [hasRoom_ofBits, showStatus, Need.met]
  simp only [UInt8.toNat_or, Nat.testBit_or, hextra, houtput, hinput, Bool.false_or, Bool.not_not]

theorem met_byte_showStatus {chip : ScriptedChip} (hextra : chip.extra.toNat.testBit 0 = false) :
    Need.byte.met chip.showStatus.1 = (outputBit chip.queue == 1) :=
  (hasByte_ofBits _).symm.trans (hasByte_showStatus hextra)

theorem met_room_showStatus {chip : ScriptedChip} (hextra : chip.extra.toNat.testBit 1 = false) :
    Need.room.met chip.showStatus.1 = (inputBit chip.busy == 0) :=
  (hasRoom_ofBits _).symm.trans (hasRoom_showStatus hextra)

theorem poll_hasByte_of_nil {chip : ScriptedChip} (hextra : chip.extra.toNat.testBit 0 = false)
    (hqueue : chip.queue = []) (limit : Nat) : (poll hasByte limit chip).result = false := by
  apply poll_never (P := fun chip => chip.extra.toNat.testBit 0 = false ∧ chip.queue = [])
  · rintro chip ⟨hextra, hqueue⟩
    exact ⟨hextra, congrArg ageQueue hqueue⟩
  · rintro chip ⟨hextra, hqueue⟩
    refine (hasByte_showStatus hextra).trans ?_
    rw [hqueue]
    rfl
  · exact ⟨hextra, hqueue⟩

theorem poll_hasByte_of_cons {chip : ScriptedChip} (hextra : chip.extra.toNat.testBit 0 = false)
    {delay : Nat} {byte : UInt8} {rest : List Entry} (hqueue : chip.queue = ⟨delay, byte⟩ :: rest)
    {limit : Nat} (hlt : delay < limit) : (poll hasByte limit chip).result = true := by
  apply poll_countdown (P := fun count chip =>
    chip.extra.toNat.testBit 0 = false ∧ chip.queue = ⟨count, byte⟩ :: rest) _ _ _ hlt
  · rintro count chip ⟨hextra, hqueue⟩
    exact ⟨hextra, congrArg ageQueue hqueue⟩
  · rintro chip ⟨hextra, hqueue⟩
    refine (hasByte_showStatus hextra).trans ?_
    rw [hqueue]
    rfl
  · exact ⟨hextra, hqueue⟩

theorem poll_hasRoom {chip : ScriptedChip} (hextra : chip.extra.toNat.testBit 1 = false)
    {count : Nat} (hbusy : chip.busy = .polls count) {limit : Nat} (hlt : count < limit) :
    (poll hasRoom limit chip).result = true := by
  apply poll_countdown (P := fun count chip =>
    chip.extra.toNat.testBit 1 = false ∧ chip.busy = .polls count) _ _ _ hlt
  · rintro count chip ⟨hextra, hbusy⟩
    exact ⟨hextra, congrArg Busy.next hbusy⟩
  · rintro chip ⟨hextra, hbusy⟩
    refine (hasRoom_showStatus hextra).trans ?_
    rw [hbusy]
    rfl
  · exact ⟨hextra, hbusy⟩

/-! ## Chips that differ in their timing -/

/-- The chip keeps up with a limit on status reads, and no status bit that the host waits for is
stuck. -/
structure Prompt (limit : Nat) (chip : ScriptedChip) : Prop where
  queue : ∀ entry ∈ chip.queue, entry.delay < limit
  rules : ∀ trigger entries, chip.rules.lookup trigger = some entries →
    ∀ entry ∈ entries, entry.delay < limit
  busy : ∃ count < limit, chip.busy = .polls count
  busyAfter : ∃ count < limit, chip.busyAfter = .polls count
  stickAfter : chip.stickAfter = 0
  extra : chip.extra &&& 0x03 = 0

/-- Two chips differ in nothing but how long their bytes and their input buffers take. -/
structure Alike (a b : ScriptedChip) : Prop where
  queue : a.queue.map Entry.byte = b.queue.map Entry.byte
  rules : ∀ trigger, (a.rules.lookup trigger).map (List.map Entry.byte) =
    (b.rules.lookup trigger).map (List.map Entry.byte)
  extra : a.extra = b.extra
  idle : a.idle = b.idle
  ram : a.ram = b.ram
  pending : a.pending = b.pending

/-- Two chips keep up with a limit and differ in their timing only. -/
structure Agree (limit : Nat) (a b : ScriptedChip) : Prop where
  alike : Alike a b
  left : Prompt limit a
  right : Prompt limit b

theorem Alike.refl (a : ScriptedChip) : Alike a a := ⟨rfl, fun _ => rfl, rfl, rfl, rfl, rfl⟩

theorem Alike.symm {a b : ScriptedChip} (h : Alike a b) : Alike b a :=
  ⟨h.queue.symm, fun trigger => (h.rules trigger).symm, h.extra.symm, h.idle.symm, h.ram.symm,
    h.pending.symm⟩

theorem Alike.trans {a b c : ScriptedChip} (hab : Alike a b) (hbc : Alike b c) : Alike a c :=
  ⟨hab.queue.trans hbc.queue, fun trigger => (hab.rules trigger).trans (hbc.rules trigger),
    hab.extra.trans hbc.extra, hab.idle.trans hbc.idle, hab.ram.trans hbc.ram,
    hab.pending.trans hbc.pending⟩

theorem Alike.answer {a b : ScriptedChip} (h : Alike a b) (channel : Channel) (byte : UInt8) :
    (a.answer channel byte).map Entry.byte = (b.answer channel byte).map Entry.byte := by
  have hexact := h.rules ⟨channel, some byte⟩
  have hany := h.rules ⟨channel, none⟩
  unfold ScriptedChip.answer
  cases ha : a.rules.lookup ⟨channel, some byte⟩ <;>
    cases hb : b.rules.lookup ⟨channel, some byte⟩ <;> rw [ha, hb] at hexact
  · cases ha' : a.rules.lookup ⟨channel, none⟩ <;>
      cases hb' : b.rules.lookup ⟨channel, none⟩ <;> simp_all
  · cases hexact
  · cases hexact
  · exact Option.some.inj hexact

section Prompt

variable {limit : Nat} {chip : ScriptedChip}

theorem Prompt.pos (h : Prompt limit chip) : 0 < limit := by
  obtain ⟨count, hlt, -⟩ := h.busy
  exact Nat.zero_lt_of_lt hlt

theorem Prompt.extra_testBit (h : Prompt limit chip) (bit : Nat) (hbit : bit < 2) :
    chip.extra.toNat.testBit bit = false := by
  have hclear : (chip.extra &&& 0x03).toNat.testBit bit = false := by simp [h.extra]
  rw [UInt8.toNat_and, Nat.testBit_and] at hclear
  have hmask : Nat.testBit (0x03 : UInt8).toNat bit = true := by
    match bit, hbit with
    | 0, _ => rfl
    | 1, _ => rfl
  rwa [hmask, Bool.and_true] at hclear

theorem Prompt.answer (h : Prompt limit chip) (channel : Channel) (byte : UInt8) :
    ∀ entry ∈ chip.answer channel byte, entry.delay < limit := by
  unfold ScriptedChip.answer
  split
  · exact h.rules _ _ ‹_›
  · intro entry hentry
    cases hany : chip.rules.lookup ⟨channel, none⟩ with
    | none => simp [hany] at hentry
    | some entries => exact h.rules _ _ hany entry (by simpa [hany] using hentry)

/-- A byte to wait for is there in time if and only if any is queued. -/
theorem Prompt.poll_hasByte (h : Prompt limit chip) :
    (poll hasByte limit chip).result = !chip.queue.isEmpty := by
  have hextra := h.extra_testBit 0 (by decide)
  cases hqueue : chip.queue with
  | nil => exact poll_hasByte_of_nil hextra hqueue limit
  | cons entry rest => exact poll_hasByte_of_cons hextra hqueue (h.queue entry (by simp [hqueue]))

theorem Prompt.poll_hasRoom (h : Prompt limit chip) : (poll hasRoom limit chip).result = true := by
  obtain ⟨count, hlt, hbusy⟩ := h.busy
  exact ScriptedChip.poll_hasRoom (h.extra_testBit 1 (by decide)) hbusy hlt

end Prompt

/-! ## What the host does to chips that agree -/

section Prompt

variable {limit : Nat} {chip : ScriptedChip}

theorem Alike.showStatus (chip : ScriptedChip) : Alike chip chip.showStatus.2 := by
  refine { Alike.refl chip with queue := ?_ }
  exact (map_byte_ageQueue chip.queue).symm

theorem Prompt.showStatus (h : Prompt limit chip) : Prompt limit chip.showStatus.2 := by
  refine { h with queue := fun entry hentry => ?_, busy := ?_ }
  · exact delay_lt_of_mem_ageQueue h.queue hentry
  · obtain ⟨count, hlt, hbusy⟩ := h.busy
    exact ⟨count - 1, Nat.lt_of_le_of_lt (Nat.sub_le count 1) hlt, congrArg Busy.next hbusy⟩

theorem Prompt.enqueue (h : Prompt limit chip) {entries : List Entry}
    (hentries : ∀ entry ∈ entries, entry.delay < limit) : Prompt limit (chip.enqueue entries) :=
  { h with queue := List.forall_mem_append.2 ⟨h.queue, hentries⟩ }

/-- What comes back at once is there in time. -/
theorem Prompt.enqueue_now (h : Prompt limit chip) (byte : UInt8) :
    Prompt limit (chip.enqueue [⟨0, byte⟩]) :=
  h.enqueue (by simpa using h.pos)

theorem Prompt.react (h : Prompt limit chip) (channel : Channel) (byte : UInt8) :
    Prompt limit (chip.react channel byte) := by
  have hanswered := h.enqueue (h.answer channel byte)
  refine { hanswered with busy := ?_, stickAfter := ?_ }
  · rw [ScriptedChip.react]
    simp only [h.stickAfter, jam]
    split
    · exact h.busy
    · exact h.busyAfter
  · simp [ScriptedChip.react, h.stickAfter, jam]

end Prompt

namespace Agree

variable {limit : Nat} {a b : ScriptedChip}

/-- Polls differ in their length only. -/
theorem poll (h : Agree limit a b) (ready : Register .status → Bool) :
    Agree limit (poll ready limit a).chip (poll ready limit b).chip := by
  -- The polls can differ in length, so each chip is compared with what it was before its own.
  have aged {chip : ScriptedChip} (hprompt : Prompt limit chip) :
      Alike chip (Ps2Host.poll ready limit chip).chip ∧
        Prompt limit (Ps2Host.poll ready limit chip).chip := by
    apply poll_invariant (P := fun later => Alike chip later ∧ Prompt limit later)
    · rintro later ⟨halike, hlater⟩
      exact ⟨halike.trans (.showStatus later), hlater.showStatus⟩
    · exact ⟨.refl chip, hprompt⟩
  obtain ⟨hleft, hpromptLeft⟩ := aged h.left
  obtain ⟨hright, hpromptRight⟩ := aged h.right
  exact ⟨hleft.symm.trans (h.alike.trans hright), hpromptLeft, hpromptRight⟩

/-- A byte is there in time for both chips or for neither. -/
theorem poll_hasByte (h : Agree limit a b) :
    (Ps2Host.poll hasByte limit a).result = (Ps2Host.poll hasByte limit b).result := by
  rw [h.left.poll_hasByte, h.right.poll_hasByte]
  have hlength := congrArg List.isEmpty h.alike.queue
  simpa using hlength

theorem giveByte (h : Agree limit a b) :
    a.giveByte.1 = b.giveByte.1 ∧ Agree limit a.giveByte.2 b.giveByte.2 := by
  have hqueue := h.alike.queue
  have hleft := h.left.queue
  have hright := h.right.queue
  unfold ScriptedChip.giveByte
  cases ha : a.queue <;> cases hb : b.queue <;> rw [ha, hb] at hqueue
  case nil.nil => exact ⟨h.alike.idle, h⟩
  case nil.cons | cons.nil => cases hqueue
  case cons.cons head rest head' rest' =>
    obtain ⟨hbyte, hrest⟩ := List.cons.inj hqueue
    rw [ha, List.forall_mem_cons] at hleft
    rw [hb, List.forall_mem_cons] at hright
    exact ⟨hbyte, { h.alike with queue := hrest }, { h.left with queue := hleft.2 },
      { h.right with queue := hright.2 }⟩

theorem enqueue_now (h : Agree limit a b) (byte : UInt8) :
    Agree limit (a.enqueue [⟨0, byte⟩]) (b.enqueue [⟨0, byte⟩]) := by
  refine ⟨{ h.alike with queue := ?_ }, h.left.enqueue_now byte, h.right.enqueue_now byte⟩
  simp only [enqueue, List.map_append, h.alike.queue]

theorem withPending (h : Agree limit a b) (pending : Pending) :
    Agree limit { a with pending } { b with pending } :=
  ⟨{ h.alike with pending := rfl }, { h.left with }, { h.right with }⟩

theorem store (h : Agree limit a b) (address : Fin 32) (byte : UInt8) :
    Agree limit (a.store address byte) (b.store address byte) := by
  refine ⟨{ h.alike with ram := ?_ }, { h.left with }, { h.right with }⟩
  rw [ScriptedChip.store, ScriptedChip.store, h.alike.ram]

theorem takeCommand (h : Agree limit a b) (code : UInt8) :
    Agree limit (a.takeCommand code) (b.takeCommand code) := by
  unfold ScriptedChip.takeCommand
  rw [h.alike.pending]
  repeat' split
  · rw [h.alike.ram]
    exact h.enqueue_now _
  · exact h.withPending _
  · exact h.withPending _
  · exact h.withPending _
  · exact h

theorem takeData (h : Agree limit a b) (byte : UInt8) :
    Agree limit (a.takeData byte) (b.takeData byte) := by
  unfold ScriptedChip.takeData
  rw [h.alike.pending]
  -- A byte can be stored, come back, both or neither; then nothing is pending.
  cases b.pending.address? <;> cases b.pending.loop
  · exact h.withPending {}
  · exact (h.enqueue_now byte).withPending {}
  · exact (h.store _ byte).withPending {}
  · exact ((h.store _ byte).enqueue_now byte).withPending {}

theorem react (h : Agree limit a b) (channel : Channel) (byte : UInt8) :
    Agree limit (a.react channel byte) (b.react channel byte) := by
  refine ⟨{ h.alike with queue := ?_ }, h.left.react channel byte, h.right.react channel byte⟩
  simp only [ScriptedChip.react, enqueue, List.map_append, h.alike.queue, h.alike.answer]

theorem write (h : Agree limit a b) (port : Port) (byte : UInt8) :
    Agree limit (a.write port byte) (b.write port byte) := by
  cases port with
  | command => exact (h.takeCommand byte).react .controller byte
  | data =>
    rw [ScriptedChip.write, ScriptedChip.write, h.alike.pending]
    exact (h.takeData byte).react _ byte

end Agree

end ScriptedChip

end Ps2Host
