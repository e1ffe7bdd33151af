import Ps2Host.Chip.Scripted
import Ps2Host.Proofs.Replay

/-!
# What is settled about the next data byte

Some commands settle what happens to the next data byte: it is stored, it comes back, or it goes to
the mouse. On a scripted chip this follows from the commands and data bytes of a trace alone, in
whatever state the rest of the chip is.

## Main definitions

* `ScriptedChip.Pending.settle`, `ScriptedChip.Pending.along` — what a command, and what a whole
  trace, makes of what is pending.
* `ScriptedChip.Pending.Finds` — what the data bytes of a trace find pending.
* `ScriptedChip.Delivers` — a data byte goes to one device and nowhere else.
* `ScriptedChip.TakenFor` — a data byte is taken for the parameter of an earlier command.

## Main results

* `ScriptedChip.pending_replay` — what is pending on the chip after a trace.
* `ScriptedChip.ram_replay` — memory is written by data bytes that find an address, and only by
  them.
* `ScriptedChip.takenFor_replay` — the next data byte after a command that calls for one.
-/
namespace Ps2Host.ScriptedChip

namespace Pending

def settle (pending : Pending) (code : UInt8) : Pending :=
  if code &&& 0xE0 = 0x60 then { pending with address? := some (address code) }
  else if code = 0xD2 ∨ code = 0xD3 then { pending with loop := true }
  else if code = 0xD4 then { pending with mouse := true }
  else pending

theorem settle_ne_clear {code : UInt8} : ({} : Pending).settle code ≠ {} ↔
    code &&& 0xE0 = 0x60 ∨ code = 0xD2 ∨ code = 0xD3 ∨ code = 0xD4 := by
  rw [settle]
  by_cases haddress : code &&& 0xE0 = 0x60
  · simp [haddress]
  · by_cases hloop : code = 0xD2 ∨ code = 0xD3
    · rw [if_neg haddress, if_pos hloop]
      exact ⟨fun _ => .inr (or_assoc.1 (.inl hloop)), fun _ => nofun⟩
    · by_cases hmouse : code = 0xD4 <;> simp_all

theorem settle_loop {pending : Pending} (h : pending.loop = true) (code : UInt8) :
    (pending.settle code).loop = true := by
  unfold settle
  repeat' split
  all_goals first | exact h | rfl

theorem settle_mouse {pending : Pending} (h : pending.mouse = true) (code : UInt8) :
    (pending.settle code).mouse = true := by
  unfold settle
  repeat' split
  all_goals first | exact h | rfl

theorem settle_address (pending : Pending) {code : UInt8} (h : code &&& 0xE0 ≠ 0x60) :
    (pending.settle code).address? = pending.address? := by
  rw [settle, if_neg h]
  repeat' split
  all_goals rfl

/-- What is pending after an access: a data byte uses up what was. -/
def pass (pending : Pending) : Access → Pending
  | .status _ | .read _ => pending
  | .write .command code => pending.settle code
  | .write .data _ => {}

def along (pending : Pending) (trace : Trace) : Pending := trace.foldl pass pending

@[simp] theorem along_nil (pending : Pending) : pending.along [] = pending := rfl

@[simp] theorem along_cons (pending : Pending) (access : Access) (rest : Trace) :
    pending.along (access :: rest) = (pending.pass access).along rest := rfl

@[simp] theorem along_append (pending : Pending) (s t : Trace) :
    pending.along (s ++ t) = (pending.along s).along t :=
  List.foldl_append

theorem along_of_not_write {trace : Trace} (h : ∀ port byte, .write port byte ∉ trace)
    (pending : Pending) : pending.along trace = pending := by
  induction trace with
  | nil => rfl
  | cons access rest ih =>
    have hrest := ih fun port byte hmem => h port byte (List.mem_cons_of_mem access hmem)
    cases access with
    | status | read => exact hrest
    | write port byte => exact absurd List.mem_cons_self (h port byte)

/-- What is pending stays so until the next data byte, except that another address can take the
place of the one that was settled. -/
theorem along_of_no_data {trace : Trace} (hdata : ∀ byte, .write .data byte ∉ trace)
    (pending : Pending) :
    (pending.loop = true → (pending.along trace).loop = true) ∧
    (pending.mouse = true → (pending.along trace).mouse = true) ∧
    ∀ code, pending.address? = some (address code) →
      ∃ settled, (settled = code ∨ .write .command settled ∈ trace ∧ settled &&& 0xE0 = 0x60) ∧
        (pending.along trace).address? = some (address settled) := by
  induction trace generalizing pending with
  | nil => exact ⟨id, id, fun code hcode => ⟨code, .inl rfl, hcode⟩⟩
  | cons access rest ih =>
    obtain ⟨hloop, hmouse, haddress⟩ := ih
      (fun byte hmem => hdata byte (List.mem_cons_of_mem access hmem)) (pending.pass access)
    have later {settled code : UInt8}
        (h : settled = code ∨ .write .command settled ∈ rest ∧ settled &&& 0xE0 = 0x60) :
        settled = code ∨ .write .command settled ∈ access :: rest ∧ settled &&& 0xE0 = 0x60 :=
      h.imp_right (And.imp_left (List.mem_cons_of_mem access))
    cases access with
    | status | read =>
      refine ⟨hloop, hmouse, fun code hcode => ?_⟩
      obtain ⟨settled, hsettled, hfound⟩ := haddress code hcode
      exact ⟨settled, later hsettled, hfound⟩
    | write port command =>
      cases port with
      | data => exact absurd List.mem_cons_self (hdata command)
      | command =>
        refine ⟨fun h => hloop (settle_loop h command), fun h => hmouse (settle_mouse h command),
          fun code hcode => ?_⟩
        by_cases hsettles : command &&& 0xE0 = 0x60
        · have hcommand : (pending.settle command).address? = some (address command) := by
            rw [settle, if_pos hsettles]
          obtain ⟨settled, hsettled, hfound⟩ := haddress command hcommand
          refine ⟨settled, .inr ?_, hfound⟩
          obtain rfl | ⟨hmem, hcalls⟩ := hsettled
          · exact ⟨List.mem_cons_self, hsettles⟩
          · exact ⟨List.mem_cons_of_mem _ hmem, hcalls⟩
        · obtain ⟨settled, hsettled, hfound⟩ := haddress code
            ((settle_address pending hsettles).trans hcode)
          exact ⟨settled, later hsettled, hfound⟩

/-- Each data byte of a trace finds pending what `P` says. -/
def Finds (P : Pending → Prop) (pending : Pending) (trace : Trace) : Prop :=
  ∀ before byte after, trace = before ++ .write .data byte :: after → P (pending.along before)

variable {P : Pending → Prop} {pending : Pending}

theorem finds_nil : Finds P pending [] := by
  intro before byte after hsplit
  cases before <;> cases hsplit

theorem finds_cons {access : Access} {rest : Trace}
    (hfirst : ∀ byte, access = .write .data byte → P pending)
    (hrest : Finds P (pending.pass access) rest) : Finds P pending (access :: rest) := by
  intro before byte after hsplit
  cases before with
  | nil =>
    cases hsplit
    exact hfirst byte rfl
  | cons first before =>
    obtain ⟨rfl, htail⟩ := List.cons_eq_cons.1 hsplit
    exact hrest before byte after htail

theorem finds_append {s t : Trace} (hs : Finds P pending s) (ht : Finds P (pending.along s) t) :
    Finds P pending (s ++ t) := by
  induction s generalizing pending with
  | nil => exact ht
  | cons access rest ih =>
    refine finds_cons (fun byte haccess => ?_) (ih (fun before byte after hsplit => ?_) ht)
    · exact hs [] byte rest (haccess ▸ rfl)
    · exact hs (access :: before) byte after (by rw [hsplit, List.cons_append])

theorem finds_of_not_write {P : Pending → Prop} {trace : Trace}
    (h : ∀ byte, .write .data byte ∉ trace) (pending : Pending) : Finds P pending trace := by
  intro before byte after hsplit
  exact absurd (by simp [hsplit]) (h byte)

end Pending

variable {chip : ScriptedChip}

theorem pending_takeCommand (chip : ScriptedChip) (code : UInt8) :
    (chip.takeCommand code).pending = chip.pending.settle code := by
  unfold takeCommand Pending.settle
  by_cases hread : code &&& 0xE0 = 0x20
  · -- A command that reads memory is none of those that settle something.
    have hstore : code &&& 0xE0 ≠ 0x60 := by rw [hread]; decide
    have hloop : ¬ (code = 0xD2 ∨ code = 0xD3) := by rintro (rfl | rfl) <;> exact nomatch hread
    have hmouse : code ≠ 0xD4 := by rintro rfl; exact nomatch hread
    simp [hread, hloop, hmouse, enqueue]
  · rw [if_neg hread]
    repeat' split
    all_goals rfl

theorem pending_apply (chip : ScriptedChip) (access : Access) :
    (access.apply chip).pending = chip.pending.pass access := by
  rcases access with _ | _ | ⟨_ | _, byte⟩
  · rfl
  · show chip.giveByte.2.pending = chip.pending
    unfold giveByte
    split <;> rfl
  · rfl
  · exact chip.pending_takeCommand byte

/-- What is pending after a trace follows from what was before it. -/
theorem pending_replay (trace : Trace) (chip : ScriptedChip) :
    (trace.replay chip).pending = chip.pending.along trace := by
  induction trace generalizing chip with
  | nil => rfl
  | cons access rest ih => rw [Trace.replay_cons, ih, pending_apply, Pending.along_cons]

/-! ## What becomes of a data byte -/

/-- The byte goes to a device, and is neither stored in memory nor comes back. -/
structure Delivers (channel : Channel) (chip : ScriptedChip) (byte : UInt8) : Prop where
  address : chip.pending.address? = none
  loop : chip.pending.loop = false
  write_eq : chip.write .data byte = { chip with pending := {} }.react channel byte

theorem delivers_of_pending (mouse : Bool) (h : chip.pending = { mouse }) (byte : UInt8) :
    Delivers (Pending.channel { mouse }) chip byte := by
  refine ⟨by rw [h], by rw [h], ?_⟩
  simp [write, takeData, h]

/-- A byte that finds an address is stored there. -/
theorem ram_write_data {address : Fin 32} (h : chip.pending.address? = some address)
    (byte : UInt8) : (chip.write .data byte).ram = (chip.store address byte).ram := by
  unfold write takeData
  simp only [h]
  split <;> rfl

theorem ram_write_data_of_none (h : chip.pending.address? = none) (byte : UInt8) :
    (chip.write .data byte).ram = chip.ram := by
  unfold write takeData
  simp only [h]
  split <;> rfl

/-- A byte that finds the loop comes back before any answer to it. -/
theorem queue_write_data (h : chip.pending.loop = true) (byte : UInt8) :
    (chip.write .data byte).queue =
      chip.queue ++ ⟨0, byte⟩ :: chip.answer chip.pending.channel byte := by
  unfold write takeData
  simp only [h]
  cases chip.pending.address? <;>
    simp [react, enqueue, answer, store]

theorem ram_apply (chip : ScriptedChip) {access : Access}
    (h : ∀ byte, access = .write .data byte → chip.pending.address? = none) :
    (access.apply chip).ram = chip.ram := by
  rcases access with _ | _ | ⟨_ | _, byte⟩
  · rfl
  · show chip.giveByte.2.ram = chip.ram
    unfold giveByte
    split <;> rfl
  · exact ram_write_data_of_none (h byte rfl) byte
  · show (chip.takeCommand byte).ram = chip.ram
    unfold takeCommand
    repeat' split
    all_goals rfl

theorem ram_replay {trace : Trace}
    (h : Pending.Finds (fun pending => pending.address? = none) chip.pending trace) :
    (trace.replay chip).ram = chip.ram := by
  induction trace generalizing chip with
  | nil => rfl
  | cons access rest ih =>
    have hrest : Pending.Finds (fun pending => pending.address? = none)
        (access.apply chip).pending rest := by
      intro before byte after hsplit
      rw [pending_apply]
      exact h (access :: before) byte after (by rw [hsplit, List.cons_append])
    rw [Trace.replay_cons, ih hrest]
    exact chip.ram_apply fun byte haccess => h [] byte rest (haccess ▸ rfl)

/-- A data byte is taken for the parameter of the command, whoever sends it: it is stored, unless a
later command has settled another address, it comes back, or it goes to the mouse. -/
structure TakenFor (code : UInt8) (before : Trace) (taker : ScriptedChip)
    (byte : UInt8) : Prop where
  stored : code &&& 0xE0 = 0x60 → ∃ settled,
    (settled = code ∨ .write .command settled ∈ before ∧ settled &&& 0xE0 = 0x60) ∧
      (taker.write .data byte).ram = (taker.store (address settled) byte).ram
  looped : code = 0xD2 ∨ code = 0xD3 → (taker.write .data byte).queue =
    taker.queue ++ ⟨0, byte⟩ :: taker.answer taker.pending.channel byte
  toMouse : code = 0xD4 → taker.write .data byte = (taker.takeData byte).react .mouse byte

/-- The next data byte after a command that calls for one is taken for it. -/
theorem takenFor_replay {chip : ScriptedChip} {code : UInt8}
    (hpending : chip.pending = ({} : Pending).settle code) {before : Trace}
    (hnext : ∀ byte, .write .data byte ∉ before) (byte : UInt8) :
    TakenFor code before (Trace.replay before chip) byte := by
  obtain ⟨hloop, hmouse, haddress⟩ := Pending.along_of_no_data hnext (({} : Pending).settle code)
  rw [← hpending, ← pending_replay] at hloop hmouse haddress
  rw [hpending] at hloop hmouse haddress
  refine ⟨fun hcode => ?_, fun hcode => ?_, fun hcode => ?_⟩
  · obtain ⟨settled, hsettled, hfound⟩ := haddress code (by rw [Pending.settle, if_pos hcode])
    exact ⟨settled, hsettled, ram_write_data hfound byte⟩
  · refine queue_write_data (hloop ?_) byte
    obtain rfl | rfl := hcode <;> rfl
  · have hchannel : (Trace.replay before chip).pending.channel = .mouse := by
      rw [Pending.channel, hmouse (by rw [hcode]; rfl)]
      rfl
    rw [write, hchannel]

end Ps2Host.ScriptedChip
