import Ps2Host.Proofs.Framing

/-!
# Orders that are left half open

Between a command and its parameter the wait for room can fail. Then the chip goes on waiting for
the parameter, and takes the next data byte for it, whoever sends it. On a scripted chip this is the
only way in which an operation leaves anything pending, except for a command that is given by
itself.

## Main definitions

* `Operation.HalfOpen` — the operation timed out between a command and the parameter it calls for.
* `Operation.channel?` — the device to which an operation sends its data bytes.
* `Operation.Delivers` — each data byte of the operation goes there.

## Main results

* `Turn.Framed.along`, `Turn.Framed.finds` — what framed turns leave pending, and what their data
  bytes find pending.
* `Operation.pending_perform`, `Operation.delivers_perform` — the same for operations.
* `Session.halfOpen_run` — what is pending after operations, and where data bytes go in sessions.
-/
namespace Ps2Host

open ScriptedChip (Pending)

/-! ## Waits -/

section Waits

variable {patience : Patience} {need : Need} {wait : Trace}

theorem Patience.Met.not_write (h : patience.Met need wait) (port : Port) (byte : UInt8) :
    .write port byte ∉ wait := by
  obtain ⟨missed, shown, rfl, -⟩ := h
  simp

theorem Patience.Missed.not_write (h : patience.Missed need wait) (port : Port) (byte : UInt8) :
    .write port byte ∉ wait := by
  obtain ⟨missed, rfl, -⟩ := h
  simp

end Waits

/-! ## Framed turns -/

namespace Turn

/-- The last two turns are a command and a wait for room that fails. -/
def HalfOpen (code : UInt8) (turns : List Turn) : Prop :=
  ∃ before first second stall,
    turns = before ++ [.sent first .command code, .stalled second .room stall]

theorem not_halfOpen_nil (code : UInt8) : ¬ HalfOpen code [] := by
  rintro ⟨_ | _, first, second, stall, h⟩ <;> cases h

theorem halfOpen_cons {code : UInt8} {turn : Turn} {turns : List Turn} :
    HalfOpen code (turn :: turns) ↔ HalfOpen code turns ∨
      ∃ first second stall, turn = .sent first .command code ∧
        turns = [.stalled second .room stall] := by
  constructor
  · rintro ⟨_ | ⟨other, before⟩, first, second, stall, h⟩
    · cases h
      exact .inr ⟨first, second, stall, rfl, rfl⟩
    · cases h
      exact .inl ⟨before, first, second, stall, rfl⟩
  · rintro (⟨before, first, second, stall, rfl⟩ | ⟨first, second, stall, rfl, rfl⟩)
    · exact ⟨turn :: before, first, second, stall, rfl⟩
    · exact ⟨[], first, second, stall, rfl⟩

variable {patience : Patience} {allowed : Frame → Prop} {turns : List Turn}

theorem Regular.along_trace {turn : Turn} (h : turn.Regular patience) (pending : Pending) :
    pending.along turn.trace = match turn with
      | .sent _ port byte => pending.pass (.write port byte)
      | .received _ _ | .stalled _ _ _ => pending := by
  cases turn with
  | sent wait port byte =>
    rw [trace, Pending.along_append, Pending.along_of_not_write (Patience.Met.not_write h)]
    rfl
  | received wait byte =>
    rw [trace, Pending.along_append, Pending.along_of_not_write (Patience.Met.not_write h)]
    rfl
  | stalled wait need stall => exact Pending.along_of_not_write h.1.not_write pending

/-- If no command stands alone that settles something, framed turns leave pending what an order that
is half open has settled, and nothing without one. -/
theorem Framed.along (h : Framed allowed turns) (hclosed : ∀ frame, allowed frame → frame.Closed)
    (hregular : ∀ turn ∈ turns, turn.Regular patience) :
    (∀ code, HalfOpen code turns →
      ({} : Pending).along (turns.flatMap trace) = ({} : Pending).settle code) ∧
    (({} : Pending).along (turns.flatMap trace) ≠ {} → ∃ code, HalfOpen code turns) := by
  induction h with
  | nil => exact ⟨fun code hopen => absurd hopen (not_halfOpen_nil code), fun h => absurd rfl h⟩
  | received wait byte _ ih | noByte wait stall _ ih =>
    obtain ⟨hfirst, hrest⟩ := List.forall_mem_cons.1 hregular
    simpa [halfOpen_cons, hfirst.along_trace] using ih hrest
  | noRoom wait stall =>
    obtain ⟨hfirst, -⟩ := List.forall_mem_cons.1 hregular
    simp [halfOpen_cons, not_halfOpen_nil, hfirst.along_trace]
  | data wait hframe _ ih =>
    obtain ⟨hfirst, hrest⟩ := List.forall_mem_cons.1 hregular
    simpa [halfOpen_cons, hfirst.along_trace, Pending.pass] using ih hrest
  | @command turns code wait hframe _ ih =>
    obtain ⟨hfirst, hrest⟩ := List.forall_mem_cons.1 hregular
    have hsettles : ({} : Pending).settle code = {} := hclosed _ hframe
    obtain ⟨hopen, hpending⟩ := ih hrest
    rw [List.flatMap_cons, Pending.along_append, hfirst.along_trace]
    simp only [Pending.pass, hsettles]
    refine ⟨fun other hother => ?_, fun hne => ?_⟩
    · obtain hother | ⟨first, second, stall, heq, rfl⟩ := halfOpen_cons.1 hother
      · exact hopen other hother
      · cases heq
        simp [(hrest _ List.mem_cons_self).along_trace, hsettles]
    · obtain ⟨other, hother⟩ := hpending hne
      exact ⟨other, halfOpen_cons.2 (.inl hother)⟩
  | order first second hframe _ ih =>
    obtain ⟨hfirst, hothers⟩ := List.forall_mem_cons.1 hregular
    obtain ⟨hsecond, hrest⟩ := List.forall_mem_cons.1 hothers
    simpa [halfOpen_cons, hfirst.along_trace, hsecond.along_trace, Pending.pass] using ih hrest
  | halfOrder first second stall hframe =>
    obtain ⟨hfirst, hothers⟩ := List.forall_mem_cons.1 hregular
    have hsecond := hothers _ List.mem_cons_self
    simp [halfOpen_cons, not_halfOpen_nil, hfirst.along_trace, hsecond.along_trace, Pending.pass]

/-- What the data byte of a turn finds pending, if it sends one. -/
theorem Regular.finds_trace {turn : Turn} (h : turn.Regular patience) {P : Pending → Prop}
    {pending : Pending} (hdata : ∀ wait byte, turn = .sent wait .data byte → P pending) :
    Pending.Finds P pending turn.trace := by
  have moved {wait : Trace} {access : Access} (hwait : ∀ port byte, .write port byte ∉ wait)
      (hfound : ∀ byte, access = .write .data byte → P pending) :
      Pending.Finds P pending (wait ++ [access]) := by
    refine Pending.finds_append (Pending.finds_of_not_write (hwait .data) pending) ?_
    rw [Pending.along_of_not_write hwait]
    exact Pending.finds_cons hfound Pending.finds_nil
  cases turn with
  | sent wait port byte =>
    refine moved (Patience.Met.not_write h) fun other heq => hdata wait other ?_
    cases heq
    rfl
  | received wait byte => exact moved (Patience.Met.not_write h) nofun
  | stalled wait need stall => exact Pending.finds_of_not_write (h.1.not_write .data) pending

/-- What the data bytes of framed turns find pending is what their own frames have settled. -/
theorem Framed.finds {P : Pending → Prop} (hdata : ∀ byte, allowed (.data byte) → P {})
    (horder : ∀ code byte, allowed (.order code byte) → P (({} : Pending).settle code))
    (hclosed : ∀ frame, allowed frame → frame.Closed) (h : Framed allowed turns)
    (hregular : ∀ turn ∈ turns, turn.Regular patience) :
    Pending.Finds P {} (turns.flatMap trace) := by
  induction h with
  | nil => exact Pending.finds_nil
  | received wait byte _ ih | noByte wait stall _ ih =>
    obtain ⟨hfirst, hrest⟩ := List.forall_mem_cons.1 hregular
    refine Pending.finds_append (hfirst.finds_trace nofun) ?_
    rw [hfirst.along_trace]
    exact ih hrest
  | noRoom wait stall =>
    obtain ⟨hfirst, -⟩ := List.forall_mem_cons.1 hregular
    exact Pending.finds_append (hfirst.finds_trace nofun) Pending.finds_nil
  | data wait hframe _ ih =>
    obtain ⟨hfirst, hrest⟩ := List.forall_mem_cons.1 hregular
    refine Pending.finds_append (hfirst.finds_trace fun _ _ _ => hdata _ hframe) ?_
    rw [hfirst.along_trace]
    exact ih hrest
  | @command turns code wait hframe _ ih =>
    obtain ⟨hfirst, hrest⟩ := List.forall_mem_cons.1 hregular
    have hsettles : ({} : Pending).settle code = {} := hclosed _ hframe
    refine Pending.finds_append (hfirst.finds_trace nofun) ?_
    rw [hfirst.along_trace]
    simp only [Pending.pass, hsettles]
    exact ih hrest
  | order first second hframe _ ih =>
    obtain ⟨hfirst, hothers⟩ := List.forall_mem_cons.1 hregular
    obtain ⟨hsecond, hrest⟩ := List.forall_mem_cons.1 hothers
    refine Pending.finds_append (hfirst.finds_trace nofun) ?_
    rw [hfirst.along_trace]
    refine Pending.finds_append (hsecond.finds_trace fun _ _ _ => horder _ _ hframe) ?_
    rw [hsecond.along_trace]
    exact ih hrest
  | halfOrder first second stall hframe =>
    obtain ⟨hfirst, hothers⟩ := List.forall_mem_cons.1 hregular
    have hsecond := hothers _ List.mem_cons_self
    refine Pending.finds_append (hfirst.finds_trace nofun) ?_
    exact Pending.finds_append (hsecond.finds_trace nofun) Pending.finds_nil

theorem Framed.not_halfOpen (h : Framed Frame.ForKeyboard turns) (code : UInt8) :
    ¬ HalfOpen code turns := by
  induction h with
  | nil => exact not_halfOpen_nil code
  | received wait byte _ ih | noByte wait stall _ ih | data wait hframe _ ih =>
    simpa [halfOpen_cons] using ih
  | noRoom wait stall => simp [halfOpen_cons, not_halfOpen_nil]
  | command wait hframe | order first second hframe | halfOrder first second stall hframe =>
    cases hframe

end Turn

/-! ## Operations -/

theorem not_write_mem_flush {σ : Type} [Chip σ] (limit : Nat) (chip : σ) (port : Port)
    (byte : UInt8) : .write port byte ∉ (flush limit chip).trace := by
  induction limit generalizing chip with
  | zero => simp [Run.pure]
  | succ limit ih =>
    rw [flush_succ]
    cases hbyte : hasByte (.ofBits (Chip.status chip).1) <;>
      simp [Run.status, Run.read, Run.andThen, Run.map, Run.pure, hbyte, ih]

theorem Controller.Probe.not_write_mem_trace {σ : Type} [Chip σ] (p : Probe) (patience : Patience)
    (chip : σ) (port : Port) (byte : UInt8) :
    .write port byte ∉ (p.perform patience chip).trace := by
  have waited (need : Need) : .write port byte ∉ (patience.await need chip).trace := by
    obtain ⟨-, hmet⟩ | ⟨-, hmissed⟩ := patience.await_cases need chip
    · exact hmet.not_write port byte
    · exact hmissed.not_write port byte
  cases p with
  | status => simp [perform, Run.status, Run.map]
  | awaitByte => exact waited .byte
  | awaitRoom => exact waited .room
  | flush =>
    have hreport (count : Nat) (chip : σ) : (reportFlush count chip).trace = [] := by
      unfold reportFlush
      split <;> rfl
    simpa [perform, Run.andThen, hreport] using not_write_mem_flush _ chip port byte

namespace Operation

def channel? : Operation → Option ScriptedChip.Channel
  | probe _ | controller _ => none
  | keyboard _ => some .keyboard
  | mouse _ => some .mouse

/-- The operation gives a command that calls for a data byte, and then times out while it waits for
room for that byte. -/
structure HalfOpen {σ : Type} [Chip σ] (operation : Operation) (c : Controller) (chip : σ)
    (code : UInt8) : Prop where
  calls : code &&& 0xE0 = 0x60 ∨ code = 0xD2 ∨ code = 0xD3 ∨ code = 0xD4
  turns : Turn.HalfOpen code (operation.turns c chip)
  result : (operation.perform c chip).1.result = operation.failure (.stalled .timeout)

/-- Each data byte of the operation goes to its device. -/
def Delivers (operation : Operation) (c : Controller) (chip : ScriptedChip) : Prop :=
  ∀ channel, operation.channel? = some channel → ∀ before byte after,
    (operation.perform c chip).1.trace = before ++ .write .data byte :: after →
    ScriptedChip.Delivers channel (Trace.replay before chip) byte

def frames : Operation → Frame → Prop
  | probe _ | controller _ => Frame.Closed
  | keyboard _ => Frame.ForKeyboard
  | mouse _ => Frame.ForMouse

theorem closed_of_frames (operation : Operation) (frame : Frame) (h : operation.frames frame) :
    frame.Closed := by
  cases operation <;> cases frame <;> first | exact h | trivial

theorem framed_turns_of_plan {σ ε α : Type} [Chip σ] [Controller.Fault ε] {allowed : Frame → Prop}
    {plan : Except ε (Exchange ε α)} (hplan : ∀ x, plan = .ok x → x.Framed allowed)
    (c : Controller) (chip : σ) : Turn.Framed allowed (c.turns plan chip) := by
  cases plan with
  | error e => exact .nil
  | ok x =>
    rw [Controller.turns]
    split
    · exact .nil
    · exact (hplan x rfl).of_course (Exchange.course_turns c.patience x chip)

/-- The turns of an operation are those of its frames. -/
theorem framed_turns {σ : Type} [Chip σ] {operation : Operation}
    (hraw : ∀ code, operation ≠ .controller (.sendCommand code)) (c : Controller) (chip : σ) :
    Turn.Framed operation.frames (operation.turns c chip) := by
  cases operation with
  | probe p =>
    have waited (need : Need) (wait : Run σ (Except Stall Unit)) :
        Turn.Framed Frame.Closed (Controller.Probe.turns.stalled need wait) := by
      unfold Controller.Probe.turns.stalled
      split
      · cases need with
        | byte => exact .noByte _ _ .nil
        | room => exact .noRoom _ _
      · exact .nil
    cases p with
    | status | flush => exact .nil
    | awaitByte => exact waited .byte _
    | awaitRoom => exact waited .room _
  | controller request =>
    have hframed : request.exchange.Framed Frame.Closed :=
      Controller.Request.framed_exchange fun code heq => hraw code (heq ▸ rfl)
    exact hframed.of_course (Exchange.course_turns c.patience request.exchange chip)
  | keyboard request => exact framed_turns_of_plan (fun _ => Keyboard.Request.framed_plan) c chip
  | mouse request => exact framed_turns_of_plan (fun _ => Mouse.Request.framed_plan) c chip

theorem length_turns_probe {σ : Type} [Chip σ] (p : Controller.Probe) (c : Controller) (chip : σ) :
    ((probe p).turns c chip).length ≤ 1 := by
  cases p with
  | status | flush => exact Nat.zero_le 1
  | awaitByte | awaitRoom =>
    show (Controller.Probe.turns.stalled _ _).length ≤ 1
    unfold Controller.Probe.turns.stalled
    split <;> simp

theorem result_of_halfOpen {σ : Type} [Chip σ] {operation : Operation} {c : Controller} {chip : σ}
    {code : UInt8} (h : Turn.HalfOpen code (operation.turns c chip)) :
    (operation.perform c chip).1.result = operation.failure (.stalled .timeout) := by
  obtain ⟨before, first, second, stall, hturns⟩ := h
  have hstalled : operation.turns c chip =
      (before ++ [.sent first .command code]) ++ .stalled second .room stall :: [] := by
    simp [hturns]
  -- The exception that is no failure ends in a wait for a byte.
  have hexcused : ¬ operation.Excused (operation.turns c chip) := by
    rintro ⟨-, room, reply, silence, hsilent⟩
    rw [hturns] at hsilent
    have hlast := congrArg List.getLast? hsilent
    simp at hlast
  obtain ⟨-, hregular⟩ := operation.trace_of_turns c chip (by simp [hturns])
  obtain ⟨-, rfl⟩ := hregular (.stalled second .room stall) (by simp [hturns])
  exact ((account_perform operation c chip).of_stall hstalled).2.2 hexcused

theorem along_trace {σ : Type} [Chip σ] {operation : Operation}
    (hraw : ∀ code, operation ≠ .controller (.sendCommand code)) (c : Controller) (chip : σ) :
    (∀ code, Turn.HalfOpen code (operation.turns c chip) →
      ({} : Pending).along (operation.perform c chip).1.trace = ({} : Pending).settle code) ∧
    (({} : Pending).along (operation.perform c chip).1.trace ≠ {} →
      ∃ code, Turn.HalfOpen code (operation.turns c chip)) := by
  by_cases hprobe : ∀ probe, operation ≠ .probe probe
  · obtain ⟨htrace, hregular, -⟩ := operation.turns_orderly hprobe c chip
    rw [htrace]
    exact (framed_turns hraw c chip).along operation.closed_of_frames hregular
  · obtain ⟨p, hp⟩ := Classical.not_forall.1 hprobe
    obtain rfl := Classical.not_not.1 hp
    have hclear := Pending.along_of_not_write (p.not_write_mem_trace c.patience chip) {}
    refine ⟨?_, fun hne => absurd hclear hne⟩
    rintro code ⟨before, first, second, stall, hturns⟩
    have hlength := congrArg List.length hturns
    have hshort := length_turns_probe p c chip
    simp only [List.length_append, List.length_cons, List.length_nil] at hlength
    omega

/-- On a scripted chip with nothing pending, an operation that does not give a raw command leaves
something pending if and only if it leaves an order half open, and that is what is pending then. -/
theorem pending_perform {operation : Operation}
    (hraw : ∀ code, operation ≠ .controller (.sendCommand code)) (c : Controller)
    {chip : ScriptedChip} (hclear : chip.pending = {}) :
    ((operation.perform c chip).1.chip.pending ≠ {} ↔ ∃ code, operation.HalfOpen c chip code) ∧
      ∀ code, operation.HalfOpen c chip code →
        (operation.perform c chip).1.chip.pending = ({} : Pending).settle code := by
  have hpending : (operation.perform c chip).1.chip.pending =
      ({} : Pending).along (operation.perform c chip).1.trace := by
    rw [← hclear, ← ScriptedChip.pending_replay, ← operation.replays_perform c chip]
  obtain ⟨hopen, hne⟩ := along_trace hraw c chip
  rw [hpending]
  refine ⟨⟨fun hpending => ?_, ?_⟩, fun code hhalf => hopen code hhalf.turns⟩
  · obtain ⟨code, hhalf⟩ := hne hpending
    have hcalls := Pending.settle_ne_clear.1 (hopen code hhalf ▸ hpending)
    exact ⟨code, hcalls, hhalf, result_of_halfOpen hhalf⟩
  · rintro ⟨code, hhalf⟩
    rw [hopen code hhalf.turns]
    exact Pending.settle_ne_clear.2 hhalf.calls

theorem pending_keyboard (request : Keyboard.Request) (c : Controller) {chip : ScriptedChip}
    (hclear : chip.pending = {}) :
    ((keyboard request).perform c chip).1.chip.pending = {} := by
  have hraw : ∀ code, keyboard request ≠ .controller (.sendCommand code) := nofun
  refine Decidable.byContradiction fun hne => ?_
  obtain ⟨code, hhalf⟩ := (pending_perform hraw c hclear).1.1 hne
  exact (framed_turns hraw c chip).not_halfOpen code hhalf.turns

/-- With nothing pending before, each data byte of a device operation goes to its device. -/
theorem delivers_perform (operation : Operation) (c : Controller) {chip : ScriptedChip}
    (hclear : chip.pending = {}) : operation.Delivers c chip := by
  intro channel hchannel before byte after hsplit
  have hpending : (Trace.replay before chip).pending = ({} : Pending).along before := by
    rw [ScriptedChip.pending_replay, hclear]
  have found {P : Pending → Prop} (hraw : ∀ code, operation ≠ .controller (.sendCommand code))
      (hprobe : ∀ probe, operation ≠ .probe probe)
      (hdata : ∀ byte, operation.frames (.data byte) → P {})
      (horder : ∀ code byte, operation.frames (.order code byte) →
        P (({} : Pending).settle code)) : P (({} : Pending).along before) := by
    obtain ⟨htrace, hregular, -⟩ := operation.turns_orderly hprobe c chip
    have hfinds := (framed_turns hraw c chip).finds hdata horder operation.closed_of_frames hregular
    exact hfinds before byte after (htrace ▸ hsplit)
  cases operation with
  | probe | controller => cases hchannel
  | keyboard request =>
    cases hchannel
    refine ScriptedChip.delivers_of_pending false ?_ byte
    rw [hpending]
    exact found (P := (· = {})) nofun nofun (fun _ _ => rfl) nofun
  | mouse request =>
    cases hchannel
    refine ScriptedChip.delivers_of_pending true ?_ byte
    rw [hpending]
    refine found (P := (· = { mouse := true })) nofun nofun nofun fun code byte hframe => ?_
    cases hframe
    decide +kernel

end Operation

/-! ## Sessions -/

namespace Session

/-- Where no order is left half open and no command is given by itself, each data byte of a device
operation goes to its device. -/
theorem delivers_run {s : Session ScriptedChip} (hclear : s.chip.pending = {}) {steps : List Step}
    (hraw : ∀ code, .operation (.controller (.sendCommand code)) ∉ steps)
    (hclosed : s.EachOperation (fun operation c chip => ∀ code, ¬ operation.HalfOpen c chip code)
      steps) :
    (s.run steps).1.chip.pending = {} ∧ s.EachOperation Operation.Delivers steps := by
  induction steps generalizing s with
  | nil => exact ⟨hclear, trivial⟩
  | cons step rest ih =>
    have hnext : (s.step step).1.chip.pending = {} := by
      cases step with
      | operation operation =>
        have hnot : ∀ code, operation ≠ .controller (.sendCommand code) := fun code heq =>
          hraw code (heq ▸ List.mem_cons_self)
        refine Decidable.byContradiction fun hne => ?_
        obtain ⟨code, hhalf⟩ := (Operation.pending_perform hnot s.controller hclear).1.1 hne
        exact hclosed.1 operation rfl code hhalf
      | lease lease =>
        show (s.stepLease lease).1.chip.pending = {}
        rw [chip_stepLease, hclear]
      | setting setting => cases setting <;> exact hclear
      | log | isDebug => exact hclear
    obtain ⟨hlast, hrest⟩ := ih hnext
      (fun code hmem => hraw code (List.mem_cons_of_mem step hmem)) hclosed.2
    exact ⟨hlast, fun operation _ => operation.delivers_perform s.controller hclear, hrest⟩

/-- With nothing pending at first, an operation leaves something pending if and only if it leaves an
order half open. Then just that is pending, and the next data byte is taken for the parameter,
whatever sends it. While no order is left half open, each data byte of a device operation goes to
its device. -/
theorem halfOpen_run (s : Session ScriptedChip) (hclear : s.chip.pending = {}) :
    (∀ operation, (∀ code, operation ≠ .controller (.sendCommand code)) →
      let later := (s.step (.operation operation)).1
      (later.chip.pending ≠ {} ↔ ∃ code, operation.HalfOpen s.controller s.chip code) ∧
      (operation.channel? = some .keyboard → later.chip.pending = {}) ∧
      ∀ code, operation.HalfOpen s.controller s.chip code →
        later.chip.pending = ({} : Pending).settle code ∧
        ∀ steps before byte after,
          (later.run steps).2.flatMap Record.trace = before ++ .write .data byte :: after →
          (∀ other, .write .data other ∉ before) →
          let taker := Trace.replay before later.chip
          (later.run steps).1.chip = Trace.replay after (taker.write .data byte) ∧
            ScriptedChip.TakenFor code before taker byte) ∧
    (∀ steps, (∀ code, .operation (.controller (.sendCommand code)) ∉ steps) →
      s.EachOperation (fun operation c chip => ∀ code, ¬ operation.HalfOpen c chip code) steps →
      (s.run steps).1.chip.pending = {} ∧ s.EachOperation Operation.Delivers steps) := by
  refine ⟨fun operation hraw => ?_, fun steps => delivers_run hclear⟩
  intro later
  obtain ⟨hiff, hleft⟩ := Operation.pending_perform hraw s.controller hclear
  refine ⟨hiff, fun hkeyboard => ?_, fun code hhalf => ⟨hleft code hhalf, ?_⟩⟩
  · cases operation with
    | keyboard request => exact Operation.pending_keyboard request s.controller hclear
    | probe | controller | mouse => cases hkeyboard
  · intro steps before byte after hsplit hnext taker
    refine ⟨?_, ScriptedChip.takenFor_replay (hleft code hhalf) hnext byte⟩
    rw [chip_run, hsplit, Trace.replay_append]
    rfl

/-- The mouse gets the byte that a keyboard should echo, as an order to it was left half open. -/
theorem halfOpen_run_echo :
    let s : Session ScriptedChip :=
      { controller := { patience := { limit := 1 } }, chip := { busyAfter := .polls 2 } }
    let operation := Operation.mouse .setDefaults
    let later := (s.step (.operation operation)).1
    let steps := [.setting (.setLimit 2), .operation (.keyboard .echo)]
    let before := [.status 2, .status 0]
    s.chip.pending = {} ∧ (∀ code, operation ≠ .controller (.sendCommand code)) ∧
      operation.HalfOpen s.controller s.chip 0xD4 ∧
      (later.run steps).2.flatMap Record.trace =
        before ++ .write .data 0xEE :: [.status 2, .status 2] ∧
      (∀ other, .write .data other ∉ before) ∧
      ScriptedChip.TakenFor 0xD4 before (Trace.replay before later.chip) 0xEE := by
  intro s operation later steps before
  have hturns : Turn.HalfOpen 0xD4 (operation.turns s.controller s.chip) :=
    ⟨[], [.status 0], [.status 2], .timeout, by decide +kernel⟩
  have hhalf : operation.HalfOpen s.controller s.chip 0xD4 :=
    ⟨by decide, hturns, Operation.result_of_halfOpen hturns⟩
  have hsplit : (later.run steps).2.flatMap Record.trace =
      before ++ .write .data 0xEE :: [.status 2, .status 2] := by decide +kernel
  have hnext : ∀ other, .write .data other ∉ before := by simp [before]
  refine ⟨rfl, nofun, hhalf, hsplit, hnext, ?_⟩
  have hleft := ((halfOpen_run s rfl).1 operation nofun).2.2 0xD4 hhalf
  exact (hleft.2 steps before 0xEE _ hsplit hnext).2

end Session

end Ps2Host
