import Mathlib.Data.List.Basic
import Ps2Host.Proofs.Handshake
import Ps2Host.Proofs.Parameters

/-!
# What a mouse says of its settings

A mouse is told its resolution and its sample rate in one byte each, and gives both back in its
status. The host reads them by the tables that it sends them by, one the other way round: so a mouse
that reports the bytes which it was sent last is understood to have the settings that were asked for
last.

## Main definitions

* `Trace.dataSent` — the bytes written to the data port.
* `Session.LastSent` — the last value to which a setting was set with success, and the byte sent for
  it.

## Main results

* `Mouse.Status.ofBytes_eq_ok_iff` — a status is understood if its bytes stand for settings.
* `Session.dataSent_step` — what is sent for a setting is the byte that stands for it.
* `Session.run_status` — the status is read in full before it is judged, and settings come back.
-/
namespace Ps2Host

/-! ## Bytes that stand for settings -/

theorem Parameter.Encoded.resolution_inj {countsPerMm index other : UInt8}
    (h : Encoded (.resolution countsPerMm) index) (h' : Encoded (.resolution countsPerMm) other) :
    index = other := by
  cases h with
  | resolution _ hpower =>
    cases h' with
    | resolution _ hpower' =>
      exact UInt8.toNat_inj.1 ((Nat.pow_right_inj Nat.one_lt_two).1 (hpower.symm.trans hpower'))

theorem Parameter.Encoded.sampleRate_eq {perSecond byte : UInt8}
    (h : Encoded (.sampleRate perSecond) byte) : byte = perSecond := by
  cases h
  rfl

namespace Mouse

theorem resolution?_eq (index : UInt8) :
    resolution? index = if index < 4 then some (.ofNat (Nat.pow 2 index.toNat)) else none := by
  obtain ⟨bits⟩ := index
  revert bits
  decide +kernel

/-- The table read by number is the table that is searched for a resolution. -/
theorem resolution?_eq_some_iff {index countsPerMm : UInt8} :
    resolution? index = some countsPerMm ↔ Parameter.Encoded (.resolution countsPerMm) index := by
  have hpower (hindex : index < 4) :
      (UInt8.ofNat (Nat.pow 2 index.toNat)).toNat = Nat.pow 2 index.toNat := by
    obtain ⟨bits⟩ := index
    revert bits
    decide +kernel
  rw [resolution?_eq]
  constructor
  · intro h
    split at h
    · rename_i hindex
      cases h
      exact .resolution hindex (hpower hindex)
    · cases h
  · rintro ⟨⟩
    rename_i hindex h
    rw [if_pos hindex, ← h, UInt8.ofNat_toNat]

theorem resolution?_eq_none_iff {index : UInt8} : resolution? index = none ↔ 4 ≤ index := by
  rw [resolution?_eq, ← UInt8.not_lt]
  split <;> simp [*]

theorem isSampleRate_iff {rate : UInt8} :
    isSampleRate rate = true ↔ Parameter.Encoded (.sampleRate rate) rate := by
  rw [isSampleRate, List.contains_iff_mem]
  constructor
  · exact .sampleRate
  · rintro ⟨⟩
    assumption

/-- Three bytes are a status if the last two stand for settings, and then it has these. -/
theorem Status.ofBytes_eq_ok_iff {flags index rate : UInt8} {status : Status} :
    ofBytes flags index rate = .ok status ↔
      Parameter.Encoded (.resolution status.resolution) index ∧
      Parameter.Encoded (.sampleRate status.sampleRate) rate ∧ status.flags = .ofBits flags := by
  unfold ofBytes
  constructor
  · intro h
    split at h
    · cases h
    · rename_i resolution hresolution
      split at h <;> cases h
      rename_i hrate
      exact ⟨resolution?_eq_some_iff.1 hresolution, isSampleRate_iff.1 hrate, rfl⟩
  · obtain ⟨named, resolution, sampleRate⟩ := status
    rintro ⟨hresolution, hrate, rfl⟩
    obtain rfl : rate = sampleRate := hrate.sampleRate_eq
    rw [resolution?_eq_some_iff.2 hresolution]
    exact if_pos (isSampleRate_iff.2 hrate)

end Mouse

/-! ## Bytes that are sent -/

def Access.dataSent? : Access → Option UInt8
  | write .data byte => some byte
  | write .command _ | status _ | read _ => none

def Trace.dataSent (trace : Trace) : List UInt8 := trace.filterMap Access.dataSent?

theorem Trace.dataSent_append (s t : Trace) : dataSent (s ++ t) = s.dataSent ++ t.dataSent :=
  List.filterMap_append

theorem Trace.dataSent_writes (trace : Trace) : trace.writes.dataSent = trace.dataSent := by
  induction trace with
  | nil => rfl
  | cons access rest ih =>
    cases access with
    | status | read => exact ih
    | write port byte =>
      cases port with
      | data => exact congrArg (List.cons byte) ih
      | command => exact ih

/-- A script sends its bytes to the data port, whatever goes before each. -/
theorem Operation.dataSent_frames {operation : Operation} {script : Script}
    (hscript : operation.script? = some script) :
    Trace.dataSent (script.bytes.flatMap script.frame) = script.bytes := by
  have hframe (byte : UInt8) : Trace.dataSent (script.frame byte) = [byte] := by
    cases operation with
    | probe | controller => cases hscript
    | keyboard | mouse =>
      obtain ⟨bytes, -, rfl⟩ := Option.map_eq_some_iff.1 hscript
      rfl
  induction script.bytes with
  | nil => rfl
  | cons byte rest ih =>
    rw [List.flatMap_cons, Trace.dataSent_append, hframe, ih, List.singleton_append]

namespace Operation

def Outcome.succeeded : Outcome → Bool
  | .controller (.ok _) | .keyboard (.ok _) | .mouse (.ok _) => true
  | .controller (.error _) | .keyboard (.error _) | .mouse (.error _) => false

theorem succeeded_outcome {operation : Operation} {script : Script}
    (hscript : operation.script? = some script) (ending : Ending) :
    (script.outcome operation ending).succeeded = true ↔ ending = .acknowledged := by
  cases operation with
  | probe | controller => cases hscript
  | keyboard | mouse =>
    obtain ⟨bytes, -, rfl⟩ := Option.map_eq_some_iff.1 hscript
    cases ending <;> simp [Script.outcome, failure, Outcome.succeeded]

end Operation

namespace Parameter

variable {p : Parameter}

theorem Refused.blames {outcome : Operation.Outcome} (h : p.Refused outcome) :
    Parameter.blames outcome := by
  cases h <;> trivial

theorem Refused.not_succeeded {outcome : Operation.Outcome} (h : p.Refused outcome) :
    outcome.succeeded = false := by
  cases h <;> rfl

/-- A value is accepted if and only if there is a byte that stands for it. -/
theorem accepted_iff : p.operation.Accepted ↔ ∃ byte, p.Encoded byte := by
  constructor
  · intro haccepted
    obtain ⟨outcome, hrefused⟩ | hencoded := p.refused_or_encoded
    · -- While the controller is taken, a value that is accepted is not to blame.
      have hperformed := (hrefused.perform { leased := true } ({} : ScriptedChip)).symm.trans
        (Operation.perform_of_leased haccepted rfl ({} : ScriptedChip))
      have hfailure : outcome = p.operation.failure .busy :=
        congrArg (fun performed => performed.1.result) hperformed
      exact absurd (hfailure ▸ hrefused.blames) (Operation.not_blames_failure _ .busy)
    · exact hencoded
  · rintro ⟨byte, hencoded⟩
    obtain ⟨script, hscript, -⟩ := hencoded.script
    exact Operation.accepted_of_script hscript

end Parameter

/-- The host understands a mouse that reports these bytes to have these settings. -/
def Mouse.Says (index rate countsPerMm perSecond : UInt8) : Prop :=
  ∀ flags, Status.ofBytes flags index rate = .ok ⟨.ofBits flags, countsPerMm, perSecond⟩

/-- The bytes of a status stand for settings as those that are sent do. -/
theorem Mouse.says_iff {index rate countsPerMm perSecond : UInt8} :
    Says index rate countsPerMm perSecond ↔
      Parameter.Encoded (.resolution countsPerMm) index ∧
        Parameter.Encoded (.sampleRate perSecond) rate := by
  simp [Says, Status.ofBytes_eq_ok_iff]

/-! ## Setting and asking -/

namespace Session

variable {σ : Type} [Chip σ]

def Record.succeeded (record : Record) : Bool :=
  match record.outcome with
  | .operation outcome => outcome.succeeded
  | .done | .flag _ | .limit _ | .granted _ => false

theorem Record.succeeded_operation {record : Record} {outcome : Operation.Outcome}
    (h : record.outcome = .operation outcome) : record.succeeded = outcome.succeeded := by
  simp only [succeeded, h]

/-- What is sent for the value of a parameter is the command and the byte that stands for it, or a
part of these if the operation does not succeed. -/
theorem dataSent_step (s : Session σ) {p : Parameter} {byte : UInt8} (h : p.Encoded byte) :
    let record := (s.step (.operation p.operation)).2
    record.trace.dataSent <+: [p.code, byte] ∧
      (record.succeeded → record.trace.dataSent = [p.code, byte]) := by
  intro record
  obtain ⟨script, hscript, hbytes⟩ := h.script
  rw [← hbytes, ← Operation.dataSent_frames hscript]
  cases hleased : s.controller.leased with
  | true =>
    -- Nothing is sent, and the outcome is that the controller is taken.
    have hperformed :=
      Operation.perform_of_leased (Operation.accepted_of_script hscript) hleased s.chip
    have htrace : record.trace = [] := congrArg (fun performed => performed.1.trace) hperformed
    rw [htrace]
    refine ⟨List.nil_prefix, ?_⟩
    intro hsucceeded
    have hbusy : record.outcome = .operation (p.operation.failure .busy) :=
      congrArg Outcome.operation (congrArg (fun performed => performed.1.result) hperformed)
    rw [Record.succeeded_operation hbusy] at hsucceeded
    cases hp : p.operation <;> rw [hp] at hsucceeded <;> cases hsucceeded
  | false =>
    obtain ⟨ending, hdialogue, hresult⟩ := Operation.dialogue_perform hscript hleased s.chip
    have hframe := Operation.isWrite_frame hscript
    have hwrites : record.trace.writes =
        (p.operation.perform s.controller s.chip).1.trace.moves.writes :=
      (Trace.writes_moves _).symm
    rw [← Trace.dataSent_writes, hwrites]
    refine ⟨(hdialogue.writes_prefix hframe).filterMap _, ?_⟩
    intro hsucceeded
    rw [Record.succeeded_operation (congrArg Outcome.operation hresult)] at hsucceeded
    obtain rfl := (Operation.succeeded_outcome hscript ending).1 hsucceeded
    rw [hdialogue.writes_of_acknowledged hframe]

/-- The last time that a parameter was set with success it was to this value, and this is the last
byte that was sent then. -/
def LastSent (parameter : UInt8 → Parameter) (log : List (Step × Record)) (value byte : UInt8) :
    Prop :=
  ∃ before record after, log = before ++ (.operation (parameter value).operation, record) :: after ∧
    record.succeeded ∧ record.trace.dataSent.getLast? = some byte ∧
    ∀ other later, (.operation (parameter other).operation, later) ∈ after → ¬ later.succeeded

/-- What is on record of a run was made in some state of the session. -/
theorem exists_step_of_mem_log (s : Session σ) (steps : List Step) {step : Step} {record : Record}
    (h : (step, record) ∈ steps.zip (s.run steps).2) :
    ∃ t : Session σ, record = (t.step step).2 := by
  induction steps generalizing s with
  | nil => cases h
  | cons first rest ih =>
    obtain heq | hrest := List.mem_cons.1 h
    · obtain ⟨rfl, rfl⟩ := Prod.mk.inj heq
      exact ⟨s, rfl⟩
    · exact ih (s.step first).1 hrest

/-- The byte that was sent last stands for the value to which the parameter was set last. -/
theorem LastSent.encoded {s : Session σ} {steps : List Step} {parameter : UInt8 → Parameter}
    {value byte : UInt8} (h : LastSent parameter (steps.zip (s.run steps).2) value byte) :
    (parameter value).Encoded byte := by
  obtain ⟨before, record, after, hlog, hsucceeded, hbyte, -⟩ := h
  obtain ⟨t, rfl⟩ := s.exists_step_of_mem_log steps (hlog ▸ List.mem_append_cons_self)
  obtain ⟨outcome, hrefused⟩ | ⟨sent, hsent⟩ := (parameter value).refused_or_encoded
  · have hoperation : (t.step (.operation (parameter value).operation)).2.outcome =
        .operation outcome := by
      rw [step, hrefused.perform]
      rfl
    rw [Record.succeeded_operation hoperation, hrefused.not_succeeded] at hsucceeded
    cases hsucceeded
  · rw [(t.dataSent_step hsent).2 hsucceeded] at hbyte
    cases hbyte
    exact hsent

end Session

/-- After the acknowledgement the host receives three bytes, and then judges them. -/
theorem Mouse.collects_status : Exchange.Collects 3
    (fun bytes result => ∀ flags index rate, bytes = [flags, index, rate] →
      result = Status.ofBytes flags index rate)
    (.receive fun flags => .receive fun index => .receive fun rate =>
      match Status.ofBytes flags index rate with
      | .error e => .fail e
      | .ok status => .done status) := by
  refine .receive fun flags => .receive fun index => .receive fun rate => ?_
  cases hstatus : Status.ofBytes flags index rate with
  | error e =>
    refine .fail ?_
    rintro _ _ _ ⟨⟩
    exact hstatus.symm
  | ok status =>
    refine .done ?_
    rintro _ _ _ ⟨⟩
    exact hstatus.symm

/-- The request for the status is all that is written. A mouse that acknowledges it is heard to the
end, and three bytes more are judged by what they are. -/
theorem Mouse.Request.perform_status {σ : Type} [Chip σ] {c : Controller}
    (hfree : c.leased = false) (chip : σ) :
    let performed := (Request.status.perform c chip).1
    let turns := c.turns Request.status.plan chip
    let request : Trace := [.write .command 0xD4, .write .data 0xE9]
    (performed.trace.writes <+: request ∧ (performed.trace.replies ≠ [] →
      performed.trace.moves = request ++ performed.trace.replies.map .read)) ∧
    (Turn.Moved turns → performed.trace.replies.head? = some 0xFA →
      ∃ flags index rate, performed.trace.replies = [0xFA, flags, index, rate]) ∧
    ∀ flags index rate, performed.trace.replies = [0xFA, flags, index, rate] →
      Turn.Moved turns ∧ performed.result = (Status.ofBytes flags index rate).map .status := by
  intro performed turns request
  have hframe : ∀ access ∈ request, access.isWrite = true := by simp [request, Access.isWrite]
  obtain ⟨hasked, result, hconcluded, hresult⟩ := c.concluded_carryOut hfree
    (asks_command .requestStatus) collects_status
    (paced_command .requestStatus (.of_collects collects_status)) hframe
    Request.status.plan rfl chip
  have hreplies : performed.trace.replies = Turn.replies turns :=
    c.replies_carryOut Request.status.plan chip
  obtain ⟨-, -, hanswered⟩ := hconcluded.of_replies
  refine ⟨hasked, ?_⟩
  rw [hreplies]
  constructor
  · intro hmoved hhead
    obtain ⟨rest, hrest⟩ := List.head?_eq_some_iff.1 hhead
    obtain ⟨-, hfull, -⟩ := hanswered rest hrest
    obtain ⟨flags, index, rate, rfl⟩ := List.length_eq_three.1 (hfull.2 hmoved)
    exact ⟨flags, index, rate, hrest⟩
  · intro flags index rate hall
    obtain ⟨-, hfull, -, hdecides⟩ := hanswered [flags, index, rate] hall
    have hjudged : result = Status.ofBytes flags index rate := hdecides rfl flags index rate rfl
    exact ⟨hfull.1 rfl, hjudged ▸ hresult⟩

namespace Mouse

/-- Three bytes are a status if the number of the resolution is one and the rate is one, and are
refused by the first of these that is not. -/
theorem Status.ofBytes_cases (flags index rate : UInt8) :
    (∃ status : Status, ofBytes flags index rate = .ok status ∧ status.flags.bits = flags &&& 0x77 ∧
      status.resolution.toNat = Nat.pow 2 index.toNat ∧ status.sampleRate = rate ∧
      index < 4 ∧ rate ∈ [10, 20, 40, 60, 80, 100, 200]) ∨
    (ofBytes flags index rate = .error (.invalidResolution index) ∧ 4 ≤ index) ∨
    (ofBytes flags index rate = .error (.invalidSampleRate rate) ∧ index < 4 ∧
      rate ∉ [10, 20, 40, 60, 80, 100, 200]) := by
  cases hresolution : resolution? index with
  | none =>
    have hof : ofBytes flags index rate = .error (.invalidResolution index) := by
      simp only [ofBytes, hresolution]
    exact .inr (.inl ⟨hof, resolution?_eq_none_iff.1 hresolution⟩)
  | some resolution =>
    have hencoded := resolution?_eq_some_iff.1 hresolution
    obtain ⟨hindex, hpower⟩ : index < 4 ∧ resolution.toNat = Nat.pow 2 index.toNat := by
      cases hencoded
      exact ⟨‹_›, ‹_›⟩
    by_cases hrate : isSampleRate rate = true
    · have hof : ofBytes flags index rate = .ok ⟨.ofBits flags, resolution, rate⟩ := by
        simp only [ofBytes, hresolution, hrate, if_true]
      refine .inl ⟨_, hof, rfl, hpower, rfl, hindex, ?_⟩
      exact List.contains_iff_mem.1 hrate
    · have hof : ofBytes flags index rate = .error (.invalidSampleRate rate) := by
        simp only [ofBytes, hresolution, hrate, if_false, Bool.false_eq_true]
      exact .inr (.inr ⟨hof, hindex, fun hmem => hrate (List.contains_iff_mem.2 hmem)⟩)

end Mouse

namespace Session

variable {σ : Type} [Chip σ]

open Mouse (Says)

/-- After any steps, a mouse is asked for its status before anything is read, and nothing else is
written. If it acknowledges that, it is heard to the end: all four bytes are read before they are
judged. They are a status if and only if the number of the resolution and the sample rate are ones
that a mouse has, and if not, the resolution is blamed first. The settings that can be asked for are
those that can be reported, and what is sent for one is what reports it; so a mouse that reports the
bytes it was sent last is understood to have the settings that were asked for last. -/
theorem run_status (s : Session σ) (steps : List Step)
    (hfree : (s.run steps).1.controller.leased = false) :
    let log := steps.zip (s.run steps).2
    let t := (s.run steps).1
    let turns := (Operation.mouse .status).turns t.controller t.chip
    let record := (t.step (.operation (.mouse .status))).2
    let replies := record.trace.replies
    let request : Trace := [.write .command 0xD4, .write .data 0xE9]
    record.trace = turns.flatMap Turn.trace ∧
    (record.trace.writes <+: request ∧
      (replies ≠ [] → record.trace.moves = request ++ replies.map .read)) ∧
    (Turn.Moved turns → replies.head? = some 0xFA →
      ∃ flags index rate, replies = [0xFA, flags, index, rate]) ∧
    (∀ flags index rate, replies = [0xFA, flags, index, rate] →
      Turn.Moved turns ∧
      (record.succeeded ↔ index < 4 ∧ rate ∈ [10, 20, 40, 60, 80, 100, 200]) ∧
      (record.succeeded → ∃ status : Mouse.Status,
        record.outcome = .operation (.mouse (.ok (.status status))) ∧
        status.flags.bits = flags &&& 0x77 ∧
        status.resolution.toNat = Nat.pow 2 index.toNat ∧ status.sampleRate = rate) ∧
      (4 ≤ index → record.outcome = .operation (.mouse (.error (.invalidResolution index)))) ∧
      (index < 4 → rate ∉ [10, 20, 40, 60, 80, 100, 200] →
        record.outcome = .operation (.mouse (.error (.invalidSampleRate rate)))) ∧
      ∀ c r, LastSent .resolution log c index → LastSent .sampleRate log r rate →
        record.outcome = .operation (.mouse (.ok (.status ⟨.ofBits flags, c, r⟩)))) ∧
    (∀ c, ((Operation.mouse (.setResolution c)).Accepted ↔ ∃ index rate r, Says index rate c r) ∧
      ∀ index rate r, Says index rate c r →
        (∀ index' rate' r', Says index' rate' c r' → index' = index) ∧
        ∀ u : Session σ,
          let sent := (u.step (.operation (.mouse (.setResolution c)))).2
          sent.trace.dataSent <+: [0xE8, index] ∧
            (sent.succeeded → sent.trace.dataSent = [0xE8, index])) ∧
    ∀ r, ((Operation.mouse (.setSampleRate r)).Accepted ↔ ∃ index c, Says index r c r) ∧
      ∀ index rate c, Says index rate c r → rate = r ∧ ∀ u : Session σ,
        let sent := (u.step (.operation (.mouse (.setSampleRate r)))).2
        sent.trace.dataSent <+: [0xF3, rate] ∧
          (sent.succeeded → sent.trace.dataSent = [0xF3, rate]) := by
  intro log t turns record replies request
  obtain ⟨hasked, hheard, hjudged⟩ := Mouse.Request.perform_status hfree t.chip
  refine ⟨t.controller.trace_carryOut Mouse.Request.status.plan t.chip, hasked, hheard, ?_, ?_, ?_⟩
  · intro flags index rate hreplies
    obtain ⟨hmoved, hresult⟩ := hjudged flags index rate hreplies
    have houtcome : record.outcome =
        .operation (.mouse ((Mouse.Status.ofBytes flags index rate).map .status)) :=
      congrArg (fun result => Outcome.operation (.mouse result)) hresult
    have hsucceeded : record.succeeded = Operation.Outcome.succeeded
        (.mouse ((Mouse.Status.ofBytes flags index rate).map .status)) :=
      Record.succeeded_operation houtcome
    have hlast (c r : UInt8) (hindex : LastSent .resolution log c index)
        (hrate : LastSent .sampleRate log r rate) :
        record.outcome = .operation (.mouse (.ok (.status ⟨.ofBits flags, c, r⟩))) := by
      rw [houtcome, Mouse.says_iff.2 ⟨hindex.encoded, hrate.encoded⟩ flags]
      rfl
    refine ⟨hmoved, ?_⟩
    obtain ⟨status, hstatus, hbits, hresolution, hperSecond, hindex, hrate⟩ |
      ⟨herror, hindex⟩ | ⟨herror, hindex, hrate⟩ := Mouse.Status.ofBytes_cases flags index rate
    · rw [hstatus] at houtcome hsucceeded
      have hnot : ¬ 4 ≤ index := UInt8.not_le.2 hindex
      refine ⟨⟨fun _ => ⟨hindex, hrate⟩, fun _ => hsucceeded⟩, fun _ => ?_,
        fun h => absurd h hnot, fun _ h => absurd hrate h, hlast⟩
      exact ⟨status, houtcome, hbits, hresolution, hperSecond⟩
    · rw [herror] at houtcome hsucceeded
      have hfailed : ¬ record.succeeded := fun h => Bool.noConfusion (hsucceeded.symm.trans h)
      have hnot : ¬ index < 4 := UInt8.not_lt.2 hindex
      exact ⟨⟨fun h => absurd h hfailed, fun h => absurd h.1 hnot⟩, fun h => absurd h hfailed,
        fun _ => houtcome, fun h => absurd h hnot, hlast⟩
    · rw [herror] at houtcome hsucceeded
      have hfailed : ¬ record.succeeded := fun h => Bool.noConfusion (hsucceeded.symm.trans h)
      have hnot : ¬ 4 ≤ index := UInt8.not_le.2 hindex
      exact ⟨⟨fun h => absurd h hfailed, fun h => absurd h.2 hrate⟩, fun h => absurd h hfailed,
        fun h => absurd h hnot, fun _ _ => houtcome, hlast⟩
  · intro c
    refine ⟨(Parameter.accepted_iff (p := .resolution c)).trans ⟨?_, ?_⟩, ?_⟩
    · rintro ⟨index, hindex⟩
      exact ⟨index, 100, 100, Mouse.says_iff.2 ⟨hindex, .sampleRate (by decide)⟩⟩
    · rintro ⟨index, rate, r, hsays⟩
      exact ⟨index, (Mouse.says_iff.1 hsays).1⟩
    · intro index rate r hsays
      have hindex := (Mouse.says_iff.1 hsays).1
      refine ⟨fun _ _ _ hsays' => ?_, fun u => u.dataSent_step hindex⟩
      exact (Mouse.says_iff.1 hsays').1.resolution_inj hindex
  · intro r
    refine ⟨(Parameter.accepted_iff (p := .sampleRate r)).trans ⟨?_, ?_⟩, ?_⟩
    · rintro ⟨byte, hbyte⟩
      obtain rfl := hbyte.sampleRate_eq
      exact ⟨0, 1, Mouse.says_iff.2 ⟨.resolution (by decide) rfl, hbyte⟩⟩
    · rintro ⟨index, c, hsays⟩
      exact ⟨r, (Mouse.says_iff.1 hsays).2⟩
    · intro index rate c hsays
      have hrate := (Mouse.says_iff.1 hsays).2
      obtain rfl := hrate.sampleRate_eq
      exact ⟨rfl, fun u => u.dataSent_step hrate⟩

/-- A mouse that is set to four counts and a hundred packets, and says so. -/
theorem run_status_reported :
    let s : Session ScriptedChip :=
      { controller := { patience := { limit := 2 } }
        chip := { rules :=
          [(⟨.mouse, some 0xE8⟩, [⟨0, 0xFA⟩]), (⟨.mouse, some 0x02⟩, [⟨0, 0xFA⟩]),
            (⟨.mouse, some 0xF3⟩, [⟨0, 0xFA⟩]), (⟨.mouse, some 0x64⟩, [⟨1, 0xFA⟩]),
            (⟨.mouse, some 0xE9⟩, [⟨0, 0xFA⟩, ⟨0, 0x29⟩, ⟨1, 0x02⟩, ⟨0, 0x64⟩])] } }
    let steps : List Step :=
      [.operation (.mouse (.setResolution 4)), .operation (.mouse (.setSampleRate 100))]
    let log := steps.zip (s.run steps).2
    let record := ((s.run steps).1.step (.operation (.mouse .status))).2
    (s.run steps).1.controller.leased = false ∧
    LastSent .resolution log 4 0x02 ∧ LastSent .sampleRate log 100 0x64 ∧
    record.trace.replies = [0xFA, 0x29, 0x02, 0x64] ∧
    record.outcome = .operation (.mouse (.ok (.status ⟨.ofBits 0x29, 4, 100⟩))) := by
  intro s steps log record
  have hfree : (s.run steps).1.controller.leased = false := by decide +kernel
  have hindex : LastSent .resolution log 4 0x02 := by
    refine ⟨[], _, [_], rfl, by decide +kernel, by decide +kernel, ?_⟩
    simp [Parameter.operation]
  have hrate : LastSent .sampleRate log 100 0x64 := by
    refine ⟨[_], _, [], rfl, by decide +kernel, by decide +kernel, ?_⟩
    simp
  have hreplies : record.trace.replies = [0xFA, 0x29, 0x02, 0x64] := by decide +kernel
  obtain ⟨-, -, -, hjudged, -⟩ := run_status s steps hfree
  obtain ⟨-, -, -, -, -, hreported⟩ := hjudged 0x29 0x02 0x64 hreplies
  exact ⟨hfree, hindex, hrate, hreplies, hreported 4 100 hindex hrate⟩

end Session

end Ps2Host
