import Ps2Host.Proofs.Failures
import Ps2Host.Session.Basic

/-!
# Parameters that a device does not have

Four operations set a parameter of a device: the scan code set, the repeat rate with its delay, the
resolution and the sample rate. A value that no device has is refused before anything else is looked
at, even before the lease, and nothing comes of it but the error. Any other value is sent as the
byte that stands for it.

## Main definitions

* `Parameter` — a parameter with the value that it is to have, and `Parameter.operation`.
* `Parameter.Encoded` — the byte that stands for a value.
* `Parameter.Refused` — the outcome for a value that no device has.

## Main results

* `Keyboard.Typematic.encode_eq_error_iff` — the rate is blamed before the delay.
* `Parameter.refused_or_encoded` — a value is refused or has a byte.
* `Session.step_parameter` — a refused value has no effect; another one is what is sent.
-/
namespace Ps2Host

/-- The rate is blamed whatever the delay is, and the delay only with a rate that the keyboard
has. -/
theorem Keyboard.Typematic.encode_eq_error_iff {rate : Binary32} {delay : UInt16} {e : Error} :
    encode rate delay = .error e ↔
      ¬ HasRate rate ∧ e = .invalidTypematicRate rate ∨
      HasRate rate ∧ delay ∉ delays ∧ e = .invalidTypematicDelay delay := by
  have hrate (value : Rat) (hvalue : rate.value? = some value) :
      HasRate rate ↔ slowest ≤ value ∧ value ≤ fastest := by
    simp [HasRate, hvalue]
  unfold encode
  cases hvalue : rate.value? with
  | none =>
    have hnot : ¬ HasRate rate := by simp [HasRate, hvalue]
    simp [hnot, eq_comm]
  | some value =>
    by_cases hrange : slowest ≤ value ∧ value ≤ fastest
    · have hhas : HasRate rate := (hrate value hvalue).2 hrange
      cases hindex : delays.idxOf? delay with
      | none =>
        have hdelay : delay ∉ delays := List.idxOf?_eq_none_iff.1 hindex
        simp [hrange, hhas, hdelay, eq_comm]
      | some index =>
        have hdelay : delay ∈ delays := by
          refine Decidable.byContradiction fun hnot => ?_
          cases hindex.symm.trans (List.idxOf?_eq_none_iff.2 hnot)
        simp [hrange, hhas, hdelay]
    · have hnot : ¬ HasRate rate := fun hhas => hrange ((hrate value hvalue).1 hhas)
      simp [hrange, hnot, eq_comm]

/-! ## Parameters -/

/-- A parameter of a device with the value that it is to have. -/
inductive Parameter
  | scancodeSet (set : UInt8)
  | typematic (rate : Binary32) (delay : UInt16)
  | resolution (countsPerMm : UInt8)
  | sampleRate (rate : UInt8)

namespace Parameter

def operation : Parameter → Operation
  | scancodeSet set => .keyboard (.setScancodeSet set)
  | typematic rate delay => .keyboard (.setTypematic rate delay)
  | resolution countsPerMm => .mouse (.setResolution countsPerMm)
  | sampleRate rate => .mouse (.setSampleRate rate)

def code : Parameter → UInt8
  | scancodeSet _ => 0xF0
  | typematic _ _ => 0xF3
  | resolution _ => 0xE8
  | sampleRate _ => 0xF3

/-- The byte that stands for the value of a parameter. A resolution is a power of two and is given
by its exponent. -/
inductive Encoded : Parameter → UInt8 → Prop
  | scancodeSet {set} (h : set ∈ [1, 2, 3]) : Encoded (.scancodeSet set) set
  | typematic {rate delay encoded} (h : Keyboard.Typematic.encode rate delay = .ok encoded) :
      Encoded (.typematic rate delay) encoded
  | resolution {countsPerMm index : UInt8} (hindex : index < 4)
      (h : countsPerMm.toNat = Nat.pow 2 index.toNat) : Encoded (.resolution countsPerMm) index
  | sampleRate {rate} (h : rate ∈ [10, 20, 40, 60, 80, 100, 200]) : Encoded (.sampleRate rate) rate

open Operation (Outcome)

/-- What the host is told of a value that no device has. -/
inductive Refused : Parameter → Outcome → Prop
  | scancodeSet {set} (h : set ∉ [1, 2, 3]) :
      Refused (.scancodeSet set) (.keyboard (.error (.invalidScancodeSet set)))
  | rate {rate delay} (h : ¬ Keyboard.Typematic.HasRate rate) :
      Refused (.typematic rate delay) (.keyboard (.error (.invalidTypematicRate rate)))
  | delay {rate delay} (hrate : Keyboard.Typematic.HasRate rate)
      (h : delay ∉ [250, 500, 750, 1000]) :
      Refused (.typematic rate delay) (.keyboard (.error (.invalidTypematicDelay delay)))
  | resolution {countsPerMm} (h : countsPerMm ∉ [1, 2, 4, 8]) :
      Refused (.resolution countsPerMm) (.mouse (.error (.invalidResolution countsPerMm)))
  | sampleRate {rate} (h : rate ∉ [10, 20, 40, 60, 80, 100, 200]) :
      Refused (.sampleRate rate) (.mouse (.error (.invalidSampleRate rate)))

theorem refused_typematic {rate : Binary32} {delay : UInt16} {e : Keyboard.Error} :
    Refused (.typematic rate delay) (.keyboard (.error e)) ↔
      Keyboard.Typematic.encode rate delay = .error e := by
  rw [Keyboard.Typematic.encode_eq_error_iff]
  constructor
  · rintro (_ | h | ⟨hrate, h⟩)
    · exact .inl ⟨h, rfl⟩
    · exact .inr ⟨hrate, h, rfl⟩
  · rintro (⟨h, rfl⟩ | ⟨hrate, h, rfl⟩)
    · exact .rate h
    · exact .delay hrate h

/-- A value is refused, or there is a byte that stands for it. -/
theorem refused_or_encoded (p : Parameter) :
    (∃ outcome, p.Refused outcome) ∨ ∃ byte, p.Encoded byte := by
  cases p with
  | scancodeSet set =>
    by_cases h : set ∈ [1, 2, 3]
    · exact .inr ⟨set, .scancodeSet h⟩
    · exact .inl ⟨_, .scancodeSet h⟩
  | typematic rate delay =>
    cases h : Keyboard.Typematic.encode rate delay with
    | error e => exact .inl ⟨_, refused_typematic.2 h⟩
    | ok encoded => exact .inr ⟨encoded, .typematic h⟩
  | resolution countsPerMm =>
    by_cases h : countsPerMm ∈ [1, 2, 4, 8]
    · refine .inr ?_
      simp only [List.mem_cons, List.not_mem_nil, or_false] at h
      obtain rfl | rfl | rfl | rfl := h
      · exact ⟨0, .resolution (by decide) rfl⟩
      · exact ⟨1, .resolution (by decide) rfl⟩
      · exact ⟨2, .resolution (by decide) rfl⟩
      · exact ⟨3, .resolution (by decide) rfl⟩
    · exact .inl ⟨_, .resolution h⟩
  | sampleRate rate =>
    by_cases h : rate ∈ [10, 20, 40, 60, 80, 100, 200]
    · exact .inr ⟨rate, .sampleRate h⟩
    · exact .inl ⟨_, .sampleRate h⟩

/-! ## Setting a parameter -/

variable {p : Parameter}

/-- A value that is refused is planned as the error that says so. -/
theorem Refused.perform {σ : Type} [Chip σ] {outcome : Outcome} (h : p.Refused outcome)
    (c : Controller) (chip : σ) : p.operation.perform c chip = (.pure outcome chip, c) := by
  have refused_keyboard {request : Keyboard.Request} {e : Keyboard.Error}
      (hplan : request.plan = .error e) :
      (Operation.keyboard request).perform c chip = (.pure (.keyboard (.error e)) chip, c) := by
    rw [Operation.perform, Keyboard.Request.perform, hplan]
    rfl
  have refused_mouse {request : Mouse.Request} {e : Mouse.Error}
      (hplan : request.plan = .error e) :
      (Operation.mouse request).perform c chip = (.pure (.mouse (.error e)) chip, c) := by
    rw [Operation.perform, Mouse.Request.perform, hplan]
    rfl
  cases h with
  | @scancodeSet set h =>
    refine refused_keyboard (if_neg fun hset => h ?_)
    obtain ⟨hlow, hhigh⟩ := hset
    rw [UInt8.le_iff_toNat_le] at hlow hhigh
    have hset : set.toNat = 1 ∨ set.toNat = 2 ∨ set.toNat = 3 := by
      simp at hlow hhigh
      omega
    simpa [← UInt8.toNat_inj] using hset
  | rate h =>
    refine refused_keyboard ?_
    rw [Keyboard.Request.plan, refused_typematic.1 (.rate h)]
    rfl
  | delay hrate h =>
    refine refused_keyboard ?_
    rw [Keyboard.Request.plan, refused_typematic.1 (.delay hrate h)]
    rfl
  | resolution h =>
    refine refused_mouse ?_
    have hindex : Mouse.resolutionIndex? _ = none :=
      Option.map_eq_none_iff.2 (List.idxOf?_eq_none_iff.2 h)
    rw [Mouse.Request.plan, hindex]
  | sampleRate h =>
    refine refused_mouse (if_neg ?_)
    rwa [Mouse.isSampleRate, List.contains_iff_mem]

/-- A value that has a byte is set by a command and that byte, each of which is to be
acknowledged. -/
theorem Encoded.script {byte : UInt8} (h : p.Encoded byte) :
    ∃ script, p.operation.script? = some script ∧ script.bytes = [p.code, byte] := by
  cases h with
  | scancodeSet h =>
    simp only [List.mem_cons, List.not_mem_nil, or_false] at h
    obtain rfl | rfl | rfl := h <;> exact ⟨_, rfl, rfl⟩
  | typematic h =>
    rw [operation, Operation.script?, Keyboard.Request.bytes?, h]
    exact ⟨_, rfl, rfl⟩
  | @resolution countsPerMm _ hindex h =>
    have hcases : byte = 0 ∨ byte = 1 ∨ byte = 2 ∨ byte = 3 := by
      rw [UInt8.lt_iff_toNat_lt] at hindex
      simp only [← UInt8.toNat_inj]
      simp at hindex ⊢
      omega
    have hvalue : countsPerMm = .ofNat (Nat.pow 2 byte.toNat) := by rw [← h, UInt8.ofNat_toNat]
    obtain rfl | rfl | rfl | rfl := hcases <;> subst hvalue <;> exact ⟨_, rfl, rfl⟩
  | sampleRate h =>
    have hrate : Mouse.isSampleRate byte = true := List.contains_iff_mem.2 h
    rw [operation, Operation.script?, Mouse.Request.bytes?, if_pos hrate]
    exact ⟨_, rfl, rfl⟩

def blames : Outcome → Prop
  | .keyboard (.error (.invalidScancodeSet _)) => True
  | .keyboard (.error (.invalidTypematicRate _)) => True
  | .keyboard (.error (.invalidTypematicDelay _)) => True
  | .mouse (.error (.invalidResolution _)) => True
  | .mouse (.error (.invalidSampleRate _)) => True
  | _ => False

end Parameter

open Parameter (blames)

namespace Operation

theorem not_blames_failure (operation : Operation) (cause : Controller.Error) :
    ¬ blames (operation.failure cause) := by
  cases operation <;> exact id

/-- However the dialogue of a script ends, the argument is not to blame. -/
theorem not_blames_outcome {operation : Operation} {script : Script}
    (hscript : operation.script? = some script) (ending : Ending) :
    ¬ blames (script.outcome operation ending) := by
  cases operation with
  | probe | controller => cases hscript
  | keyboard request =>
    obtain ⟨bytes, -, rfl⟩ := Option.map_eq_some_iff.1 hscript
    cases ending with
    | acknowledged | stalled => exact id
    | refused reply =>
      simp only [Script.outcome, Keyboard.refusal]
      repeat' split
      all_goals exact id
  | mouse request =>
    obtain ⟨bytes, -, rfl⟩ := Option.map_eq_some_iff.1 hscript
    cases ending with
    | acknowledged | stalled => exact id
    | refused reply =>
      simp only [Script.outcome, Mouse.refusal]
      split <;> exact id

theorem accepted_of_script {operation : Operation} {script : Script}
    (hscript : operation.script? = some script) : operation.Accepted := by
  cases operation with
  | probe | controller => cases hscript
  | keyboard request =>
    obtain ⟨bytes, hbytes, -⟩ := Option.map_eq_some_iff.1 hscript
    exact ⟨_, Keyboard.Request.plan_of_bytes hbytes⟩
  | mouse request =>
    obtain ⟨bytes, hbytes, -⟩ := Option.map_eq_some_iff.1 hscript
    exact ⟨_, Mouse.Request.plan_of_bytes hbytes⟩

end Operation

namespace Session

variable {σ : Type} [Chip σ]

/-- A value that no device has is refused whoever holds the controller: the host is told so, with
the value, and nothing else comes of it. For any other value the argument is never to blame; while
the controller is taken the host is told so, and otherwise the bytes sent are the command and the
byte that stands for the value, or the first of them. -/
theorem step_parameter (s : Session σ) (p : Parameter) :
    let performed := s.step (.operation p.operation)
    ((∃ outcome, p.Refused outcome) ∨ ∃ byte, p.Encoded byte) ∧
    (∀ outcome, p.Refused outcome → performed = (s, { outcome := .operation outcome })) ∧
    (∀ rate delay e, p = .typematic rate delay →
      (p.Refused (.keyboard (.error e)) ↔ Keyboard.Typematic.encode rate delay = .error e)) ∧
    ∀ byte, p.Encoded byte →
      (∀ outcome, performed.2.outcome = .operation outcome → ¬ blames outcome) ∧
      (s.controller.leased = true →
        performed = (s, { outcome := .operation (p.operation.failure .busy) })) ∧
      ∃ script, p.operation.script? = some script ∧ script.bytes = [p.code, byte] ∧
        performed.2.trace.writes <+: script.bytes.flatMap script.frame ∧
        (performed.2.outcome = .operation script.success →
          performed.2.trace.writes = script.bytes.flatMap script.frame) := by
  intro performed
  refine ⟨p.refused_or_encoded, fun outcome hrefused => ?_, ?_, fun byte hencoded => ?_⟩
  · show s.step _ = _
    rw [step, hrefused.perform]
    rfl
  · rintro rate delay e rfl
    exact Parameter.refused_typematic
  obtain ⟨script, hscript, hbytes⟩ := hencoded.script
  have hleased (h : s.controller.leased = true) :
      performed = (s, { outcome := .operation (p.operation.failure .busy) }) := by
    show s.step _ = _
    rw [step, Operation.perform_of_leased (Operation.accepted_of_script hscript) h]
    rfl
  cases h : s.controller.leased with
  | true =>
    rw [hleased h]
    refine ⟨fun outcome houtcome => ?_, fun _ => rfl, script, hscript, hbytes, List.nil_prefix, ?_⟩
    · cases houtcome
      exact Operation.not_blames_failure p.operation .busy
    · intro hsuccess
      have hcause := congrArg Operation.Outcome.cause? (Outcome.operation.inj hsuccess)
      rw [Operation.cause?_failure, Operation.cause?_success hscript] at hcause
      cases hcause
  | false =>
    obtain ⟨ending, hdialogue, hresult⟩ := Operation.dialogue_perform hscript h s.chip
    have hframe := Operation.isWrite_frame hscript
    have hwrites : performed.2.trace.writes =
        (p.operation.perform s.controller s.chip).1.trace.moves.writes :=
      (Trace.writes_moves _).symm
    refine ⟨fun outcome houtcome => ?_, fun htaken => absurd htaken Bool.false_ne_true,
      script, hscript, hbytes, ?_, fun hsuccess => ?_⟩
    · cases houtcome
      rw [hresult]
      exact Operation.not_blames_outcome hscript ending
    · rw [hwrites]
      exact hdialogue.writes_prefix hframe
    · have hending := hresult.symm.trans (Outcome.operation.inj hsuccess)
      rw [Operation.outcome_eq_success hscript] at hending
      subst hending
      rw [hwrites]
      exact hdialogue.writes_of_acknowledged hframe

end Session

end Ps2Host
