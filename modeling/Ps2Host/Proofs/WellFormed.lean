import Ps2Host.Proofs.Failures

/-!
# Reports are well formed

The report of an operation has few shapes: what its kind does not need is zero, and what it carries
is a byte that was received or a value that was refused.

## Main definitions

* `reportOf` — the report of a result.
* `Controller.Report.WellFormed`, `Keyboard.Report.WellFormed`, `Mouse.Report.WellFormed` — the
  reports that an operation can have after what it received, with every field.
* `Operation.Outcome.WellFormed` — the same for any operation.

## Main results

* `Operation.wellFormed_perform` — the report of every operation is one of these, on every chip.
-/
namespace Ps2Host

/-! ## Results -/

section Results

variable {ε α ρ : Type}

def reportOf (ok : ρ) (report : ε → ρ) : Except ε α → ρ
  | .ok _ => ok
  | .error e => report e

/-- What holds of the report of a success and of those of all errors that are admitted holds of the
report of a result. -/
theorem reportOf_of_admits {P : ρ → Prop} {admits : ε → Prop} {ok : ρ} {report : ε → ρ}
    {result : Except ε α} (hresult : ∀ e, result = .error e → admits e) (hok : P ok)
    (hreport : ∀ e, admits e → P (report e)) : P (reportOf ok report result) := by
  cases result with
  | ok a => exact hok
  | error e => exact hreport e (hresult e rfl)

end Results

/-! ## Reports on the controller -/

namespace Controller.Report

def ofResult {α : Type} (result : Except Error α) : Report := reportOf ok Error.report result

/-- The reports of an operation after the bytes it received, and of a self-test if it is one. -/
inductive WellFormed (test? : Option SelfTest) (received : List UInt8) : Report → Prop
  | none : WellFormed test? received { kind := .none, response := 0 }
  | timeout : WellFormed test? received { kind := .timeout, response := 0 }
  | wouldBlock : WellFormed test? received { kind := .wouldBlock, response := 0 }
  | testFailed (test : SelfTest) (verdict : UInt8) (htest : test? = some test)
      (hreceived : received = [verdict]) (hfailed : verdict ≠ test.passed) :
      WellFormed test? received { kind := .testFailed, response := verdict }

/-- The report on the cause of a device's failure: a wait failed or the controller is taken. -/
inductive Cause : Report → Prop
  | timeout : Cause { kind := .timeout, response := 0 }
  | wouldBlock : Cause { kind := .wouldBlock, response := 0 }
  | busy : Cause { kind := .busy, response := 0 }

theorem cause_report {cause : Error} (h : cause = .busy ∨ ∃ stall, cause = .stalled stall) :
    Cause cause.report := by
  obtain rfl | ⟨stall, rfl⟩ := h
  · exact .busy
  · cases stall
    · exact .timeout
    · exact .wouldBlock

theorem Cause.isOk_eq_false {report : Report} (h : Cause report) : report.isOk = false := by
  cases h <;> rfl

theorem wellFormed_stalled (test? : Option SelfTest) (received : List UInt8) (stall : Stall) :
    WellFormed test? received (Error.stalled stall).report := by
  cases stall
  · exact .timeout
  · exact .wouldBlock

end Controller.Report

def Controller.Request.selfTest? : Request → Option SelfTest
  | selfTest test => some test
  | _ => none

theorem Controller.Request.wellFormed_of_admits {request : Request} {received : List UInt8}
    {e : Error} (h : request.Admits received e) :
    Report.WellFormed request.selfTest? received e.report := by
  cases e with
  | stalled stall => exact Report.wellFormed_stalled _ _ stall
  | busy => exact absurd h id
  | testFailed verdict =>
    obtain ⟨test, rfl, hreceived, hfailed⟩ := h
    exact .testFailed test verdict rfl hreceived hfailed

/-! ## Reports on the keyboard -/

namespace Keyboard

namespace Report

def ofResult {α : Type} (result : Except Error α) : Report := reportOf ok Error.report result

inductive WellFormed (request : Request) (received : List UInt8) : Report → Prop
  | none : WellFormed request received { kind := .none }
  | controller (cause : Controller.Report) (hcause : cause.Cause) :
      WellFormed request received { kind := .controller, controller := cause }
  | resend (hrequest : request ≠ .identify) :
      WellFormed request received { kind := .resend, response := 0xFE }
  | selfTestFailed (hrequest : request = .reset) :
      WellFormed request received { kind := .selfTestFailed, response := 0xFC }
  | overrun : WellFormed request received { kind := .keyDetectionError, response := 0x00 }
  | keyDetectionError : WellFormed request received { kind := .keyDetectionError, response := 0xFF }
  | invalidResponse (reply : UInt8) (hreceived : reply ∈ received) (hreply : reply ≠ 0xFE) :
      WellFormed request received { kind := .invalidResponse, response := reply }
  | invalidTypematicRate (rate : Binary32) (hrequest : ∃ delay, request = .setTypematic rate delay)
      (hrefused : ¬ Typematic.HasRate rate) :
      WellFormed request received { kind := .invalidTypematicRate, rate }
  | invalidTypematicDelay (delay : UInt16) (hrequest : ∃ rate, request = .setTypematic rate delay)
      (hrefused : delay ∉ [250, 500, 750, 1000]) :
      WellFormed request received { kind := .invalidTypematicDelay, delay }
  | invalidScancodeSet (set : UInt8) (hrequest : request = .setScancodeSet set)
      (hrefused : ¬ (1 ≤ set ∧ set ≤ 3)) :
      WellFormed request received { kind := .invalidScancodeSet, response := set }

/-- Among these, exactly the one with a zero byte tells of lost keys. -/
theorem WellFormed.isOverrun_iff {request : Request} {received : List UInt8} {report : Report}
    (h : WellFormed request received report) :
    report.isOverrun = true ↔ report = { kind := .keyDetectionError, response := 0x00 } := by
  cases h <;> simp [isOverrun, Reply.overrun]

end Report

theorem Request.wellFormed_of_admits {request : Request} {received : List UInt8} {e : Error}
    (h : request.Admits received e) : Report.WellFormed request received e.report := by
  cases e with
  | resend reply =>
    obtain ⟨rfl, hrequest⟩ := h
    exact .resend hrequest
  | selfTestFailed reply =>
    obtain ⟨rfl, hrequest⟩ := h
    exact .selfTestFailed hrequest
  | keyDetection reply =>
    obtain rfl | rfl := h
    · exact .overrun
    · exact .keyDetectionError
  | invalidResponse reply => exact .invalidResponse reply h.1 h.2
  | invalidTypematicRate rate => exact .invalidTypematicRate rate h.1 h.2
  | invalidTypematicDelay delay => exact .invalidTypematicDelay delay h.1 h.2
  | invalidScancodeSet set => exact .invalidScancodeSet set h.1 h.2
  | controller cause =>
    have hcause := Controller.Report.cause_report h
    rw [Error.report, Report.ofController, if_neg (by simp [hcause.isOk_eq_false])]
    exact .controller _ hcause

end Keyboard

/-! ## Reports on the mouse -/

namespace Mouse

namespace Report

def ofResult {α : Type} (result : Except Error α) : Report := reportOf ok Error.report result

/-- The reports of an operation after the bytes it received; what is left out is zero, or a success
of the controller. -/
inductive WellFormed (request : Request) (received : List UInt8) : Report → Prop
  | none : WellFormed request received { kind := .none }
  | controller (cause : Controller.Report) (hcause : cause.Cause) :
      WellFormed request received { kind := .controller, controller := cause }
  | resend : WellFormed request received { kind := .resend, response := 0xFE }
  | selfTestFailed (hrequest : request = .reset) :
      WellFormed request received { kind := .selfTestFailed, response := 0xFC }
  | invalidResponse (reply : UInt8) (hreceived : reply ∈ received) (hreply : reply ≠ 0xFE) :
      WellFormed request received { kind := .invalidResponse, response := reply }
  | invalidResolution (value : UInt8)
      (hrefused : request = .setResolution value ∧ value ∉ [1, 2, 4, 8] ∨
        request = .status ∧ 4 ≤ value ∧ ∃ flags rate, [flags, value, rate] <:+ received) :
      WellFormed request received { kind := .invalidResolution, response := value }
  | invalidSampleRate (rate : UInt8) (hrefused : rate ∉ [10, 20, 40, 60, 80, 100, 200])
      (hrequest : request = .setSampleRate rate ∨
        request = .status ∧ ∃ flags index, [flags, index, rate] <:+ received) :
      WellFormed request received { kind := .invalidSampleRate, response := rate }

end Report

theorem Request.wellFormed_of_admits {request : Request} {received : List UInt8} {e : Error}
    (h : request.Admits received e) : Report.WellFormed request received e.report := by
  cases e with
  | resend reply =>
    obtain rfl : reply = Reply.resend := h
    exact .resend
  | selfTestFailed reply =>
    obtain ⟨rfl, hrequest⟩ := h
    exact .selfTestFailed hrequest
  | invalidResponse reply => exact .invalidResponse reply h.1 h.2
  | invalidResolution value =>
    refine .invalidResolution value ?_
    obtain ⟨hrequest, hrefused⟩ | ⟨hrequest, hrefused, hreceived⟩ := h
    · exact .inl ⟨hrequest, List.idxOf?_eq_none_iff.1 (Option.map_eq_none_iff.1 hrefused)⟩
    · exact .inr ⟨hrequest, List.getElem?_eq_none_iff.1 hrefused, hreceived⟩
  | invalidSampleRate rate =>
    obtain ⟨hrefused, hrequest⟩ := h
    refine .invalidSampleRate rate (fun hmem => ?_) hrequest
    have hcontains : sampleRates.contains rate = true := List.contains_iff_mem.2 hmem
    rw [isSampleRate, hcontains] at hrefused
    cases hrefused
  | controller cause =>
    have hcause := Controller.Report.cause_report h
    rw [Error.report, Report.ofController, if_neg (by simp [hcause.isOk_eq_false])]
    exact .controller _ hcause

end Mouse

/-! ## Operations -/

namespace Operation

/-- The report of an outcome is one that the operation can have after the bytes it received. -/
def Outcome.WellFormed (operation : Operation) (received : List UInt8) (outcome : Outcome) : Prop :=
  match operation, outcome with
  | .probe _, .controller result => (Controller.Report.ofResult result).WellFormed none received
  | .controller request, .controller result =>
    (Controller.Report.ofResult result).WellFormed request.selfTest? received
  | .keyboard request, .keyboard result =>
    (Keyboard.Report.ofResult result).WellFormed request received ∧
      ((Keyboard.Report.ofResult result).isOverrun = true ↔
        Keyboard.Report.ofResult result = { kind := .keyDetectionError, response := 0x00 })
  | .mouse request, .mouse result => (Mouse.Report.ofResult result).WellFormed request received
  | _, _ => False

variable {σ : Type} [Chip σ]

/-- The report of an operation has one of few shapes, on every chip and with every setting. A
self-test that receives anything but the byte for success says so. An encoding alone is refused in
the same way as for the keyboard. -/
theorem wellFormed_perform (operation : Operation) (c : Controller) (chip : σ) :
    let performed := (operation.perform c chip).1
    performed.result.WellFormed operation performed.trace.replies ∧
    (∀ test verdict, operation = .controller (.selfTest test) →
      performed.trace.replies = [verdict] → verdict ≠ test.passed →
      performed.result = .controller (.error (.testFailed verdict))) ∧
    ∀ rate delay e, Keyboard.Typematic.encode rate delay = .error e →
      e.report = { kind := .invalidTypematicRate, rate } ∧ ¬ Keyboard.Typematic.HasRate rate ∨
      e.report = { kind := .invalidTypematicDelay, delay } ∧ delay ∉ [250, 500, 750, 1000] := by
  intro performed
  refine ⟨?_, ?_, fun rate delay e hencode => ?_⟩
  · cases operation with
    | probe p =>
      refine reportOf_of_admits (P := Controller.Report.WellFormed none _)
        (p.calm_perform c.patience chip).allowed .none ?_
      rintro _ ⟨stall, rfl⟩
      exact Controller.Report.wellFormed_stalled _ _ stall
    | controller request =>
      exact reportOf_of_admits (P := Controller.Report.WellFormed request.selfTest? _)
        (request.ends_perform c.patience chip).admits .none
        fun _ => Controller.Request.wellFormed_of_admits
    | keyboard request =>
      have hreport := reportOf_of_admits (P := Keyboard.Report.WellFormed request _)
        (request.accords_plan.carryOut c chip).allowed .none
        fun _ => Keyboard.Request.wellFormed_of_admits
      exact ⟨hreport, hreport.isOverrun_iff⟩
    | mouse request =>
      exact reportOf_of_admits (P := Mouse.Report.WellFormed request _)
        (request.accords_plan.carryOut c chip).allowed .none
        fun _ => Mouse.Request.wellFormed_of_admits
  · rintro test verdict rfl hreceived hfailed
    have hends := (Controller.Request.selfTest test).ends_perform c.patience chip
    exact congrArg Outcome.controller (hends.failed test verdict rfl hreceived hfailed)
  · obtain ⟨rfl, hrate⟩ | ⟨rfl, hdelay⟩ := Keyboard.Typematic.error_of_encode hencode
    · exact .inl ⟨rfl, hrate⟩
    · exact .inr ⟨rfl, hdelay⟩

end Operation

end Ps2Host
