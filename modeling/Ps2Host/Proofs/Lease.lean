import Ps2Host.Proofs.Stall
import Ps2Host.Session.Basic

/-!
# Exclusive use of the controller

Between two steps of a session the controller is taken if and only if one live lease is acquired,
whichever leases were taken and given back, and in whichever order. A device operation never leaves
a lease behind, however it ends.

## Main definitions

* `Operation.Accepted` — a device operation whose argument passes its check.
* `Session.fresh` — a session before its first step.
* `Session.Exclusive` — the invariant: the flag of the controller counts the acquired leases.

## Main results

* `Session.exclusive_run` — no step breaks the invariant.
* `Session.lease_exclusion` — what holds after any steps of a fresh session.
-/
namespace Ps2Host

variable {σ : Type}

section Operations

variable [Chip σ]

theorem Controller.carryOut_snd {ε α : Type} [Fault ε] (c : Controller)
    (plan : Except ε (Exchange ε α)) (chip : σ) : (c.carryOut plan chip).2 = c := by
  cases plan with
  | error e => rfl
  | ok x => rw [carryOut, hold_eq]

theorem Controller.carryOut_of_leased {ε α : Type} [Fault ε] {c : Controller}
    (hleased : c.leased = true) (x : Exchange ε α) (chip : σ) :
    c.carryOut (.ok x) chip = (.pure (.error (Fault.ofController .busy)) chip, c) := by
  rw [carryOut, hold_eq, if_pos hleased]

theorem Controller.carryOut_of_free {ε α : Type} [Fault ε] {c : Controller}
    (hfree : c.leased = false) (x : Exchange ε α) (chip : σ) :
    c.carryOut (.ok x) chip = (x.perform c.patience chip, c) := by
  rw [carryOut, hold_eq, hfree]
  rfl

theorem Controller.Probe.result_ne_busy (p : Probe) (patience : Patience) (chip : σ) :
    (p.perform patience chip).result ≠ .error .busy := by
  have waited (wait : Except Stall Unit) : outcome wait ≠ .error .busy := by
    cases wait <;> exact nofun
  cases p with
  | status => exact nofun
  | awaitByte => exact waited _
  | awaitRoom => exact waited _
  | flush =>
    intro hbusy
    cases (result_reportFlush _ _).symm.trans hbusy

namespace Operation

def isDevice : Operation → Bool
  | probe _ | controller _ => false
  | keyboard _ | mouse _ => true

/-- The operation is one of a device, and its argument passes its check. -/
def Accepted : Operation → Prop
  | probe _ | controller _ => False
  | keyboard request => ∃ x, request.plan = .ok x
  | mouse request => ∃ x, request.plan = .ok x

@[simp] theorem perform_snd (operation : Operation) (c : Controller) (chip : σ) :
    (operation.perform c chip).2 = c := by
  cases operation with
  | probe | controller => rfl
  | keyboard request => exact c.carryOut_snd request.plan chip
  | mouse request => exact c.carryOut_snd request.plan chip

theorem perform_of_leased {operation : Operation} (haccepted : operation.Accepted)
    {c : Controller} (hleased : c.leased = true) (chip : σ) :
    operation.perform c chip = (.pure (operation.failure .busy) chip, c) := by
  cases operation with
  | probe | controller => cases haccepted
  | keyboard request =>
    obtain ⟨x, hplan⟩ := haccepted
    rw [perform, Keyboard.Request.perform, hplan, Controller.carryOut_of_leased hleased]
    rfl
  | mouse request =>
    obtain ⟨x, hplan⟩ := haccepted
    rw [perform, Mouse.Request.perform, hplan, Controller.carryOut_of_leased hleased]
    rfl

/-- Controller operations do not look at who holds the controller. -/
theorem perform_leased_irrel {operation : Operation} (h : operation.isDevice = false)
    (c : Controller) (leased : Bool) (chip : σ) :
    (operation.perform { c with leased } chip).1 = (operation.perform c chip).1 := by
  cases operation with
  | probe | controller => rfl
  | keyboard | mouse => cases h

/-- What is faithful to its waits does not find the controller taken. -/
theorem Wraps.not_busy {ε α : Type} [Controller.Fault ε] {operation : Operation}
    {wrap : Except ε α → Outcome} (hwrap : operation.Wraps wrap) {turns : List Turn}
    {result : Except ε α} (h : Turn.Faithful turns result) :
    (wrap result).cause? ≠ some .busy := by
  intro hbusy
  cases h with
  | moved _ hown => exact (hown _ ((hwrap.cause_iff _ _).1 hbusy)).1 rfl
  | stalled =>
    rw [Stall.fault, hwrap.failure, cause?_failure] at hbusy
    cases hbusy

/-- A device operation does not find the controller taken unless it was, if its plan does not. -/
theorem not_busy_carryOut {ε α : Type} [Controller.Fault ε] {operation : Operation}
    {wrap : Except ε α → Outcome} (hwrap : operation.Wraps wrap)
    {plan : Except ε (Exchange ε α)} (hown : ∀ e, plan = .error e → Controller.Fault.Own e)
    (hplan : ∀ x turns result, plan = .ok x → Exchange.Course x turns result →
      (wrap result).cause? ≠ some .busy) {c : Controller} (hfree : c.leased = false) (chip : σ) :
    (wrap (c.carryOut plan chip).1.result).cause? ≠ some .busy := by
  cases plan with
  | error e =>
    intro hbusy
    cases (hwrap.cause_iff _ _).1 hbusy
    exact (hown _ rfl).1 rfl
  | ok x =>
    rw [Controller.carryOut, Controller.hold_eq, hfree]
    exact hplan x _ _ rfl (Exchange.course_turns c.patience x chip)

/-- Only a device operation finds the controller taken, and only when it was. -/
theorem not_busy_perform (operation : Operation) {c : Controller} (chip : σ)
    (h : operation.isDevice = true → c.leased = false) :
    (operation.perform c chip).1.result.cause? ≠ some .busy := by
  cases operation with
  | probe p =>
    have hwrap : Wraps (.probe p) Outcome.controller := wraps_controller fun _ => rfl
    intro hbusy
    exact p.result_ne_busy c.patience chip ((hwrap.cause_iff _ _).1 hbusy)
  | controller request =>
    have hwrap : Wraps (.controller request) Outcome.controller := wraps_controller fun _ => rfl
    have hcourse := Exchange.course_turns c.patience request.exchange chip
    exact hwrap.not_busy (request.within_exchange.of_course hcourse).2
  | keyboard request =>
    refine not_busy_carryOut (wraps_keyboard request) (fun _ => Keyboard.Request.own_of_plan)
      (fun x turns result hplan hcourse => ?_) (h rfl) chip
    obtain ⟨-, ⟨-, hfaithful⟩ | ⟨-, -, rfl⟩⟩ := Keyboard.Request.course_plan hplan hcourse
    · exact (wraps_keyboard request).not_busy hfaithful
    · exact nofun
  | mouse request =>
    refine not_busy_carryOut (wraps_mouse request) (fun _ => Mouse.Request.own_of_plan)
      (fun x turns result hplan hcourse => ?_) (h rfl) chip
    exact (wraps_mouse request).not_busy ((Mouse.Request.within_plan hplan).of_course hcourse).2

end Operation

end Operations

/-! ## Leases of a session -/

namespace Session

/-- A session before its first step, on a chip in any state. -/
def fresh (patience : Patience) (logger : Logger) (chip : σ) : Session σ :=
  { controller := { patience }, logger, chip }

def acquired (s : Session σ) : Nat := s.leases.countP fun named => named.2.acquired

def Step.gives (name : Int) : Step → Bool
  | .lease (.take other) | .lease (.drop other) => other == name
  | _ => false

/-- The flag of the controller counts the acquired leases, and no two live leases share a name. -/
structure Exclusive (s : Session σ) : Prop where
  nodup : (s.leases.map Prod.fst).Nodup
  acquired_eq : s.acquired = s.controller.leased.toNat

theorem exclusive_fresh (patience : Patience) (logger : Logger) (chip : σ) :
    (fresh patience logger chip).Exclusive :=
  ⟨List.nodup_nil, rfl⟩

/-- Without the lease of a name the others are left, which stand before it and after it. -/
theorem leases_split {leases : List (Int × Lease)} (hnodup : (leases.map Prod.fst).Nodup)
    {name : Int} {lease : Lease} (hlookup : leases.lookup name = some lease) :
    ∃ before after, leases = before ++ (name, lease) :: after ∧
      leases.filter (fun named => named.1 ≠ name) = before ++ after := by
  obtain ⟨before, after, rfl, hbefore⟩ := List.lookup_eq_some_iff.1 hlookup
  -- The lookup finds the first entry of the name; as names do not repeat, it is the only one.
  have hafter : ∀ named ∈ after, named.1 ≠ name := by
    intro named hnamed heq
    have hmem : name ∈ after.map Prod.fst := List.mem_map.2 ⟨named, hnamed, heq⟩
    simp only [List.map_append, List.map_cons, List.nodup_append, List.nodup_cons] at hnodup
    exact hnodup.2.1.1 hmem
  refine ⟨before, after, rfl, ?_⟩
  rw [List.filter_append, List.filter_cons_of_neg (by simp)]
  congr 1
  · refine List.filter_eq_self.2 fun named hnamed => ?_
    have hne := hbefore named hnamed
    grind
  · exact List.filter_eq_self.2 fun named hnamed => by simpa using hafter named hnamed

/-- A lease that is given back takes the flag with it if it set it. -/
theorem exclusive_dropLease {s : Session σ} (h : s.Exclusive) (name : Int) :
    (s.dropLease name).Exclusive := by
  unfold dropLease
  split
  · exact h
  · rename_i lease hlookup
    obtain ⟨before, after, hleases, hfilter⟩ := leases_split h.nodup hlookup
    refine ⟨h.nodup.sublist (List.filter_sublist.map Prod.fst), ?_⟩
    have hcount := h.acquired_eq
    rw [acquired, hleases, List.countP_append, List.countP_cons] at hcount
    rw [acquired, hfilter, List.countP_append, Controller.release]
    cases hacquired : lease.acquired with
    | false => simpa [hacquired] using hcount
    | true =>
      -- The flag stood for this lease alone.
      have hle := Bool.toNat_le s.controller.leased
      rw [hacquired, if_pos rfl] at hcount
      rw [if_pos rfl]
      show before.countP _ + after.countP _ = 0
      omega

theorem lookup_dropLease_self (s : Session σ) (name : Int) :
    (s.dropLease name).leases.lookup name = none := by
  unfold dropLease
  split
  · assumption
  · exact List.lookup_eq_none_iff.2 (by grind)

/-- A lease that is asked for is the only one acquired, if it is. -/
theorem exclusive_addLease {s : Session σ} (h : s.Exclusive) {name : Int}
    (hfree : s.leases.lookup name = none) : (s.addLease name).Exclusive := by
  constructor
  · have hname : name ∉ s.leases.map Prod.fst := by
      intro hmem
      obtain ⟨named, hnamed, rfl⟩ := List.mem_map.1 hmem
      simpa using List.lookup_eq_none_iff.1 hfree named hnamed
    exact List.nodup_cons.2 ⟨hname, h.nodup⟩
  · have hcount := h.acquired_eq
    rw [acquired] at hcount
    rw [acquired, addLease, List.countP_cons, hcount]
    cases hleased : s.controller.leased <;> simp [Controller.lease, hleased]

theorem exclusive_stepLease {s : Session σ} (h : s.Exclusive) (step : LeaseStep) :
    (s.stepLease step).1.Exclusive := by
  cases step with
  | take name =>
    exact exclusive_addLease (exclusive_dropLease h name) (s.lookup_dropLease_self name)
  | query name => exact h
  | drop name => exact exclusive_dropLease h name

theorem exclusive_stepSetting {s : Session σ} (h : s.Exclusive) (setting : Setting) :
    (s.stepSetting setting).1.Exclusive := by
  cases setting <;> exact ⟨h.nodup, h.acquired_eq⟩

theorem patience_stepLease (s : Session σ) (step : LeaseStep) :
    (s.stepLease step).1.controller.patience = s.controller.patience := by
  have hdrop (name : Int) : (s.dropLease name).controller.patience = s.controller.patience := by
    unfold dropLease Controller.release
    repeat' split
    all_goals rfl
  cases step with
  | query => rfl
  | drop name => exact hdrop name
  | take name => exact hdrop name

/-! ## The fate of one lease -/

theorem lookup_dropLease_of_ne (s : Session σ) {name other : Int} (hne : other ≠ name) :
    (s.dropLease other).leases.lookup name = s.leases.lookup name := by
  unfold dropLease
  split
  · rfl
  · induction s.leases with
    | nil => rfl
    | cons named rest ih => grind

theorem granted_stepLease (s : Session σ) {name : Int} {step : LeaseStep}
    (hkept : (Step.lease step).gives name = false) :
    (s.stepLease step).1.granted name = s.granted name := by
  cases step with
  | query => rfl
  | take other =>
    have hne : other ≠ name := by simpa [Step.gives] using hkept
    have hhead : (name == other) = false := by simpa using hne.symm
    rw [granted, granted, stepLease]
    simp only [addLease, List.lookup_cons, hhead, s.lookup_dropLease_of_ne hne]
  | drop other =>
    have hne : other ≠ name := by simpa [Step.gives] using hkept
    exact congrArg _ (s.lookup_dropLease_of_ne hne)

/-- Giving back a lease that was refused releases nothing. -/
theorem controller_dropLease_of_refused {s : Session σ} {name : Int}
    (hrefused : s.granted name = some false) : (s.dropLease name).controller = s.controller := by
  obtain ⟨lease, hlookup, hacquired⟩ := Option.map_eq_some_iff.1 hrefused
  rw [dropLease, hlookup]
  simp [Controller.release, hacquired]

/-! ## A new lease -/

theorem leased_of_granted {s : Session σ} (h : s.Exclusive) {name : Int}
    (hgranted : s.granted name = some true) : s.controller.leased = true := by
  obtain ⟨lease, hlookup, hacquired⟩ := Option.map_eq_some_iff.1 hgranted
  obtain ⟨before, after, hleases, -⟩ := List.lookup_eq_some_iff.1 hlookup
  have hpos : 0 < s.acquired := by
    rw [acquired, List.countP_pos_iff]
    exact ⟨(name, lease), by simp [hleases], hacquired⟩
  have hcount := h.acquired_eq
  cases hleased : s.controller.leased with
  | true => rfl
  | false =>
    rw [hleased, Bool.toNat_false] at hcount
    omega

theorem granted_addLease (s : Session σ) (name : Int) :
    (s.addLease name).granted name = some !s.controller.leased := by
  simp [addLease, granted, Controller.lease]

theorem leased_dropLease_of_free {s : Session σ} (hfree : s.controller.leased = false)
    (name : Int) :
    (s.dropLease name).controller.leased = false := by
  unfold dropLease Controller.release
  repeat' split
  all_goals first | exact hfree | rfl

/-! ## Runs -/

variable [Chip σ]

theorem controller_stepOperation (s : Session σ) (operation : Operation) :
    (s.step (.operation operation)).1.controller = s.controller :=
  operation.perform_snd s.controller s.chip

theorem exclusive_step {s : Session σ} (h : s.Exclusive) (step : Step) :
    (s.step step).1.Exclusive := by
  cases step with
  | operation operation =>
    refine ⟨h.nodup, ?_⟩
    rw [controller_stepOperation]
    exact h.acquired_eq
  | lease step => exact exclusive_stepLease h step
  | setting setting => exact exclusive_stepSetting h setting
  | log | isDebug => exact ⟨h.nodup, h.acquired_eq⟩

theorem exclusive_run {s : Session σ} (h : s.Exclusive) (steps : List Step) :
    (s.run steps).1.Exclusive := by
  induction steps generalizing s with
  | nil => exact h
  | cons step rest ih => exact ih (exclusive_step h step)

theorem granted_step (s : Session σ) {name : Int} {step : Step}
    (hkept : step.gives name = false) : (s.step step).1.granted name = s.granted name := by
  cases step with
  | lease step => exact s.granted_stepLease hkept
  | setting setting => cases setting <;> rfl
  | operation | log | isDebug => rfl

/-- A live lease is acquired or refused for as long as it lives. -/
theorem granted_run (s : Session σ) {name : Int} {steps : List Step}
    (hkept : ∀ step ∈ steps, step.gives name = false) :
    (s.run steps).1.granted name = s.granted name := by
  induction steps generalizing s with
  | nil => rfl
  | cons step rest ih =>
    obtain ⟨hstep, hrest⟩ := List.forall_mem_cons.1 hkept
    rw [run, ih _ hrest, granted_step s hstep]

/-- After any steps of a fresh session the controller is taken if and only if one live lease is
acquired. A lease that is asked for while it is free is granted, one asked for while another is
acquired is refused, and either way the controller is taken then. A refused lease stays refused and
releases nothing. An accepted operation of a device does nothing while the controller is taken; when
it is free, no operation finds it taken or leaves it so. Operations of the controller itself do not
look, and none changes any setting. -/
theorem lease_exclusion (patience : Patience) (logger : Logger) (chip : σ) (steps : List Step) :
    let s := ((fresh patience logger chip).run steps).1
    (s.leases.map Prod.fst).Nodup ∧ (s.controller.leased = true ↔ s.acquired = 1) ∧
    s.acquired ≤ 1 ∧
    (∀ name, let taken := s.step (.lease (.take name))
      taken.1.controller.leased = true ∧ taken.2.outcome = .granted (taken.1.granted name) ∧
      (s.controller.leased = false → taken.1.granted name = some true) ∧
      ∀ other, other ≠ name → s.granted other = some true →
        taken.1.granted name = some false) ∧
    (∀ name, s.granted name = some false → (s.dropLease name).controller = s.controller ∧
      ∀ more : List Step, (∀ step ∈ more, step.gives name = false) →
        (s.run more).1.granted name = some false) ∧
    (∀ operation : Operation, operation.Accepted → s.controller.leased = true →
      s.step (.operation operation) = (s, { outcome := .operation (operation.failure .busy) })) ∧
    (∀ operation : Operation, s.controller.leased = false →
      ((s.step (.operation operation)).1.controller.leased = false ∧
      ∀ outcome, (s.step (.operation operation)).2.outcome = .operation outcome →
        outcome.cause? ≠ some .busy)) ∧
    (∀ operation : Operation, operation.isDevice = false → ∀ leased,
      (operation.perform { s.controller with leased } s.chip).1 =
        (operation.perform s.controller s.chip).1) ∧
    ∀ operation : Operation, (s.step (.operation operation)).1.controller = s.controller := by
  intro s
  have hexclusive : s.Exclusive := exclusive_run (exclusive_fresh patience logger chip) steps
  have hcount := hexclusive.acquired_eq
  refine ⟨hexclusive.nodup, ?_, ?_, ?_, ?_, ?_, ?_, ?_, s.controller_stepOperation⟩
  · rw [hcount]
    cases s.controller.leased <;> decide
  · exact hcount ▸ Bool.toNat_le s.controller.leased
  · intro name taken
    have hgranted : taken.1.granted name = some !(s.dropLease name).controller.leased :=
      (s.dropLease name).granted_addLease name
    refine ⟨rfl, rfl, fun hfree => ?_, fun other hne hother => ?_⟩
    · rw [hgranted, leased_dropLease_of_free hfree]
      rfl
    · have hkept : (s.dropLease name).granted other = some true := by
        rw [granted, s.lookup_dropLease_of_ne hne.symm]
        exact hother
      rw [hgranted, leased_of_granted (exclusive_dropLease hexclusive name) hkept]
      rfl
  · intro name hrefused
    refine ⟨controller_dropLease_of_refused hrefused, fun more hkept => ?_⟩
    rw [s.granted_run hkept, hrefused]
  · intro operation haccepted hleased
    rw [step, Operation.perform_of_leased haccepted hleased]
    rfl
  · intro operation hfree
    refine ⟨by rw [controller_stepOperation, hfree], fun outcome houtcome => ?_⟩
    cases houtcome
    exact operation.not_busy_perform s.chip fun _ => hfree
  · intro operation hdevice leased
    exact Operation.perform_leased_irrel hdevice s.controller leased s.chip

/-- A lease that was refused stays so when the one in its way is given back; a later one is granted,
and outlives it. -/
example :
    let s := ((fresh {} {} ({} : ScriptedChip)).run [.lease (.take 0), .lease (.take 1),
      .lease (.drop 0), .lease (.take 2)]).1
    s.granted 1 = some false ∧ s.granted 2 = some true ∧
      (s.dropLease 1).controller.leased = true := by
  decide +kernel

end Session

end Ps2Host
