import Ps2Host.Chip.Scripted
import Ps2Host.Proofs.Bounds
import Ps2Host.Session.Basic

/-!
# The discipline of the bus

On any chip, an operation makes transfers one after the other and nothing else, except that it can
end in a wait that fails. A transfer is a wait that ends well and the one access that it is for.

## Main definitions

* `Transfer` — the register accesses of one transfer.
* `Trace.Guarded` — every read and every write directly follows a status read that allows it.
* `Operation.turns` — the turns that an operation takes.

## Main results

* `Operation.disciplined_perform` — the accesses of an operation are those of a bounded number of
  transfers, and perhaps of a failed wait.
-/
namespace Ps2Host

variable {σ : Type} [Chip σ]

/-! ## Turns of operations -/

namespace Controller

variable {ε α : Type}

/-- The turns of what was planned. There are none if the plan is refused or the controller taken. -/
def turns (c : Controller) (plan : Except ε (Exchange ε α)) (chip : σ) : List Turn :=
  match plan with
  | .error _ => []
  | .ok x => if c.leased then [] else x.turns c.patience chip

theorem regular_of_mem_turns (c : Controller) (plan : Except ε (Exchange ε α)) (chip : σ) :
    ∀ turn ∈ c.turns plan chip, turn.Regular c.patience := by
  intro turn hturn
  unfold turns at hturn
  split at hturn
  · cases hturn
  · split at hturn
    · cases hturn
    · exact Exchange.regular_of_mem_turns c.patience _ chip turn hturn

variable [Fault ε]

theorem trace_carryOut (c : Controller) (plan : Except ε (Exchange ε α)) (chip : σ) :
    (c.carryOut plan chip).1.trace = (c.turns plan chip).flatMap Turn.trace := by
  cases plan with
  | error e => rfl
  | ok x =>
    rw [carryOut, hold_eq]
    cases hleased : c.leased with
    | true => simp [turns, hleased, Run.pure]
    | false => simp [turns, hleased, Exchange.trace_perform]

end Controller

/-- The turns of an operation below transfers: a bare wait is one, if it fails. -/
def Controller.Probe.turns (patience : Patience) (probe : Probe) (chip : σ) : List Turn :=
  match probe with
  | awaitByte => stalled .byte (patience.awaitByte chip)
  | awaitRoom => stalled .room (patience.awaitRoom chip)
  | status | flush => []
where
  stalled (need : Need) (wait : Run σ (Except Stall Unit)) : List Turn :=
    match wait.result with
    | .error stall => [.stalled wait.trace need stall]
    | .ok _ => []

namespace Operation

def turns (operation : Operation) (c : Controller) (chip : σ) : List Turn :=
  match operation with
  | probe p => p.turns c.patience chip
  | controller request => request.exchange.turns c.patience chip
  | keyboard request => c.turns request.plan chip
  | mouse request => c.turns request.plan chip

def transferLimit : Operation → Nat
  | controller .dump => 33
  | _ => 6

end Operation

/-! ## Transfers -/

/-- The register accesses of a transfer: a wait that ends well, and the access that it is for. -/
inductive Transfer (patience : Patience) : Trace → Prop
  | read {wait : Trace} (hwait : patience.Met .byte wait) (byte : UInt8) :
      Transfer patience (wait ++ [.read byte])
  | write {wait : Trace} (hwait : patience.Met .room wait) (port : Port) (byte : UInt8) :
      Transfer patience (wait ++ [.write port byte])

theorem Turn.Regular.transfer {patience : Patience} {turn : Turn} (h : turn.Regular patience)
    (hturn : turn.isTransfer = true) : Transfer patience turn.trace := by
  cases turn with
  | sent wait port byte => exact .write h port byte
  | received wait byte => exact .read h byte
  | stalled => cases hturn

/-- What a status read has to show directly before an access. -/
def Access.need? : Access → Option Need
  | status _ => none
  | read _ => some .byte
  | write _ _ => some .room

theorem eq_or_mem_of_append_singleton_eq {α : Type} {front before after : List α} {last a : α}
    (h : front ++ [last] = before ++ a :: after) :
    (front = before ∧ last = a ∧ after = []) ∨ a ∈ front := by
  obtain rfl | ⟨init, x, rfl⟩ := List.eq_nil_or_concat after
  · obtain ⟨rfl, hsame⟩ := List.append_inj' h rfl
    cases hsame
    exact .inl ⟨rfl, rfl, rfl⟩
  · have hsplit : front ++ [last] = (before ++ a :: init) ++ [x] := by simpa using h
    obtain ⟨rfl, -⟩ := List.append_inj' hsplit rfl
    exact .inr (by simp)

namespace Trace

/-- Every read and every write directly follows a status read that allows it. -/
def Guarded (trace : Trace) : Prop :=
  ∀ before access after need, trace = before ++ access :: after → access.need? = some need →
    ∃ earlier status, before = earlier ++ [.status status] ∧ need.met status = true

theorem Guarded.append {s t : Trace} (hs : Guarded s) (ht : Guarded t) : Guarded (s ++ t) := by
  intro before access after need hsplit hneed
  obtain ⟨middle, rfl, hrest⟩ | ⟨middle, rfl, hrest⟩ := List.append_eq_append_iff.1 hsplit
  · obtain ⟨earlier, status, rfl, hmet⟩ := ht middle access after need hrest hneed
    exact ⟨s ++ earlier, status, (List.append_assoc ..).symm, hmet⟩
  · cases middle with
    | nil =>
      obtain ⟨earlier, status, hempty, -⟩ := ht [] access after need hrest.symm hneed
      cases earlier <;> cases hempty
    | cons first rest =>
      obtain ⟨rfl, rfl⟩ := List.cons_eq_cons.1 hrest
      exact hs before access rest need rfl hneed

theorem Guarded.flatten {traces : List Trace} (h : ∀ trace ∈ traces, Guarded trace) :
    Guarded traces.flatten := by
  induction traces with
  | nil => intro before access after need hsplit; cases before <;> cases hsplit
  | cons first rest ih =>
    obtain ⟨hfirst, hrest⟩ := List.forall_mem_cons.1 h
    exact hfirst.append (ih hrest)

theorem guarded_status (statuses : List UInt8) : Guarded (statuses.map .status) := by
  intro before access after need hsplit hneed
  have hmem : access ∈ statuses.map Access.status := by simp [hsplit]
  obtain ⟨status, -, rfl⟩ := List.mem_map.1 hmem
  cases hneed

end Trace

theorem Patience.Missed.guarded {patience : Patience} {need : Need} {wait : Trace}
    (h : patience.Missed need wait) : wait.Guarded := by
  obtain ⟨missed, rfl, -, -⟩ := h
  exact Trace.guarded_status missed

/-- An access after the wait for it is guarded by the last status read. -/
theorem Patience.Met.guarded {patience : Patience} {need : Need} {wait : Trace}
    (h : patience.Met need wait) {access : Access} (haccess : access.need? = some need) :
    Trace.Guarded (wait ++ [access]) := by
  obtain ⟨missed, shown, rfl, -, -, hmet⟩ := h
  intro before other after need' hsplit hneed
  obtain ⟨rfl, rfl, -⟩ | hmem := eq_or_mem_of_append_singleton_eq hsplit
  · obtain rfl := Option.some.inj (haccess.symm.trans hneed)
    exact ⟨_, shown, rfl, hmet⟩
  · -- Not the last access of the transfer, so one of the status reads of its wait.
    rw [← List.map_singleton, ← List.map_append] at hmem
    obtain ⟨status, -, rfl⟩ := List.mem_map.1 hmem
    cases hneed

theorem Transfer.guarded {patience : Patience} {trace : Trace} (h : Transfer patience trace) :
    trace.Guarded := by
  cases h with
  | read hwait byte => exact hwait.guarded rfl
  | write hwait port byte => exact hwait.guarded rfl

/-! ## Operations -/

/-- There are at most `n` transfers, and after them nothing but perhaps a wait that failed. -/
def Turn.Orderly (n : Nat) (turns : List Turn) : Prop :=
  ∃ moves rest, turns = moves ++ rest ∧ (∀ turn ∈ moves, turn.isTransfer = true) ∧
    moves.length ≤ n ∧ (rest = [] ∨ ∃ wait need stall, rest = [.stalled wait need stall])

theorem Turn.orderly_nil (n : Nat) : Orderly n [] := ⟨[], [], rfl, nofun, Nat.zero_le n, .inl rfl⟩

theorem Turn.Faithful.orderly {ε α : Type} [Controller.Fault ε] {turns : List Turn}
    {result : Except ε α} {n : Nat} (h : Faithful turns result)
    (hcount : turns.countP Turn.isTransfer ≤ n) : Orderly n turns := by
  cases h with
  | moved hturns =>
    refine ⟨turns, [], (List.append_nil _).symm, hturns, ?_, .inl rfl⟩
    rwa [List.countP_eq_length.2 hturns] at hcount
  | stalled before hbefore wait need stall =>
    refine ⟨before, _, rfl, hbefore, ?_, .inr ⟨wait, need, stall, rfl⟩⟩
    rw [List.countP_append, List.countP_eq_length.2 hbefore] at hcount
    exact Nat.le_of_add_right_le hcount

theorem Controller.orderly_turns {ε α : Type} [Fault ε] {plan : Except ε (Exchange ε α)} {n : Nat}
    (hplan : ∀ x turns result, plan = .ok x → Exchange.Course x turns result →
      Turn.Orderly n turns) (c : Controller) (chip : σ) : Turn.Orderly n (c.turns plan chip) := by
  cases plan with
  | error e => exact Turn.orderly_nil n
  | ok x =>
    rw [turns]
    split
    · exact Turn.orderly_nil n
    · exact hplan x _ _ rfl (Exchange.course_turns c.patience x chip)

namespace Operation

/-- The accesses of an operation that makes transfers are those of its turns, which are bounded and
keep to the patience of the host. -/
theorem turns_orderly (operation : Operation) (hprobe : ∀ probe, operation ≠ .probe probe)
    (c : Controller) (chip : σ) :
    (operation.perform c chip).1.trace = (operation.turns c chip).flatMap Turn.trace ∧
      (∀ turn ∈ operation.turns c chip, turn.Regular c.patience) ∧
      Turn.Orderly operation.transferLimit (operation.turns c chip) := by
  cases operation with
  | probe p => exact absurd rfl (hprobe p)
  | controller request =>
    refine ⟨Exchange.trace_perform .., Exchange.regular_of_mem_turns c.patience _ chip, ?_⟩
    obtain ⟨hcount, hfaithful⟩ :=
      request.within_exchange.of_course (Exchange.course_turns c.patience request.exchange chip)
    refine hfaithful.orderly (Nat.le_trans hcount ?_)
    cases request <;> exact Nat.le_of_ble_eq_true rfl
  | keyboard request =>
    refine ⟨Controller.trace_carryOut .., Controller.regular_of_mem_turns c _ chip, ?_⟩
    refine Controller.orderly_turns (fun x turns result hplan hcourse => ?_) c chip
    obtain ⟨hcount, ⟨-, hfaithful⟩ | ⟨-, ⟨room, reply, silence, rfl⟩, -⟩⟩ :=
      Keyboard.Request.course_plan hplan hcourse
    · exact hfaithful.orderly hcount
    · exact ⟨[_, _], [_], rfl, by simp, by simp [transferLimit],
        .inr ⟨silence, .byte, .timeout, rfl⟩⟩
  | mouse request =>
    refine ⟨Controller.trace_carryOut .., Controller.regular_of_mem_turns c _ chip, ?_⟩
    refine Controller.orderly_turns (fun x turns result hplan hcourse => ?_) c chip
    obtain ⟨hcount, hfaithful⟩ := (Mouse.Request.within_plan hplan).of_course hcourse
    exact hfaithful.orderly hcount

end Operation

/-- The accesses are those of transfers, at most `n` of them, and perhaps of a wait that fails after
them. -/
def Patience.Disciplined (patience : Patience) (n : Nat) (trace : Trace) : Prop :=
  ∃ (transfers : List Trace) (rest : Trace), trace = transfers.flatten ++ rest ∧
    (∀ transfer ∈ transfers, Transfer patience transfer) ∧ transfers.length ≤ n ∧
    (rest = [] ∨ ∃ need, patience.Missed need rest)

theorem Patience.Disciplined.guarded {patience : Patience} {n : Nat} {trace : Trace}
    (h : patience.Disciplined n trace) : trace.Guarded := by
  obtain ⟨transfers, rest, rfl, htransfers, -, hrest⟩ := h
  have hmoves : Trace.Guarded transfers.flatten :=
    Trace.Guarded.flatten fun transfer hmem => (htransfers transfer hmem).guarded
  refine hmoves.append ?_
  obtain rfl | ⟨need, hmissed⟩ := hrest
  · exact Trace.guarded_status []
  · exact hmissed.guarded

theorem Turn.Orderly.disciplined {patience : Patience} {n : Nat} {turns : List Turn}
    (h : Orderly n turns) (hregular : ∀ turn ∈ turns, turn.Regular patience) :
    patience.Disciplined n (turns.flatMap Turn.trace) := by
  obtain ⟨moves, rest, rfl, hmoves, hlength, hrest⟩ := h
  rw [List.forall_mem_append] at hregular
  refine ⟨moves.map Turn.trace, rest.flatMap Turn.trace, ?_, ?_, by rwa [List.length_map], ?_⟩
  · rw [List.flatMap_append, List.flatMap_def]
  · intro transfer hmem
    obtain ⟨turn, hturn, rfl⟩ := List.mem_map.1 hmem
    exact (hregular.1 turn hturn).transfer (hmoves turn hturn)
  · obtain rfl | ⟨wait, need, stall, rfl⟩ := hrest
    · exact .inl rfl
    · have hmissed : patience.Missed need wait := (hregular.2 _ (List.mem_singleton.2 rfl)).1
      exact .inr ⟨need, by simpa [Turn.trace] using hmissed⟩

/-- On any chip, what an operation does on the bus is a bounded number of transfers and perhaps a
wait that fails; so nothing is read or written but directly after a status read that allows it. -/
theorem Operation.disciplined_perform (operation : Operation)
    (hprobe : ∀ probe, operation ≠ .probe probe) (c : Controller) (chip : σ) :
    c.patience.Disciplined operation.transferLimit (operation.perform c chip).1.trace ∧
      (operation.perform c chip).1.trace.Guarded := by
  obtain ⟨htrace, hregular, horderly⟩ := turns_orderly operation hprobe c chip
  have hdisciplined := horderly.disciplined hregular
  rw [← htrace] at hdisciplined
  exact ⟨hdisciplined, hdisciplined.guarded⟩

open ScriptedChip in
/-- An echo that comes with the second look, when the host has two. -/
theorem Operation.disciplined_echo :
    let c : Controller := { patience := { limit := 2 } }
    let chip : ScriptedChip := { rules := [(⟨.keyboard, some 0xEE⟩, [⟨1, 0xEE⟩])] }
    let trace := ((Operation.keyboard .echo).perform c chip).1.trace
    (∀ probe, Operation.keyboard .echo ≠ .probe probe) ∧
      trace = [.status 0, .write .data 0xEE, .status 0, .status 1, .read 0xEE] ∧
      c.patience.Disciplined 6 trace ∧ trace.Guarded :=
  ⟨nofun, by decide +kernel, disciplined_perform (.keyboard .echo) nofun _ _⟩

end Ps2Host
