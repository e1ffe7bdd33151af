import Ps2Host.Proofs.Dialogue

/-!
# What an exchange ensures

What is kept of an exchange once it is over: the bytes that it received, the notices that are
delivered even without debugging, and its result. What holds of these on every chip can be read off
the exchange itself, step by step and without the waits.

## Main definitions

* `alarms` — the notices that are delivered even without debugging.
* `Transcript` — what was received and what alarms were raised; `Run.transcript`, those of a run.
* `Run.Keeps` — something holds of a result and of what is kept in all.
* `Transcript.Accords` — the alarm and the error are ones that go with what was received.
* `Transcript.AllowsStalls` — among the errors that are allowed are the failed waits.
* `Exchange.Ensures` — something holds of the transcript and the result, however the chip behaves.
* `Exchange.Tame` — the exchange raises no alarms and fails as it is allowed to.
* `Controller.PlanAccords` — what is planned for a device accords with what it receives.

## Main results

* `Exchange.ensures_bind` — what a chained exchange ensures, by its first part.
* `Exchange.Ensures.perform` — what is ensured holds when the exchange is carried out.
* `Controller.PlanAccords.carryOut` — so does what is planned for a device.
-/
namespace Ps2Host

/-! ## Transcripts -/

/-- The notices that are delivered even without debugging. -/
def alarms (notices : List Notice) : List Notice :=
  notices.filter fun notice => notice.level = .normal

@[simp] theorem alarms_nil : alarms [] = [] := rfl

@[simp] theorem alarms_append (first second : List Notice) :
    alarms (first ++ second) = alarms first ++ alarms second :=
  List.filter_append ..

/-- What is kept of an exchange: the bytes received and the alarms raised. -/
structure Transcript where
  received : List UInt8 := []
  alarms : List Notice := []

namespace Transcript

def append (t u : Transcript) : Transcript := ⟨t.received ++ u.received, t.alarms ++ u.alarms⟩

def hear (t : Transcript) (byte : UInt8) : Transcript := { t with received := t.received ++ [byte] }

/-- A notice was raised; only an alarm is kept. -/
def raise (t : Transcript) (notice : Notice) : Transcript :=
  { t with alarms := t.alarms ++ Ps2Host.alarms [notice] }

theorem append_heard (t : Transcript) (byte : UInt8) : t.append ⟨[byte], []⟩ = t.hear byte := by
  simp [append, hear]

theorem append_raised (t : Transcript) (notice : Notice) :
    t.append ⟨[], Ps2Host.alarms [notice]⟩ = t.raise notice := by
  simp [append, raise]

theorem append_assoc (t u v : Transcript) : (t.append u).append v = t.append (u.append v) := by
  simp [append]

@[simp] theorem append_empty (t : Transcript) : t.append {} = t := by
  simp [append]

@[simp] theorem empty_append (t : Transcript) : append {} t = t := by
  simp [append]

section Accords

variable {ε α : Type} {complaint? : List UInt8 → Option Message}
  {allowed : List UInt8 → ε → Prop} {t : Transcript}

/-- The only alarm is the complaint that goes with what was received, if there is one, and an error
is one that is allowed after it. -/
structure Accords (complaint? : List UInt8 → Option Message) (allowed : List UInt8 → ε → Prop)
    (t : Transcript) (result : Except ε α) : Prop where
  alarms : t.alarms = (complaint? t.received).toList.map .normal
  allowed : ∀ e, result = .error e → allowed t.received e

theorem accords_ok (ht : t.alarms = (complaint? t.received).toList.map .normal) (a : α) :
    Accords complaint? allowed t (.ok a) :=
  ⟨ht, nofun⟩

theorem accords_error (ht : t.alarms = (complaint? t.received).toList.map .normal) {e : ε}
    (he : allowed t.received e) : Accords complaint? allowed t (.error e : Except ε α) :=
  ⟨ht, by rintro _ ⟨⟩; exact he⟩

theorem Accords.map {β : Type} {result : Except ε α} (h : Accords complaint? allowed t result)
    (f : α → β) : Accords complaint? allowed t (result.map f) := by
  cases result with
  | ok a => exact accords_ok h.alarms (f a)
  | error e => exact accords_error h.alarms (h.allowed e rfl)

/-- The failed waits are allowed, whatever was received. -/
class AllowsStalls [Controller.Fault ε] (allowed : List UInt8 → ε → Prop) : Prop where
  stall : ∀ received (stall : Stall), allowed received stall.fault

theorem accords_stalled [Controller.Fault ε] [AllowsStalls allowed]
    (ht : t.alarms = (complaint? t.received).toList.map .normal) (stall : Stall) :
    Accords complaint? allowed t (.error stall.fault : Except ε α) :=
  accords_error ht (AllowsStalls.stall t.received stall)

/-- There is no alarm, and an error is one that is allowed after what was received. -/
abbrev Calm (allowed : List UInt8 → ε → Prop) (t : Transcript) (result : Except ε α) : Prop :=
  Accords (fun _ => none) allowed t result

/-- After the bytes before, there was an acknowledgement, or one byte at most and an error that is
allowed. -/
def Answered (allowed : List UInt8 → ε → Prop) (before : List UInt8) (t : Transcript)
    (result : Except ε Unit) : Prop :=
  t = { received := before ++ [Reply.acknowledge] } ∧ result = .ok () ∨
  ∃ e, result = .error e ∧ t.alarms = [] ∧ t.received.length ≤ before.length + 1 ∧
    allowed t.received e

theorem Answered.calm {before : List UInt8} {result : Except ε Unit}
    (h : Answered allowed before t result) : Calm allowed t result := by
  obtain ⟨rfl, rfl⟩ | ⟨e, rfl, halarms, -, hallowed⟩ := h
  · exact accords_ok rfl ()
  · exact accords_error halarms hallowed

end Accords

end Transcript

namespace Run

variable {σ α β : Type}

def transcript (r : Run σ α) : Transcript := ⟨r.trace.replies, alarms r.notices⟩

theorem transcript_andThen (r : Run σ α) (f : α → σ → Run σ β) :
    (r.andThen f).transcript = r.transcript.append (f r.result r.chip).transcript := by
  simp [transcript, andThen, Transcript.append]

def Keeps (post : Transcript → α → Prop) (t : Transcript) (r : Run σ α) : Prop :=
  post (t.append r.transcript) r.result

variable {post : Transcript → α → Prop} {t : Transcript}

theorem keeps_pure {a : α} (h : post t a) (chip : σ) : (pure a chip).Keeps post t := by
  have hempty : (pure a chip).transcript = {} := rfl
  rw [Keeps, hempty, Transcript.append_empty]
  exact h

theorem keeps_andThen {r : Run σ β} {f : β → σ → Run σ α} :
    (r.andThen f).Keeps post t ↔ (f r.result r.chip).Keeps post (t.append r.transcript) := by
  rw [Keeps, transcript_andThen, ← Transcript.append_assoc]
  rfl

theorem keeps_empty {r : Run σ α} : r.Keeps post {} ↔ post r.transcript r.result := by
  rw [Keeps, Transcript.empty_append]

/-- What keeps nothing may come first. -/
theorem keeps_of_empty {r : Run σ β} (hempty : r.transcript = {}) {f : β → σ → Run σ α} :
    (r.andThen f).Keeps post t ↔ (f r.result r.chip).Keeps post t := by
  rw [keeps_andThen, hempty, Transcript.append_empty]

theorem keeps_note {notice : Notice} {chip : σ} {f : Unit → σ → Run σ α} :
    ((note notice chip).andThen f).Keeps post t ↔ (f () chip).Keeps post (t.raise notice) := by
  have hraised : (note notice chip).transcript = ⟨[], alarms [notice]⟩ := rfl
  rw [keeps_andThen, hraised, Transcript.append_raised]
  rfl

theorem keeps_read [Chip σ] {chip : σ} {f : UInt8 → σ → Run σ α} :
    ((read chip).andThen f).Keeps post t ↔
      (f (read chip).result (read chip).chip).Keeps post (t.hear (read chip).result) := by
  have hheard : (read chip).transcript = ⟨[(read chip).result], []⟩ := rfl
  rw [keeps_andThen, hheard, Transcript.append_heard]

end Run

section Waits

variable {σ : Type} [Chip σ]

theorem Patience.transcript_pollFor (patience : Patience) (ready : Register .status → Bool)
    {complaint : Notice} (hdebug : alarms [complaint] = []) (chip : σ) :
    (patience.pollFor ready complaint chip).transcript = {} := by
  obtain ⟨hmoves, hnotices⟩ := moves_poll ready patience.limit.toNat chip
  have hpoll : (poll ready patience.limit.toNat chip).transcript = {} := by
    rw [Run.transcript, ← Trace.replies_moves, hmoves, hnotices]
    rfl
  rw [pollFor, Run.transcript_andThen, hpoll, Transcript.empty_append]
  split
  · rfl
  · rw [Run.transcript_andThen]
    simp [Run.transcript, Run.note, Run.pure, hdebug, Transcript.append]

theorem Patience.transcript_await (patience : Patience) (need : Need) (chip : σ) :
    (patience.await need chip).transcript = {} := by
  cases need with
  | room => exact patience.transcript_pollFor hasRoom rfl chip
  | byte =>
    rw [await, awaitByte]
    split
    · exact patience.transcript_pollFor hasByte rfl chip
    · rfl

end Waits

/-! ## What is ensured -/

namespace Exchange

open Transcript (Accords AllowsStalls Answered Calm accords_ok accords_error accords_stalled)

variable {ε α β : Type} [Controller.Fault ε]

/-- Something holds of the transcript and the result in the end, however the chip behaves, if the
transcript is given so far. -/
def Ensures (post : Transcript → Except ε α → Prop) : Exchange ε α → Transcript → Prop
  | done a, t => post t (.ok a)
  | fail e, t => post t (.error e)
  | note notice next, t => next.Ensures post (t.raise notice)
  | send _ _ next, t => (∀ stall : Stall, post t (.error stall.fault)) ∧ next.Ensures post t
  | receive next, t =>
    (∀ stall : Stall, post t (.error stall.fault)) ∧
      ∀ byte, (next byte).Ensures post (t.hear byte)
  | listen next, t =>
    post t (.error Stall.wouldBlock.fault) ∧ (next none).Ensures post t ∧
      ∀ byte, (next (some byte)).Ensures post (t.hear byte)

variable {x : Exchange ε α} {t : Transcript}

theorem Ensures.mono {p q : Transcript → Except ε α → Prop} (h : x.Ensures p t)
    (hpq : ∀ t result, p t result → q t result) : x.Ensures q t := by
  induction x generalizing t with
  | done | fail => exact hpq _ _ h
  | note notice next ih => exact ih h
  | send port byte next ih => exact ⟨fun stall => hpq _ _ (h.1 stall), ih h.2⟩
  | receive next ih => exact ⟨fun stall => hpq _ _ (h.1 stall), fun byte => ih byte (h.2 byte)⟩
  | listen next ih =>
    exact ⟨hpq _ _ h.1, ih none h.2.1, fun byte => ih (some byte) (h.2.2 byte)⟩

/-- What is wanted of the first part of a chained exchange: an error ends it, and with a result the
rest goes on. -/
def Chained (post : Transcript → Except ε β → Prop) (f : α → Exchange ε β) :
    Transcript → Except ε α → Prop
  | t, .error e => post t (.error e)
  | t, .ok a => (f a).Ensures post t

/-- A chained exchange ensures what its first part ensures of the rest. -/
theorem ensures_bind {post : Transcript → Except ε β → Prop} {f : α → Exchange ε β} :
    (x >>= f).Ensures post t ↔ x.Ensures (Chained post f) t := by
  induction x generalizing t with
  | done | fail => rfl
  | note notice next ih => simp only [note_bind, Ensures, ih]
  | send port byte next ih => simp only [send_bind, Ensures, ih, Chained]
  | receive next ih => simp only [receive_bind, Ensures, ih, Chained]
  | listen next ih => simp only [listen_bind, Ensures, ih, Chained]

theorem ensures_map {post : Transcript → Except ε β → Prop} {f : α → β} :
    (f <$> x).Ensures post t ↔ x.Ensures (fun t result => post t (result.map f)) t := by
  rw [map_eq_pure_bind, ensures_bind]
  have hpost : Chained post (fun a => pure (f a)) = fun t result => post t (result.map f) := by
    funext t result
    cases result <;> rfl
  rw [hpost]

theorem ensures_seqRight_pure {post : Transcript → Except ε β → Prop} {b : β} :
    (x *> pure b).Ensures post t ↔
      x.Ensures (fun t result => post t (result.map fun _ => b)) t := by
  rw [seqRight_eq_bind, ← map_eq_pure_bind, ensures_map]

variable {σ : Type} [Chip σ]

theorem Ensures.perform {post : Transcript → Except ε α → Prop} (h : x.Ensures post t)
    (patience : Patience) (chip : σ) : (x.perform patience chip).Keeps post t := by
  have hroom := patience.transcript_await .room (σ := σ)
  have hbyte := patience.transcript_await .byte (σ := σ)
  simp only [Patience.await] at hroom hbyte
  induction x generalizing t chip with
  | done | fail => exact Run.keeps_pure h chip
  | note notice next ih => exact Run.keeps_note.2 (ih h chip)
  | send port byte next ih =>
    rw [Exchange.perform, Run.keeps_of_empty (hroom chip)]
    cases (patience.awaitRoom chip).result with
    | error stall => exact Run.keeps_pure (h.1 stall) _
    | ok => exact (Run.keeps_of_empty rfl).2 (ih h.2 _)
  | receive next ih =>
    rw [Exchange.perform, Run.keeps_of_empty (hbyte chip)]
    cases (patience.awaitByte chip).result with
    | error stall => exact Run.keeps_pure (h.1 stall) _
    | ok => exact Run.keeps_read.2 (ih _ (h.2 _) _)
  | listen next ih =>
    rw [Exchange.perform, Run.keeps_of_empty (hbyte chip)]
    cases (patience.awaitByte chip).result with
    | ok => exact Run.keeps_read.2 (ih _ (h.2.2 _) _)
    | error stall =>
      cases stall with
      | timeout => exact ih none h.2.1 _
      | wouldBlock => exact Run.keeps_pure h.1 _

/-! ## Exchanges that raise no alarms -/

/-- The exchange raises no alarms and fails as it is allowed to, whatever was received before. -/
def Tame (allowed : List UInt8 → ε → Prop) (x : Exchange ε α) : Prop :=
  ∀ received, x.Ensures (Calm allowed) { received }

section Tame

variable {allowed : List UInt8 → ε → Prop}

theorem tame_done (a : α) : (done a : Exchange ε α).Tame allowed := fun _ => accords_ok rfl a

theorem Tame.bind {f : α → Exchange ε β} (hx : x.Tame allowed) (hf : ∀ a, (f a).Tame allowed) :
    (x >>= f).Tame allowed := by
  intro received
  refine ensures_bind.2 ((hx received).mono fun t result hcalm => ?_)
  obtain ⟨received, alarms⟩ := t
  obtain rfl : alarms = [] := hcalm.alarms
  cases result with
  | error e => exact accords_error rfl (hcalm.allowed e rfl)
  | ok a => exact hf a received

theorem Tame.map (hx : x.Tame allowed) (f : α → β) : (f <$> x).Tame allowed := by
  rw [map_eq_pure_bind]
  exact hx.bind fun a => tame_done (f a)

theorem Tame.seqRight_pure (hx : x.Tame allowed) (b : β) : (x *> pure b).Tame allowed := by
  rw [seqRight_eq_bind]
  exact hx.bind fun _ => tame_done b

/-- What raises no alarm accords if there is nothing to complain about. -/
theorem Tame.accords (hx : x.Tame allowed) {complaint? : List UInt8 → Option Message}
    (hquiet : ∀ received, complaint? received = none) :
    x.Ensures (Accords complaint? allowed) {} := by
  refine (hx []).mono fun t result hcalm => ⟨?_, hcalm.allowed⟩
  rw [hquiet]
  exact hcalm.alarms

variable [AllowsStalls allowed]

theorem tame_sendData (byte : UInt8) : (sendData byte : Exchange ε Unit).Tame allowed :=
  fun _ => ⟨accords_stalled rfl, accords_ok rfl ()⟩

theorem tame_sendCommand (byte : UInt8) : (sendCommand byte : Exchange ε Unit).Tame allowed :=
  fun _ => ⟨accords_stalled rfl, accords_ok rfl ()⟩

theorem tame_receiveByte : (receiveByte : Exchange ε UInt8).Tame allowed := fun _ =>
  ⟨accords_stalled rfl, fun byte => accords_ok rfl byte⟩

theorem tame_receiveBytes (n : Nat) : (receiveBytes n : Exchange ε (List UInt8)).Tame allowed := by
  induction n with
  | zero => exact tame_done []
  | succ n ih =>
    exact tame_receiveByte.bind fun byte => ih.bind fun bytes => tame_done (byte :: bytes)

variable {before : List UInt8} {y : Exchange ε Unit}

/-- Something that is sent before takes nothing from an answer. -/
theorem answered_send (hy : y.Ensures (Answered allowed before) { received := before })
    (port : Port) (byte : UInt8) :
    (send port byte y).Ensures (Answered allowed before) { received := before } :=
  ⟨fun stall => .inr ⟨_, rfl, rfl, Nat.le_succ _, AllowsStalls.stall before stall⟩, hy⟩

/-- A reply that has to be an acknowledgement is one byte, and is refused as it is allowed to. -/
theorem Checks.answered {refuse : UInt8 → ε} (hy : y.Checks refuse)
    (hrefuse : ∀ received reply, reply ≠ Reply.acknowledge →
      allowed (received ++ [reply]) (refuse reply)) :
    y.Ensures (Answered allowed before) { received := before } := by
  obtain ⟨next, rfl, hacknowledged, hrefused⟩ := hy
  refine ⟨fun stall => .inr ⟨_, rfl, rfl, Nat.le_succ _, AllowsStalls.stall before stall⟩,
    fun reply => ?_⟩
  by_cases hreply : reply = Reply.acknowledge
  · rw [hreply, hacknowledged]
    exact .inl ⟨rfl, rfl⟩
  · have hlength : (before ++ [reply]).length ≤ before.length + 1 := by simp
    have hallowed := hrefuse before reply hreply
    obtain hnext | ⟨message, hnext⟩ := hrefused reply hreply <;> rw [hnext]
    · exact .inr ⟨_, rfl, rfl, hlength, hallowed⟩
    · exact .inr ⟨_, rfl, rfl, hlength, hallowed⟩

theorem Checks.tame {refuse : UInt8 → ε} (hy : y.Checks refuse)
    (hrefuse : ∀ received reply, reply ≠ Reply.acknowledge →
      allowed (received ++ [reply]) (refuse reply)) : y.Tame allowed := fun _ =>
  (hy.answered hrefuse).mono fun _ _ => Answered.calm

end Tame

end Exchange

/-! ## Operations on a device -/

namespace Controller

open Transcript (Accords accords_error)

variable {σ ε α : Type} [Chip σ] [Fault ε]

/-- What is planned ensures holds when it is carried out, if it holds of a plan that is refused and
of a lease that is. -/
theorem ensures_carryOut (c : Controller) {post : Transcript → Except ε α → Prop}
    {plan : Except ε (Exchange ε α)} (hplan : ∀ x, plan = .ok x → x.Ensures post {})
    (hrefused : ∀ e, plan = .error e → post {} (.error e))
    (hbusy : post {} (.error (Fault.ofController .busy))) (chip : σ) :
    post (c.carryOut plan chip).1.transcript (c.carryOut plan chip).1.result := by
  cases plan with
  | error e => exact hrefused e rfl
  | ok x =>
    rw [carryOut, hold_eq]
    cases c.leased with
    | true => exact hbusy
    | false => exact Run.keeps_empty.1 ((hplan x rfl).perform c.patience chip)

/-- What is planned accords with what it receives. So it does if nothing comes of it, because it is
refused or the controller is taken. -/
structure PlanAccords (complaint? : List UInt8 → Option Message) (allowed : List UInt8 → ε → Prop)
    (plan : Except ε (Exchange ε α)) : Prop where
  planned : ∀ x, plan = .ok x → x.Ensures (Accords complaint? allowed) {}
  refused : ∀ e, plan = .error e → allowed [] e
  busy : allowed [] (Fault.ofController .busy)
  quiet : complaint? [] = none

theorem PlanAccords.carryOut {complaint? : List UInt8 → Option Message}
    {allowed : List UInt8 → ε → Prop} {plan : Except ε (Exchange ε α)}
    (h : PlanAccords complaint? allowed plan) (c : Controller) (chip : σ) :
    Accords complaint? allowed (c.carryOut plan chip).1.transcript
      (c.carryOut plan chip).1.result := by
  have hquiet : ({} : Transcript).alarms = (complaint? []).toList.map .normal := by
    rw [h.quiet]
    rfl
  exact c.ensures_carryOut h.planned (fun e hplan => accords_error hquiet (h.refused e hplan))
    (accords_error hquiet h.busy) chip

end Controller

end Ps2Host
