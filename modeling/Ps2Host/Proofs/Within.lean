import Ps2Host.Proofs.Course

/-!
# How much an exchange transfers

Most exchanges treat every wait alike: a wait that fails ends them and is their result. For these a
bound on the transfers can be read off their parts.

## Main definitions

* `Controller.Fault.Own` — the errors that are neither a failed wait nor a refused lease.
* `Exchange.Within n` — the exchange makes at most `n` transfers, and no failed wait is an answer.
* `Turn.Faithful` — only the last wait can have failed, and then that is the result.

## Main results

* `Exchange.Within.of_course` — every course of such an exchange is bounded and faithful.
-/
namespace Ps2Host

/-- The error is neither a wait that failed nor a lease that was refused. -/
def Controller.Fault.Own {ε : Type} [Controller.Fault ε] (e : ε) : Prop :=
  e ≠ ofController .busy ∧ ∀ stall : Stall, e ≠ stall.fault

open Controller.Fault (Own)

theorem Controller.Fault.own_of_ne {ε : Type} [Controller.Fault ε] {e : ε}
    (h : ∀ cause, e ≠ ofController cause) : Own e :=
  ⟨h _, fun _ => h _⟩

/-- Every turn moved a byte, and an error is no failed wait; or the last wait failed, and that is
the result. -/
inductive Turn.Faithful {ε α : Type} [Controller.Fault ε] : List Turn → Except ε α → Prop
  | moved {turns result} (hturns : ∀ turn ∈ turns, turn.isTransfer = true)
      (hresult : ∀ e, result = .error e → Own e) : Faithful turns result
  | stalled (before : List Turn) (hbefore : ∀ turn ∈ before, turn.isTransfer = true) (wait : Trace)
      (need : Need) (stall : Stall) :
      Faithful (before ++ [.stalled wait need stall]) (.error stall.fault)

namespace Turn.Faithful

variable {ε α : Type} [Controller.Fault ε] {turns : List Turn} {result : Except ε α}

theorem cons {turn : Turn} (hturn : turn.isTransfer = true) (h : Faithful turns result) :
    Faithful (turn :: turns) result := by
  cases h with
  | moved hturns hresult => exact .moved (by simpa [hturn] using hturns) hresult
  | stalled before hbefore wait need stall =>
    exact .stalled (turn :: before) (by simpa [hturn] using hbefore) wait need stall

theorem map {β : Type} (f : α → β) (h : Faithful turns result) :
    Faithful turns (result.map f) := by
  cases h with
  | moved hturns hresult =>
    refine .moved hturns fun e he => hresult e ?_
    cases result <;> cases he
    rfl
  | stalled before hbefore wait need stall => exact .stalled before hbefore wait need stall

end Turn.Faithful

namespace Exchange

variable {ε α β : Type} [Controller.Fault ε]

/-- The exchange makes at most a number of transfers. No failed wait is an answer to it, and when it
fails by itself it does not claim that a wait did. -/
inductive Within : Nat → Exchange ε α → Prop
  | done {n} (a : α) : Within n (.done a)
  | fail {n e} (h : Own e) : Within n (.fail e)
  | note {n next} (notice : Notice) (h : Within n next) : Within n (.note notice next)
  | send {n next} (port : Port) (byte : UInt8) (h : Within n next) :
      Within (n + 1) (.send port byte next)
  | receive {n next} (h : ∀ byte, Within n (next byte)) : Within (n + 1) (.receive next)

namespace Within

variable {m n : Nat} {x : Exchange ε α}

theorem mono (h : x.Within m) (hle : m ≤ n) : x.Within n := by
  induction h generalizing n with
  | done a => exact .done a
  | fail he => exact .fail he
  | note notice _ ih => exact .note notice (ih hle)
  | send port byte _ ih =>
    cases n with
    | zero => exact absurd hle (Nat.not_succ_le_zero _)
    | succ n => exact .send port byte (ih (Nat.le_of_succ_le_succ hle))
  | receive _ ih =>
    cases n with
    | zero => exact absurd hle (Nat.not_succ_le_zero _)
    | succ n => exact .receive fun byte => ih byte (Nat.le_of_succ_le_succ hle)

theorem bind {f : α → Exchange ε β} (hx : x.Within m) (hf : ∀ a, (f a).Within n) :
    (x >>= f).Within (m + n) := by
  induction hx with
  | @done m a => exact (hf a).mono (Nat.le_add_left n m)
  | fail he => exact .fail he
  | note notice _ ih => exact .note notice ih
  | send port byte _ ih => rw [Nat.add_right_comm]; exact .send port byte ih
  | receive _ ih => rw [Nat.add_right_comm]; exact .receive ih

theorem map (f : α → β) (hx : x.Within n) : (f <$> x).Within n := by
  rw [map_eq_pure_bind]
  exact hx.bind (n := 0) fun a => .done (f a)

theorem seqRight_pure (b : β) (hx : x.Within n) : (x *> pure b).Within n := by
  rw [seqRight_eq_bind]
  exact hx.bind (n := 0) fun _ => .done b

/-- Every course of a bounded exchange is bounded, and faithful to its waits. -/
theorem of_course (hx : x.Within n) {turns : List Turn} {result : Except ε α}
    (hcourse : Course x turns result) :
    turns.countP Turn.isTransfer ≤ n ∧ Turn.Faithful turns result := by
  induction hx generalizing turns with
  | done a => cases hcourse with | done => exact ⟨Nat.zero_le _, .moved (by simp) (by simp)⟩
  | fail he =>
    cases hcourse with
    | fail => exact ⟨Nat.zero_le _, .moved (by simp) fun e h => by cases h; exact he⟩
  | note notice _ ih => cases hcourse with | note rest => exact ih rest
  | send port byte _ ih =>
    cases hcourse with
    | sent wait rest =>
      obtain ⟨hcount, hfaithful⟩ := ih rest
      refine ⟨?_, hfaithful.cons rfl⟩
      rw [List.countP_cons_of_pos (Turn.isTransfer_sent ..)]
      omega
    | noRoom wait stall =>
      exact ⟨by simp, .stalled [] nofun wait .room stall⟩
  | receive _ ih =>
    cases hcourse with
    | received wait byte rest =>
      obtain ⟨hcount, hfaithful⟩ := ih byte rest
      refine ⟨?_, hfaithful.cons rfl⟩
      rw [List.countP_cons_of_pos (Turn.isTransfer_received ..)]
      omega
    | noByte wait stall =>
      exact ⟨by simp, .stalled [] nofun wait .byte stall⟩

end Within

/-! ## The exchanges of one step -/

theorem within_sendData (byte : UInt8) : (sendData byte : Exchange ε Unit).Within 1 :=
  .send .data byte (.done (n := 0) ())

theorem within_sendCommand (byte : UInt8) : (sendCommand byte : Exchange ε Unit).Within 1 :=
  .send .command byte (.done (n := 0) ())

theorem within_receiveByte : (receiveByte : Exchange ε UInt8).Within 1 :=
  .receive fun byte => .done (n := 0) byte

theorem within_receiveBytes (n : Nat) : (receiveBytes n : Exchange ε (List UInt8)).Within n := by
  induction n with
  | zero => exact .done []
  | succ n ih => exact .receive fun byte => ih.bind (n := 0) fun bytes => .done (byte :: bytes)

end Exchange

end Ps2Host
