import Ps2Host.Proofs.Timing

/-!
# Dialogues

A device that is given bytes one at a time answers each with a byte, and gets the next only if the
answer is an acknowledgement. What comes of this on the bus is a dialogue: all of it follows from
the answers and from the wait that fails, if one does.

## Main definitions

* `Trace.writes`, `Trace.replies` — the writes of a trace, and the bytes that were read.
* `Dialogue` — the reads and writes of a dialogue, and `Ending`, how it ends.
* `Exchange.cycle` — the exchange that has each byte acknowledged.

## Main results

* `Dialogue.moves_eq` — a dialogue in terms of the replies in it.
* `Dialogue.acknowledged_iff`, `Dialogue.find?_replies` — the replies say how it ends.
* `Exchange.dialogue_of_course` — the courses of a cycle are dialogues.
-/
namespace Ps2Host

/-! ## Reads and writes -/

def Access.reply? : Access → Option UInt8
  | read byte => some byte
  | status _ | write _ _ => none

def Access.isWrite : Access → Bool
  | write _ _ => true
  | status _ | read _ => false

namespace Trace

def writes (trace : Trace) : Trace := trace.filter Access.isWrite

def replies (trace : Trace) : List UInt8 := trace.filterMap Access.reply?

@[simp] theorem writes_append (s t : Trace) : writes (s ++ t) = s.writes ++ t.writes :=
  List.filter_append ..

@[simp] theorem writes_cons_read (byte : UInt8) (rest : Trace) :
    writes (.read byte :: rest) = rest.writes := rfl

@[simp] theorem writes_nil : writes [] = [] := rfl

@[simp] theorem replies_append (s t : Trace) : replies (s ++ t) = s.replies ++ t.replies :=
  List.filterMap_append

@[simp] theorem replies_cons_read (byte : UInt8) (rest : Trace) :
    replies (.read byte :: rest) = byte :: rest.replies := rfl

@[simp] theorem replies_nil : replies [] = [] := rfl

theorem writes_moves (trace : Trace) : trace.moves.writes = trace.writes := by
  induction trace with
  | nil => rfl
  | cons access rest ih =>
    cases access with
    | status => exact ih
    | read byte => exact ih
    | write port byte => cases port <;> exact congrArg (List.cons _) ih

theorem replies_moves (trace : Trace) : trace.moves.replies = trace.replies := by
  induction trace with
  | nil => rfl
  | cons access rest ih =>
    cases access with
    | status => exact ih
    | read byte => exact congrArg (List.cons byte) ih
    | write port byte => cases port <;> exact ih

theorem writes_of_isWrite {trace : Trace} (h : ∀ access ∈ trace, access.isWrite = true) :
    trace.writes = trace :=
  List.filter_eq_self.2 h

theorem replies_of_isWrite {trace : Trace} (h : ∀ access ∈ trace, access.isWrite = true) :
    trace.replies = [] := by
  refine List.filterMap_eq_nil_iff.2 fun access hmem => ?_
  cases access with
  | status | write => rfl
  | read => cases h _ hmem

theorem moves_status (statuses : List UInt8) : moves (statuses.map .status) = [] := by
  induction statuses with
  | nil => rfl
  | cons status rest ih => exact ih

end Trace

section Waits

variable {patience : Patience} {need : Need} {wait : Trace}

theorem Patience.Met.moves (h : patience.Met need wait) : wait.moves = [] := by
  obtain ⟨missed, shown, rfl, -⟩ := h
  rw [Trace.moves_append, Trace.moves_status]
  rfl

theorem Patience.Missed.moves (h : patience.Missed need wait) : wait.moves = [] := by
  obtain ⟨missed, rfl, -⟩ := h
  exact Trace.moves_status missed

end Waits

namespace Turn

def moves : Turn → Trace
  | sent _ port byte => [.write port byte]
  | received _ byte => [.read byte]
  | stalled _ _ _ => []

variable {patience : Patience}

theorem Regular.moves_trace {turn : Turn} (h : turn.Regular patience) :
    turn.trace.moves = turn.moves := by
  cases turn with
  | sent wait port byte =>
    rw [trace, Trace.moves_append, Patience.Met.moves h]
    cases port <;> rfl
  | received wait byte =>
    rw [trace, Trace.moves_append, Patience.Met.moves h]
    rfl
  | stalled wait need stall => exact h.1.moves

theorem moves_flatMap_trace {turns : List Turn} (h : ∀ turn ∈ turns, turn.Regular patience) :
    Trace.moves (turns.flatMap trace) = turns.flatMap moves := by
  induction turns with
  | nil => rfl
  | cons turn rest ih =>
    obtain ⟨hturn, hrest⟩ := List.forall_mem_cons.1 h
    rw [List.flatMap_cons, List.flatMap_cons, Trace.moves_append, hturn.moves_trace, ih hrest]

end Turn

/-! ## Dialogues -/

inductive Ending
  /-- The last byte was acknowledged. -/
  | acknowledged
  | refused (reply : UInt8)
  | stalled (stall : Stall)

/-- The reads and writes of a dialogue. Each byte is sent in a frame, and the next only after an
acknowledgement. -/
inductive Dialogue (frame : UInt8 → Trace) : List UInt8 → Trace → Ending → Prop
  | finished : Dialogue frame [] [] .acknowledged
  | cut {byte bytes sent} (h : sent <+: frame byte) (stall : Stall) :
      Dialogue frame (byte :: bytes) sent (.stalled stall)
  | refused {byte bytes reply} (h : reply ≠ Reply.acknowledge) :
      Dialogue frame (byte :: bytes) (frame byte ++ [.read reply]) (.refused reply)
  | accepted {byte bytes moves ending} (h : Dialogue frame bytes moves ending) :
      Dialogue frame (byte :: bytes) (frame byte ++ .read Reply.acknowledge :: moves) ending

namespace Dialogue

variable {frame : UInt8 → Trace} {bytes : List UInt8} {moves : Trace} {ending : Ending}
  (hframe : ∀ byte, ∀ access ∈ frame byte, access.isWrite = true)

include hframe

theorem writes_answered (byte reply : UInt8) (rest : Trace) :
    Trace.writes (frame byte ++ .read reply :: rest) = frame byte ++ rest.writes := by
  rw [Trace.writes_append, Trace.writes_of_isWrite (hframe byte), Trace.writes_cons_read]

theorem replies_answered (byte reply : UInt8) (rest : Trace) :
    Trace.replies (frame byte ++ .read reply :: rest) = reply :: rest.replies := by
  rw [Trace.replies_append, Trace.replies_of_isWrite (hframe byte), Trace.replies_cons_read,
    List.nil_append]

theorem writes_prefix (h : Dialogue frame bytes moves ending) :
    moves.writes <+: bytes.flatMap frame := by
  induction h with
  | finished => exact List.prefix_refl _
  | @cut byte bytes sent hsent stall =>
    have hwrites : Trace.writes sent <+: (frame byte).writes := hsent.filter _
    rw [Trace.writes_of_isWrite (hframe byte)] at hwrites
    exact hwrites.trans (List.prefix_append _ _)
  | refused =>
    rw [writes_answered hframe, Trace.writes_nil, List.append_nil]
    exact List.prefix_append _ _
  | accepted _ ih =>
    rw [writes_answered hframe, List.flatMap_cons]
    exact (List.prefix_append_right_inj _).2 ih

theorem writes_of_acknowledged (h : Dialogue frame bytes moves .acknowledged) :
    moves.writes = bytes.flatMap frame := by
  generalize hending : Ending.acknowledged = ending at h
  induction h with
  | finished => rfl
  | cut | refused => cases hending
  | accepted _ ih => rw [writes_answered hframe, List.flatMap_cons, ih hending]

/-- Each byte is followed by its reply, and the last perhaps by a part of the next frame, which is
cut off by a wait that fails. -/
theorem moves_eq (h : Dialogue frame bytes moves ending) :
    ∃ cut, moves =
        (bytes.zip moves.replies).flatMap (fun sent => frame sent.1 ++ [.read sent.2]) ++ cut ∧
      cut <+: ((bytes.drop moves.replies.length).take 1).flatMap frame ∧
      ((∀ stall, ending ≠ .stalled stall) → cut = []) := by
  induction h with
  | finished => exact ⟨[], rfl, List.prefix_refl _, fun _ => rfl⟩
  | @cut byte bytes sent hsent stall =>
    have hreplies : Trace.replies sent = [] :=
      Trace.replies_of_isWrite fun access hmem => hframe byte access (hsent.subset hmem)
    refine ⟨sent, by simp [hreplies], by simpa [hreplies] using hsent, fun h => ?_⟩
    exact absurd rfl (h stall)
  | refused =>
    rw [replies_answered hframe]
    exact ⟨[], by simp, List.nil_prefix, fun _ => rfl⟩
  | accepted _ ih =>
    obtain ⟨cut, hmoves, hcut, hnil⟩ := ih
    rw [replies_answered hframe]
    refine ⟨cut, ?_, hcut, hnil⟩
    rw [List.zip_cons_cons, List.flatMap_cons, List.append_assoc, ← hmoves]
    simp

/-- Nothing follows a reply that is no acknowledgement. -/
theorem acknowledge_of_more (h : Dialogue frame bytes moves ending) {before : Trace} {reply : UInt8}
    {after : Trace} (hsplit : moves = before ++ .read reply :: after) (hmore : after ≠ []) :
    reply = Reply.acknowledge := by
  induction h generalizing before with
  | finished => cases before <;> cases hsplit
  | @cut byte bytes sent hsent stall =>
    have hwrite := hframe byte (.read reply) (hsent.subset (by simp [hsplit]))
    cases hwrite
  | @refused byte bytes last =>
    obtain ⟨-, -, rfl⟩ | hmem := eq_or_mem_of_append_singleton_eq hsplit
    · exact absurd rfl hmore
    · cases hframe byte _ hmem
  | @accepted byte bytes moves ending _ ih =>
    obtain ⟨rest, -, hrest⟩ | ⟨rest, hbyte, hrest⟩ := List.append_eq_append_iff.1 hsplit
    · -- The reply is the acknowledgement of this byte or comes later.
      obtain ⟨-, heq⟩ | ⟨later, -, hlater⟩ := List.cons_eq_append_iff.1 hrest
      · cases heq
        rfl
      · exact ih hlater
    · -- The frame itself has no reply in it.
      obtain ⟨-, heq⟩ | ⟨later, hfirst, -⟩ := List.cons_eq_append_iff.1 hrest
      · cases heq
        rfl
      · cases hframe byte (.read reply) (by simp [hbyte, hfirst])

/-- A dialogue ends well if and only if no wait fails and each reply is an acknowledgement. -/
theorem acknowledged_iff (h : Dialogue frame bytes moves ending) : ending = .acknowledged ↔
      (∀ stall, ending ≠ .stalled stall) ∧ ∀ reply ∈ moves.replies, reply = Reply.acknowledge := by
  induction h with
  | finished => simp
  | cut hsent stall => simp
  | refused hreply => simp [hreply]
  | accepted _ ih => simp [ih, replies_answered hframe]

/-- The reply with which a dialogue ends is the first that is no acknowledgement. -/
theorem find?_replies {reply : UInt8} (h : Dialogue frame bytes moves (.refused reply)) :
    moves.replies.find? (· ≠ Reply.acknowledge) = some reply := by
  generalize hending : Ending.refused reply = ending at h
  induction h with
  | finished | cut => cases hending
  | refused hlast =>
    cases hending
    simp [replies_answered hframe, hlast]
  | accepted _ ih => simpa [replies_answered hframe] using ih hending

end Dialogue

/-! ## Exchanges that are dialogues -/

def Ending.result {ε : Type} [Controller.Fault ε] (refuse : UInt8 → ε) : Ending → Except ε Unit
  | acknowledged => .ok ()
  | refused reply => .error (refuse reply)
  | stalled stall => .error stall.fault

namespace Exchange

variable {ε : Type} [Controller.Fault ε]

/-- The exchange sends a frame, unless there is no room for some byte of it. -/
def Sends (x : Exchange ε Unit) (frame : Trace) : Prop :=
  ∀ turns result, Course x turns result →
    result = .ok () ∧ turns.flatMap Turn.moves = frame ∨
      ∃ stall : Stall, result = .error stall.fault ∧ turns.flatMap Turn.moves <+: frame

theorem sends_done : (done () : Exchange ε Unit).Sends [] := by
  intro turns result h
  cases h with
  | done => exact .inl ⟨rfl, rfl⟩

theorem Sends.send {next : Exchange ε Unit} {frame : Trace} (hnext : next.Sends frame) (port : Port)
    (byte : UInt8) : (send port byte next).Sends (.write port byte :: frame) := by
  intro turns result h
  cases h with
  | noRoom wait stall => exact .inr ⟨stall, rfl, List.nil_prefix⟩
  | sent wait rest =>
    obtain ⟨hresult, hmoves⟩ | ⟨stall, hresult, hmoves⟩ := hnext _ _ rest
    · exact .inl ⟨hresult, congrArg (List.cons _) hmoves⟩
    · exact .inr ⟨stall, hresult, (List.prefix_cons_inj _).2 hmoves⟩

/-- The exchange receives a byte, which has to be an acknowledgement. -/
def Acknowledges (x : Exchange ε Unit) (refuse : UInt8 → ε) : Prop :=
  ∀ turns result, Course x turns result →
    result = .ok () ∧ turns.flatMap Turn.moves = [.read Reply.acknowledge] ∨
    (∃ reply, reply ≠ Reply.acknowledge ∧ result = .error (refuse reply) ∧
      turns.flatMap Turn.moves = [.read reply]) ∨
    ∃ stall : Stall, result = .error stall.fault ∧ turns.flatMap Turn.moves = []

/-- The exchange receives a byte and refuses any but an acknowledgement, perhaps with a notice for
debugging. -/
def Checks (x : Exchange ε Unit) (refuse : UInt8 → ε) : Prop :=
  ∃ next, x = receive next ∧ next Reply.acknowledge = done () ∧
    ∀ reply, reply ≠ Reply.acknowledge → next reply = fail (refuse reply) ∨
      ∃ message, next reply = note (.debug message) (fail (refuse reply))

theorem Checks.acknowledges {x : Exchange ε Unit} {refuse : UInt8 → ε} (hx : x.Checks refuse) :
    x.Acknowledges refuse := by
  obtain ⟨next, rfl, hacknowledged, hrefused⟩ := hx
  intro turns result h
  cases h with
  | noByte wait stall => exact .inr (.inr ⟨stall, rfl, rfl⟩)
  | received wait reply rest =>
    by_cases hreply : reply = Reply.acknowledge
    · subst hreply
      rw [hacknowledged] at rest
      cases rest with
      | done => exact .inl ⟨rfl, rfl⟩
    · refine .inr (.inl ⟨reply, hreply, ?_⟩)
      obtain hnext | ⟨message, hnext⟩ := hrefused reply hreply <;> rw [hnext] at rest
      · cases rest with | fail => exact ⟨rfl, rfl⟩
      · cases rest with
        | note rest => cases rest with | fail => exact ⟨rfl, rfl⟩

/-- Sends bytes one after the other, and has each acknowledged. -/
def cycle (send : UInt8 → Exchange ε Unit) (acknowledged : Exchange ε Unit) :
    List UInt8 → Exchange ε Unit
  | [] => pure ()
  | byte :: bytes => do
    send byte
    acknowledged
    cycle send acknowledged bytes

/-- The courses of a cycle are dialogues. -/
theorem dialogue_of_course {send : UInt8 → Exchange ε Unit} {acknowledged : Exchange ε Unit}
    {frame : UInt8 → Trace} {refuse : UInt8 → ε} (hsend : ∀ byte, (send byte).Sends (frame byte))
    (hacknowledged : acknowledged.Acknowledges refuse) {bytes : List UInt8} {turns : List Turn}
    {result : Except ε Unit} (h : Course (cycle send acknowledged bytes) turns result) :
    ∃ ending, Dialogue frame bytes (turns.flatMap Turn.moves) ending ∧
      result = ending.result refuse := by
  induction bytes generalizing turns result with
  | nil =>
    cases h with
    | done => exact ⟨.acknowledged, .finished, rfl⟩
  | cons byte bytes ih =>
    obtain ⟨e, hsent, rfl⟩ | ⟨_, sent, later, rfl, hsent, hlater⟩ := h.of_bind
    · obtain ⟨hok, -⟩ | ⟨stall, hstall, hmoves⟩ := hsend byte _ _ hsent
      · cases hok
      · exact ⟨.stalled stall, .cut hmoves stall, hstall⟩
    obtain ⟨-, hframe⟩ | ⟨stall, hstall, -⟩ := hsend byte _ _ hsent
    case inr => cases hstall
    obtain ⟨e, hreply, rfl⟩ | ⟨_, answered, rest, rfl, hreply, hrest⟩ := hlater.of_bind
    · obtain ⟨hok, -⟩ | ⟨reply, hne, herror, hmoves⟩ | ⟨stall, hstall, hmoves⟩ :=
        hacknowledged _ _ hreply
      · cases hok
      · refine ⟨.refused reply, ?_, herror⟩
        rw [List.flatMap_append, hframe, hmoves]
        exact .refused hne
      · refine ⟨.stalled stall, ?_, hstall⟩
        rw [List.flatMap_append, hframe, hmoves, List.append_nil]
        exact .cut (List.prefix_refl _) stall
    · obtain ⟨ending, hdialogue, hresult⟩ := ih hrest
      obtain ⟨-, hmoves⟩ | ⟨reply, -, herror, -⟩ | ⟨stall, hstall, -⟩ := hacknowledged _ _ hreply
      · refine ⟨ending, ?_, hresult⟩
        rw [List.flatMap_append, List.flatMap_append, hframe, hmoves]
        exact .accepted hdialogue
      · cases herror
      · cases hstall

end Exchange

end Ps2Host
