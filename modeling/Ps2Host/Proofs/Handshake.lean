import Ps2Host.Proofs.Acknowledgement

/-!
# Commands and what follows them

A command for a device is sent and answered with one reply. If that is an acknowledgement, the
device may have more to say, in a number of bytes that is known beforehand; what the operation comes
to is then decided by these. A wait that fails cuts all of this off.

## Main definitions

* `Turn.replies` — the bytes received in turns.
* `Turn.Moved`, `Turn.Cut` — all turns moved a byte, or all but the last, a wait that fails.
* `Exchange.Asks` — the exchange sends something and receives one reply.
* `Exchange.Collects` — the exchange receives a number of bytes, which decide what it comes to.
* `Turn.Concluded` — how one exchange of the first kind and one of the second go together.
* `Trace.Paced`, `Exchange.Paced` — frames are sent one by one, each once the last is acknowledged.

## Main results

* `Exchange.concluded_of_course` — a command, and what follows it, is concluded.
* `Turn.Concluded.of_replies` — the bytes received say how far it went and what it came to.
* `Controller.paced_carryOut` — what is written when it is carried out under a lease, and when.
* `Controller.concluded_carryOut` — it is concluded then, and the command is all that is written.
-/
namespace Ps2Host

namespace Turn

def reply? : Turn → Option UInt8
  | received _ byte => some byte
  | sent _ _ _ | stalled _ _ _ => none

def replies (turns : List Turn) : List UInt8 := turns.filterMap reply?

/-- Every turn moved a byte: no wait failed. -/
def Moved (turns : List Turn) : Prop := ∀ turn ∈ turns, turn.isTransfer = true

/-- The last turn is a wait that failed, and all before it moved a byte. -/
def Cut (turns : List Turn) (need : Need) (stall : Stall) : Prop :=
  ∃ before wait, turns = before ++ [.stalled wait need stall] ∧ Moved before

@[simp] theorem replies_nil : replies [] = [] := rfl

@[simp] theorem replies_cons_sent (wait : Trace) (port : Port) (byte : UInt8) (turns : List Turn) :
    replies (sent wait port byte :: turns) = replies turns := rfl

@[simp] theorem replies_cons_received (wait : Trace) (byte : UInt8) (turns : List Turn) :
    replies (received wait byte :: turns) = byte :: replies turns := rfl

@[simp] theorem replies_stalled (wait : Trace) (need : Need) (stall : Stall) :
    replies [stalled wait need stall] = [] := rfl

@[simp] theorem replies_append (first second : List Turn) :
    replies (first ++ second) = replies first ++ replies second :=
  List.filterMap_append

theorem replies_moves (turns : List Turn) :
    Trace.replies (turns.flatMap moves) = replies turns := by
  induction turns with
  | nil => rfl
  | cons turn rest ih =>
    rw [List.flatMap_cons, Trace.replies_append, ih]
    cases turn <;> rfl

theorem moved_nil : Moved [] := nofun

theorem Moved.cons {turn : Turn} {turns : List Turn} (hturn : turn.isTransfer = true)
    (h : Moved turns) : Moved (turn :: turns) :=
  List.forall_mem_cons.2 ⟨hturn, h⟩

theorem Moved.append {first second : List Turn} (hfirst : Moved first) (hsecond : Moved second) :
    Moved (first ++ second) :=
  List.forall_mem_append.2 ⟨hfirst, hsecond⟩

theorem cut_stalled (wait : Trace) (need : Need) (stall : Stall) :
    Cut [.stalled wait need stall] need stall :=
  ⟨[], wait, rfl, moved_nil⟩

variable {need : Need} {stall : Stall}

theorem Cut.append {first second : List Turn} (hfirst : Moved first) (h : Cut second need stall) :
    Cut (first ++ second) need stall := by
  obtain ⟨before, wait, rfl, hbefore⟩ := h
  exact ⟨first ++ before, wait, (List.append_assoc ..).symm, hfirst.append hbefore⟩

theorem Cut.cons {turn : Turn} {turns : List Turn} (hturn : turn.isTransfer = true)
    (h : Cut turns need stall) : Cut (turn :: turns) need stall :=
  h.append (moved_nil.cons hturn)

theorem Cut.not_moved {turns : List Turn} (h : Cut turns need stall) : ¬ Moved turns := by
  obtain ⟨before, wait, rfl, -⟩ := h
  intro hmoved
  have hlast := hmoved (.stalled wait need stall) (by simp)
  cases hlast

end Turn

open Turn (Moved Cut replies)

variable {ε α β : Type} [Controller.Fault ε]

/-! ## One reply -/

/-- The turns of something sent that is answered with one reply, and its result. -/
inductive Turn.Answered (refuse : UInt8 → ε) (turns : List Turn) : Except ε Unit → Prop
  | accepted (hmoved : Moved turns) (hreplies : replies turns = [Reply.acknowledge]) :
      Answered refuse turns (.ok ())
  | refused {reply} (hreply : reply ≠ Reply.acknowledge) (hmoved : Moved turns)
      (hreplies : replies turns = [reply]) : Answered refuse turns (.error (refuse reply))
  | cut {need stall} (hcut : Cut turns need stall) (hreplies : replies turns = []) :
      Answered refuse turns (.error stall.fault)

namespace Exchange

/-- The exchange sends something and receives one reply. -/
def Asks (refuse : UInt8 → ε) (x : Exchange ε Unit) : Prop :=
  ∀ turns result, Course x turns result → Turn.Answered refuse turns result

theorem Asks.send {refuse : UInt8 → ε} {next : Exchange ε Unit} (hnext : next.Asks refuse)
    (port : Port) (byte : UInt8) : (send port byte next).Asks refuse := by
  intro turns result h
  cases h with
  | noRoom wait stall => exact .cut (Turn.cut_stalled wait .room stall) rfl
  | sent wait rest =>
    cases hnext _ _ rest with
    | accepted hmoved hreplies => exact .accepted (hmoved.cons rfl) hreplies
    | refused hreply hmoved hreplies => exact .refused hreply (hmoved.cons rfl) hreplies
    | cut hcut hreplies => exact .cut (hcut.cons rfl) hreplies

theorem Checks.asks {x : Exchange ε Unit} {refuse : UInt8 → ε} (hx : x.Checks refuse) :
    x.Asks refuse := by
  obtain ⟨next, rfl, hacknowledged, hrefused⟩ := hx
  intro turns result h
  cases h with
  | noByte wait stall => exact .cut (Turn.cut_stalled wait .byte stall) rfl
  | received wait reply rest =>
    by_cases hreply : reply = Reply.acknowledge
    · subst hreply
      rw [hacknowledged] at rest
      cases rest with | done => exact .accepted (Turn.moved_nil.cons rfl) rfl
    · obtain hnext | ⟨message, hnext⟩ := hrefused reply hreply <;> rw [hnext] at rest
      · cases rest with | fail => exact .refused hreply (Turn.moved_nil.cons rfl) rfl
      · cases rest with
        | note rest =>
          cases rest with | fail => exact .refused hreply (Turn.moved_nil.cons rfl) rfl

end Exchange

theorem Keyboard.asks_command (c : Command) : (command c).Asks refusal :=
  checks_acknowledged.asks.send .data c.code

theorem Mouse.asks_command (c : Command) : (command c).Asks refusal :=
  (checks_acknowledged.asks.send .data c.code).send .command 0xD4

/-! ## A number of bytes -/

namespace Exchange

/-- The exchange receives a number of bytes and nothing else, and what it comes to is decided by
these. -/
inductive Collects : Nat → (List UInt8 → Except ε α → Prop) → Exchange ε α → Prop
  | done {decides} {a : α} (h : decides [] (.ok a)) : Collects 0 decides (.done a)
  | fail {decides} {e : ε} (h : decides [] (.error e)) : Collects 0 decides (.fail e)
  | note {n decides notice next} (h : Collects n decides next) :
      Collects n decides (.note notice next)
  | receive {n decides next}
      (h : ∀ byte, Collects n (fun rest => decides (byte :: rest)) (next byte)) :
      Collects (n + 1) decides (.receive next)

/-- Either all the bytes are received, and decide, or a wait for one of them fails. -/
theorem Collects.of_course {n : Nat} {decides : List UInt8 → Except ε α → Prop} {x : Exchange ε α}
    (hx : x.Collects n decides) {turns : List Turn} {result : Except ε α}
    (h : Course x turns result) :
    (Moved turns ∧ (replies turns).length = n ∧ decides (replies turns) result) ∨
      ∃ stall, Cut turns .byte stall ∧ (replies turns).length < n ∧
        result = .error stall.fault := by
  induction hx generalizing turns with
  | done hdecides => cases h with | done => exact .inl ⟨Turn.moved_nil, rfl, hdecides⟩
  | fail hdecides => cases h with | fail => exact .inl ⟨Turn.moved_nil, rfl, hdecides⟩
  | note _ ih => cases h with | note rest => exact ih rest
  | receive _ ih =>
    cases h with
    | noByte wait stall =>
      exact .inr ⟨stall, Turn.cut_stalled wait .byte stall, Nat.succ_pos _, rfl⟩
    | received wait byte rest =>
      obtain ⟨hmoved, hlength, hdecides⟩ | ⟨stall, hcut, hlength, hresult⟩ := ih byte rest
      · exact .inl ⟨hmoved.cons rfl, congrArg Nat.succ hlength, hdecides⟩
      · exact .inr ⟨stall, hcut.cons rfl, Nat.succ_lt_succ hlength, hresult⟩

end Exchange

/-! ## What is written -/

/-- The reads and writes when frames are sent one after the other and a byte is received after each:
an acknowledgement, if the next frame is begun. After the last frame bytes are only received. -/
inductive Trace.Paced : List Trace → Trace → Prop
  | rest (bytes : List UInt8) : Paced [] (bytes.map .read)
  /-- No byte was received after this frame, which may not even be complete. -/
  | cut {frame frames moves} (h : moves <+: frame) : Paced (frame :: frames) moves
  | accepted {frame frames moves} (h : Paced frames moves) :
      Paced (frame :: frames) (frame ++ .read Reply.acknowledge :: moves)
  | refused {frame frames reply} (h : reply ≠ Reply.acknowledge) (bytes : List UInt8) :
      Paced (frame :: frames) (frame ++ .read reply :: bytes.map .read)

namespace Trace

theorem replies_map_read (bytes : List UInt8) : replies (bytes.map .read) = bytes := by
  induction bytes with
  | nil => rfl
  | cons byte rest ih => exact congrArg (List.cons byte) ih

theorem writes_map_read (bytes : List UInt8) : writes (bytes.map .read) = [] := by
  induction bytes with
  | nil => rfl
  | cons byte rest ih => exact ih

namespace Paced

theorem nil (frames : List Trace) : Paced frames [] := by
  cases frames with
  | nil => exact .rest []
  | cons => exact .cut List.nil_prefix

theorem write {frame : Trace} {frames : List Trace} {moves : Trace}
    (h : Paced (frame :: frames) moves) (port : Port) (byte : UInt8) :
    Paced ((.write port byte :: frame) :: frames) (.write port byte :: moves) := by
  cases h with
  | cut h => exact .cut ((List.prefix_cons_inj _).2 h)
  | accepted h => exact .accepted h
  | refused h bytes => exact .refused h bytes

/-- With one frame, either it is all there is and perhaps cut off, or bytes follow it. -/
theorem singleton_cases {frame moves : Trace} (h : Paced [frame] moves) :
    moves <+: frame ∨ ∃ bytes : List UInt8, moves = frame ++ bytes.map .read := by
  cases h with
  | cut h => exact .inl h
  | refused h bytes => exact .inr ⟨_ :: bytes, rfl⟩
  | accepted h => cases h with | rest bytes => exact .inr ⟨_ :: bytes, rfl⟩

/-- One frame is all that is written, and it comes before everything that is received. -/
theorem of_singleton {frame trace : Trace} (h : Paced [frame] trace.moves)
    (hframe : ∀ access ∈ frame, access.isWrite = true) :
    trace.writes <+: frame ∧
      (trace.replies ≠ [] → trace.moves = frame ++ trace.replies.map .read) := by
  rw [← writes_moves, ← replies_moves]
  obtain hcut | ⟨bytes, hmoves⟩ := h.singleton_cases
  · have hwrite : ∀ access ∈ trace.moves, access.isWrite = true := fun access hmem =>
      hframe access (hcut.subset hmem)
    rw [writes_of_isWrite hwrite, replies_of_isWrite hwrite]
    exact ⟨hcut, fun h => absurd rfl h⟩
  · rw [hmoves, writes_append, writes_of_isWrite hframe, writes_map_read, List.append_nil,
      replies_append, replies_of_isWrite hframe, replies_map_read]
    exact ⟨List.prefix_refl _, fun _ => rfl⟩

end Paced

end Trace

namespace Exchange

/-- The exchange sends these frames and receives a byte after each: an acknowledgement if it goes on
to send the next. After the last it only receives. -/
inductive Paced : List Trace → Exchange ε α → Prop
  | done {frames} (a : α) : Paced frames (.done a)
  | fail {frames} (e : ε) : Paced frames (.fail e)
  | note {frames notice next} (h : Paced frames next) : Paced frames (.note notice next)
  | send {frame frames port byte next} (h : Paced (frame :: frames) next) :
      Paced ((.write port byte :: frame) :: frames) (.send port byte next)
  | reply {frames next} (haccepted : Paced frames (next Reply.acknowledge))
      (hrefused : ∀ reply, reply ≠ Reply.acknowledge → Paced [] (next reply)) :
      Paced ([] :: frames) (.receive next)
  | more {next} (h : ∀ byte, Paced [] (next byte)) : Paced [] (.receive next)

namespace Paced

omit [Controller.Fault ε] in
theorem map {frames : List Trace} {x : Exchange ε α} (hx : x.Paced frames) (f : α → β) :
    (f <$> x).Paced frames := by
  induction hx with
  | done a => exact .done (f a)
  | fail e => exact .fail e
  | note _ ih => exact ih.note
  | send _ ih => exact ih.send
  | reply _ _ ihaccepted ihrefused => exact .reply ihaccepted ihrefused
  | more _ ih => exact .more ih

omit [Controller.Fault ε] in
/-- Whatever answers the last frame, no other follows. -/
theorem answer {next : UInt8 → Exchange ε α} (h : ∀ byte, Paced [] (next byte)) :
    Paced [[]] (.receive next) :=
  .reply (h _) fun reply _ => h reply

theorem of_course {frames : List Trace} {x : Exchange ε α} (hx : x.Paced frames)
    {turns : List Turn} {result : Except ε α} (h : Course x turns result) :
    Trace.Paced frames (turns.flatMap Turn.moves) := by
  induction hx generalizing turns with
  | done => cases h with | done => exact .nil _
  | fail => cases h with | fail => exact .nil _
  | note _ ih => cases h with | note rest => exact ih rest
  | @send _ _ port byte _ _ ih =>
    cases h with
    | noRoom => exact .nil _
    | sent wait rest => exact (ih rest).write port byte
  | reply _ _ ihaccepted ihrefused =>
    cases h with
    | noByte => exact .nil _
    | received wait reply rest =>
      rw [List.flatMap_cons]
      by_cases hreply : reply = Reply.acknowledge
      · subst hreply
        exact .accepted (ihaccepted rest)
      · have hrest := ihrefused reply hreply rest
        generalize List.flatMap Turn.moves _ = moves at hrest ⊢
        cases hrest with | rest bytes => exact .refused hreply bytes
  | more _ ih =>
    cases h with
    | noByte => exact .nil _
    | received wait byte rest =>
      have hrest := ih byte rest
      rw [List.flatMap_cons]
      generalize List.flatMap Turn.moves _ = moves at hrest ⊢
      cases hrest with | rest bytes => exact .rest (byte :: bytes)

omit [Controller.Fault ε] in
theorem of_collects {n : Nat} {decides : List UInt8 → Except ε α → Prop} {x : Exchange ε α}
    (hx : x.Collects n decides) : x.Paced [] := by
  induction hx with
  | done => exact .done _
  | fail => exact .fail _
  | note _ ih => exact ih.note
  | receive _ ih => exact .more ih

end Paced

omit [Controller.Fault ε] in
/-- The frames that follow are sent once an acknowledgement came. -/
theorem Checks.paced {x : Exchange ε Unit} {refuse : UInt8 → ε} (hx : x.Checks refuse)
    {y : Exchange ε α} {frames : List Trace} (hy : y.Paced frames) :
    (x >>= fun _ => y).Paced ([] :: frames) := by
  obtain ⟨next, rfl, hacknowledged, hrefused⟩ := hx
  refine .reply ?_ fun reply hreply => ?_
  · show (next Reply.acknowledge >>= fun _ => y).Paced frames
    rw [hacknowledged]
    exact hy
  · show (next reply >>= fun _ => y).Paced []
    obtain hnext | ⟨message, hnext⟩ := hrefused reply hreply <;> rw [hnext]
    · exact .fail _
    · exact .note (.fail _)

end Exchange

theorem Keyboard.paced_command (c : Command) {y : Exchange Error α} {frames : List Trace}
    (hy : y.Paced frames) : (command c >>= fun _ => y).Paced ([.write .data c.code] :: frames) :=
  .send (checks_acknowledged.paced hy)

theorem Mouse.paced_command (c : Command) {y : Exchange Error α} {frames : List Trace}
    (hy : y.Paced frames) :
    (command c >>= fun _ => y).Paced ([.write .command 0xD4, .write .data c.code] :: frames) :=
  .send (.send (checks_acknowledged.paced hy))

/-! ## Both -/

/-- The turns of a command that is followed by a number of bytes, and its result. -/
inductive Turn.Concluded (refuse : UInt8 → ε) (n : Nat) (decides : List UInt8 → Except ε α → Prop)
    (turns : List Turn) : Except ε α → Prop
  | unanswered {need stall} (hcut : Cut turns need stall) (hreplies : replies turns = []) :
      Concluded refuse n decides turns (.error stall.fault)
  | refused {reply} (hreply : reply ≠ Reply.acknowledge) (hmoved : Moved turns)
      (hreplies : replies turns = [reply]) :
      Concluded refuse n decides turns (.error (refuse reply))
  | short {bytes stall} (hcut : Cut turns .byte stall)
      (hreplies : replies turns = Reply.acknowledge :: bytes) (hlength : bytes.length < n) :
      Concluded refuse n decides turns (.error stall.fault)
  | full {bytes result} (hmoved : Moved turns)
      (hreplies : replies turns = Reply.acknowledge :: bytes) (hlength : bytes.length = n)
      (hdecides : decides bytes result) : Concluded refuse n decides turns result

/-- The bytes received say how far a command went, and what it came to unless a wait failed. -/
theorem Turn.Concluded.of_replies {refuse : UInt8 → ε} {n : Nat}
    {decides : List UInt8 → Except ε α → Prop} {turns : List Turn} {result : Except ε α}
    (h : Concluded refuse n decides turns result) :
    (replies turns = [] → ∃ need stall, Cut turns need stall ∧ result = .error stall.fault) ∧
    (∀ reply rest, replies turns = reply :: rest → reply ≠ Reply.acknowledge →
      rest = [] ∧ Moved turns ∧ result = .error (refuse reply)) ∧
    ∀ rest, replies turns = Reply.acknowledge :: rest → rest.length ≤ n ∧
      (rest.length = n ↔ Moved turns) ∧
      (rest.length < n → ∃ stall, Cut turns .byte stall ∧ result = .error stall.fault) ∧
      (rest.length = n → decides rest result) := by
  cases h with
  | @unanswered need stall hcut hreplies =>
    rw [hreplies]
    exact ⟨fun _ => ⟨need, stall, hcut, rfl⟩, nofun, nofun⟩
  | @refused reply hreply hmoved hreplies =>
    rw [hreplies]
    refine ⟨nofun, ?_, ?_⟩
    · rintro _ _ ⟨⟩ -
      exact ⟨rfl, hmoved, rfl⟩
    · rintro _ ⟨⟩
      exact absurd rfl hreply
  | @short bytes stall hcut hreplies hlength =>
    rw [hreplies]
    refine ⟨nofun, ?_, ?_⟩
    · rintro _ _ ⟨⟩ hreply
      exact absurd rfl hreply
    · rintro _ ⟨⟩
      have hnot : bytes.length ≠ n := Nat.ne_of_lt hlength
      exact ⟨Nat.le_of_lt hlength, iff_of_false hnot hcut.not_moved, fun _ => ⟨stall, hcut, rfl⟩,
        fun hfull => absurd hfull hnot⟩
  | @full bytes result hmoved hreplies hlength hdecides =>
    rw [hreplies]
    refine ⟨nofun, ?_, ?_⟩
    · rintro _ _ ⟨⟩ hreply
      exact absurd rfl hreply
    · rintro _ ⟨⟩
      exact ⟨Nat.le_of_eq hlength, iff_of_true hlength hmoved,
        fun hshort => absurd hlength (Nat.ne_of_lt hshort), fun _ => hdecides⟩

theorem Exchange.concluded_of_course {refuse : UInt8 → ε} {n : Nat}
    {decides : List UInt8 → Except ε α → Prop} {x : Exchange ε Unit} {y : Exchange ε α}
    (hx : x.Asks refuse) (hy : y.Collects n decides) {turns : List Turn} {result : Except ε α}
    (h : Course (x >>= fun _ => y) turns result) :
    Turn.Concluded refuse n decides turns result := by
  obtain ⟨e, hasked, rfl⟩ | ⟨_, asked, after, rfl, hasked, hafter⟩ := h.of_bind
  · cases hx _ _ hasked with
    | refused hreply hmoved hreplies => exact .refused hreply hmoved hreplies
    | cut hcut hreplies => exact .unanswered hcut hreplies
  · cases hx _ _ hasked with
    | accepted hmoved hreplies =>
      have hall : replies (asked ++ after) = Reply.acknowledge :: replies after := by
        rw [Turn.replies_append, hreplies]
        rfl
      obtain ⟨hmoved', hlength, hdecides⟩ | ⟨stall, hcut, hlength, rfl⟩ := hy.of_course hafter
      · exact .full (hmoved.append hmoved') hall hlength hdecides
      · exact .short (hcut.append hmoved) hall hlength

namespace Controller

variable {σ : Type} [Chip σ] {c : Controller}

theorem moves_carryOut (c : Controller) (plan : Except ε (Exchange ε α)) (chip : σ) :
    (c.carryOut plan chip).1.trace.moves = (c.turns plan chip).flatMap Turn.moves := by
  rw [trace_carryOut, Turn.moves_flatMap_trace (c.regular_of_mem_turns plan chip)]

/-- The bytes received in the turns of what was planned are those read. -/
theorem replies_carryOut (c : Controller) (plan : Except ε (Exchange ε α)) (chip : σ) :
    (c.carryOut plan chip).1.trace.replies = replies (c.turns plan chip) := by
  rw [← Trace.replies_moves, moves_carryOut, Turn.replies_moves]

theorem course_carryOut (hfree : c.leased = false) (x : Exchange ε α) (chip : σ) :
    Exchange.Course x (c.turns (.ok x) chip) (c.carryOut (.ok x) chip).1.result := by
  rw [carryOut, hold_eq, turns, hfree]
  exact Exchange.course_turns c.patience x chip

/-- The frames of what was planned are sent when it is carried out, as far as it goes. -/
theorem paced_carryOut (hfree : c.leased = false) {frames : List Trace} {x : Exchange ε α}
    (hx : x.Paced frames) {f : α → β} (plan : Except ε (Exchange ε β))
    (hplan : plan = .ok (f <$> x)) (chip : σ) :
    Trace.Paced frames (c.carryOut plan chip).1.trace.moves := by
  subst hplan
  rw [moves_carryOut]
  exact (hx.map f).of_course (course_carryOut hfree (f <$> x) chip)

/-- A command, and what follows it, is concluded when it is carried out. The command is all that is
written, and that before anything is read. -/
theorem concluded_carryOut (hfree : c.leased = false) {refuse : UInt8 → ε} {n : Nat}
    {decides : List UInt8 → Except ε α → Prop} {x : Exchange ε Unit} {y : Exchange ε α}
    (hx : x.Asks refuse) (hy : y.Collects n decides) {frame : Trace}
    (hpaced : (x >>= fun _ => y).Paced [frame])
    (hframe : ∀ access ∈ frame, access.isWrite = true) {f : α → β}
    (plan : Except ε (Exchange ε β)) (hplan : plan = .ok (f <$> (x >>= fun _ => y))) (chip : σ) :
    let run := (c.carryOut plan chip).1
    (run.trace.writes <+: frame ∧
      (run.trace.replies ≠ [] → run.trace.moves = frame ++ run.trace.replies.map .read)) ∧
    ∃ result, Turn.Concluded refuse n decides (c.turns plan chip) result ∧
      run.result = result.map f := by
  intro run
  refine ⟨(paced_carryOut hfree hpaced plan hplan chip).of_singleton hframe, ?_⟩
  subst hplan
  obtain ⟨result, hcourse, hresult⟩ :=
    (course_carryOut hfree (f <$> (x >>= fun _ => y)) chip).of_map
  exact ⟨result, Exchange.concluded_of_course hx hy hcourse, hresult⟩

end Controller

end Ps2Host
