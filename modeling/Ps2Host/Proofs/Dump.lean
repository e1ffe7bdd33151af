import Ps2Host.Proofs.Retry
import Ps2Host.Proofs.Supply

/-!
# What a dump delivers

A dump is one command and then as many bytes as the controller has memory, whoever queued them. On a
scripted chip that answers in time these are the bytes that waited before the command and then those
that its rule appends. The dump takes them from the head of the queue; if there are too few of them,
it takes what there is and then waits in vain.

## Main definitions

* `ScriptedChip.dumped` — what a chip has to give once it has the command for a dump.

## Main results

* `Exchange.collects_receiveBytes` — bytes are received in the order in which they come.
* `Exchange.Collects.queue_perform` — what an exchange that receives bytes leaves in the queue.
* `ScriptedChip.write_dump` — the command is written in time, and what the chip has to give waits.
* `Controller.perform_dump` — what a dump delivers, what it leaves and what it does to the chip.
-/
namespace Ps2Host

/-! ## A number of bytes -/

namespace Exchange

variable {ε α β : Type} {n : Nat}

theorem Collects.map {decides : List UInt8 → Except ε α → Prop} {x : Exchange ε α}
    (hx : x.Collects n decides) {f : α → β} {decides' : List UInt8 → Except ε β → Prop}
    (hf : ∀ bytes result, decides bytes result → decides' bytes (result.map f)) :
    (f <$> x).Collects n decides' := by
  induction hx generalizing decides' with
  | done hdecides => exact .done (hf [] _ hdecides)
  | fail hdecides => exact .fail (hf [] _ hdecides)
  | note _ ih => exact .note (ih hf)
  | receive _ ih =>
    exact .receive fun byte => ih byte fun rest result => hf (byte :: rest) result

/-- The bytes that are received are the result, in the order in which they come. -/
theorem collects_receiveBytes (n : Nat) : (receiveBytes n : Exchange ε (List UInt8)).Collects n
    fun bytes result => result = .ok bytes := by
  induction n with
  | zero => exact .done rfl
  | succ n ih =>
    refine .receive fun byte => ?_
    apply ih.map (f := List.cons byte)
    rintro bytes _ rfl
    rfl

end Exchange

/-! ## What waiting leaves of a chip -/

namespace ScriptedChip

/-- A status read brings no byte closer but the head of the queue. -/
theorem tail_ageQueue (queue : List Entry) : (ageQueue queue).tail = queue.tail := by
  cases queue <;> rfl

theorem tail_queue_await (patience : Patience) (need : Need) (chip : ScriptedChip) :
    (patience.await need chip).chip.queue.tail = chip.queue.tail := by
  obtain ⟨-, -, hchip⟩ := patience.await_poll need chip
  rw [hchip]
  apply poll_invariant (P := fun later : ScriptedChip => later.queue.tail = chip.queue.tail)
  · intro later hlater
    exact (tail_ageQueue later.queue).trans hlater
  · rfl

theorem queue_giveByte (chip : ScriptedChip) : chip.giveByte.2.queue = chip.queue.tail := by
  unfold giveByte
  split <;> simp [*]

end ScriptedChip

/-- What is received is gone from the head of the queue, and all else is as late as it was. -/
theorem Exchange.Collects.queue_perform {ε α : Type} [Controller.Fault ε] {patience : Patience}
    {n : Nat} {decides : List UInt8 → Except ε α → Prop} {x : Exchange ε α}
    (hx : x.Collects n decides) {chip : ScriptedChip} (h : chip.Serves patience) :
    (x.perform patience chip).chip.queue = chip.queue.drop n := by
  induction hx generalizing chip with
  | done | fail => rfl
  | note _ ih => exact ih h
  | @receive n decides next _ ih =>
    obtain ⟨hresult, hwaiting, hserves⟩ := h.awaitByte
    have htail : (patience.awaitByte chip).chip.queue.tail = chip.queue.tail :=
      ScriptedChip.tail_queue_await patience .byte chip
    cases hqueue : chip.queue with
    | nil =>
      have hnone : chip.waiting = [] := congrArg (List.map ScriptedChip.Entry.byte) hqueue
      rw [hnone, List.isEmpty_nil, if_pos rfl] at hresult
      have hleft : (patience.awaitByte chip).chip.queue = [] :=
        List.map_eq_nil_iff.1 (hwaiting.trans hnone)
      simpa [Exchange.perform, Run.andThen, hresult, Run.pure] using hleft
    | cons head rest =>
      have hsome : chip.waiting.isEmpty = false := by simp [ScriptedChip.waiting, hqueue]
      rw [hsome, if_neg Bool.false_ne_true] at hresult
      have hleft : (patience.awaitByte chip).chip.giveByte.2.queue = rest := by
        rw [ScriptedChip.queue_giveByte, htail, hqueue, List.tail_cons]
      simp only [Exchange.perform, Run.andThen, hresult, Run.read, Chip.read]
      rw [ih _ hserves.giveByte, hleft, List.drop_succ_cons]

/-! ## The dump -/

namespace ScriptedChip

variable {patience : Patience} {chip : ScriptedChip}

/-- What a chip has to give after the command for a dump: what waits, and what its rule appends. -/
def dumped (chip : ScriptedChip) : List Entry := chip.queue ++ chip.answer .controller 0xAC

/-- A chip that is busy for some time takes a byte in time, and then is as it was but for its
timing. -/
theorem awaitRoom_of_busy (hextra : chip.extra.toNat.testBit 1 = false) {polls : Nat}
    (hbusy : chip.busy = .polls polls) (hlt : polls < patience.limit.toNat)
    (hserves : chip.Serves patience) :
    let wait := patience.awaitRoom chip
    wait.result = .ok () ∧ wait.chip.Serves patience ∧ wait.chip.waiting = chip.waiting ∧
      wait.chip.queue.tail = chip.queue.tail ∧ wait.chip.rules = chip.rules := by
  intro wait
  have hready := poll_hasRoom hextra hbusy hlt
  have hok : (patience.await .room chip).result = .ok () := Patience.await_of_ok.1.2 hready
  obtain ⟨-, -, hchip⟩ := patience.await_poll .room chip
  obtain ⟨hwaiting, hlater⟩ := hserves.chip_poll hasRoom patience.limit.toNat
  have hsame : wait.chip.rules = chip.rules := by
    rw [show wait.chip = wait.trace.replay chip from patience.replays_await .room chip]
    exact (script_replay wait.trace chip).1
  refine ⟨hok, ?_, ?_, tail_queue_await patience .room chip, hsame⟩
  · rwa [show wait.chip = _ from hchip]
  · rwa [show wait.chip = _ from hchip]

/-- A wait changes nothing of what a chip has to give but how late the head of it is. -/
theorem dumped_congr {later : ScriptedChip} (hwaiting : later.waiting = chip.waiting)
    (htail : later.queue.tail = chip.queue.tail)
    (hanswer : later.answer .controller 0xAC = chip.answer .controller 0xAC) :
    later.dumped.map Entry.byte = chip.dumped.map Entry.byte ∧
      later.dumped.tail = chip.dumped.tail := by
  constructor
  · rw [dumped, dumped, List.map_append, List.map_append, hanswer]
    exact congrArg (· ++ _) hwaiting
  · unfold dumped
    cases hold : chip.queue <;> cases hnew : later.queue <;> simp_all [waiting]

/-- On a chip that answers in time the command for a dump is written, and then all that the chip has
to give waits. -/
theorem write_dump (hbyte : chip.extra.toNat.testBit 0 = false)
    (hroom : chip.extra.toNat.testBit 1 = false) {polls : Nat} (hbusy : chip.busy = .polls polls)
    (hlt : polls < patience.limit.toNat)
    (hdelays : ∀ entry ∈ chip.dumped, entry.delay < patience.tries .byte) :
    let wait := patience.awaitRoom chip
    let taken := wait.chip.write .command 0xAC
    wait.result = .ok () ∧ taken.waiting = chip.dumped.map Entry.byte ∧
      taken.queue.tail = chip.dumped.tail ∧ taken.Serves patience := by
  intro wait taken
  obtain ⟨hqueued, hanswered⟩ := List.forall_mem_append.1 hdelays
  obtain ⟨hok, hserves, hwaiting, htail, hrules⟩ :=
    awaitRoom_of_busy hroom hbusy hlt ⟨hqueued, hbyte⟩
  have hanswer : wait.chip.answer .controller 0xAC = chip.answer .controller 0xAC := by
    simp only [answer, hrules, wait]
  obtain ⟨hbytes, hrest⟩ := dumped_congr hwaiting htail hanswer
  have hqueue : taken.queue = wait.chip.dumped := wait.chip.queue_write .command 0xAC
  have hextra : taken.extra = wait.chip.extra :=
    (script_replay [.write .command 0xAC] wait.chip).2.1
  refine ⟨hok, ?_, ?_, ?_, ?_⟩
  · rw [waiting, hqueue, hbytes]
  · rw [hqueue, hrest]
  · rw [hqueue, dumped, hanswer]
    exact List.forall_mem_append.2 ⟨hserves.queue, hanswered⟩
  · rw [hextra]
    exact hserves.extra

end ScriptedChip

namespace Controller

theorem collects_dump :
    (Answer.bytes <$> Exchange.receiveBytes 32 : Exchange Error Answer).Collects 32
      fun bytes result => result = .ok (.bytes bytes) := by
  apply (Exchange.collects_receiveBytes 32).map
  rintro bytes _ rfl
  rfl

/-- A dump is a wait, its command, and then the bytes that are received. -/
theorem perform_dump_of_room {c : Controller} {chip : ScriptedChip}
    (hok : (c.patience.awaitRoom chip).result = .ok ()) :
    let wait := c.patience.awaitRoom chip
    let received := (Answer.bytes <$> Exchange.receiveBytes 32 : Exchange Error Answer).perform
      c.patience (wait.chip.write .command 0xAC)
    let performed := ((Operation.controller .dump).perform c chip).1
    performed.result = .controller received.result ∧ performed.chip = received.chip ∧
      performed.trace = wait.trace ++ .write .command 0xAC :: received.trace := by
  intro wait received performed
  have hplan : Request.dump.exchange =
      .send .command 0xAC (Answer.bytes <$> Exchange.receiveBytes 32) := rfl
  have hperformed : performed =
      (Request.dump.exchange.perform c.patience chip).map .controller := rfl
  rw [hperformed, hplan]
  simp only [Exchange.perform, Run.andThen, hok, Run.map]
  exact ⟨rfl, rfl, rfl⟩

/-- A dump on a chip that answers in time, with what the chip has to give once it has the command.
If there are at least as many bytes as the controller has memory, the first of these are the result
and the rest stays as it is; otherwise the result is a timeout and nothing stays. Whatever comes of
it, nothing but the command is written, nothing but these bytes is read, and the memory is as it
was. -/
theorem perform_dump {c : Controller} (chip : ScriptedChip)
    (hblocking : c.patience.blocking = true)
    (hbyte : chip.extra.toNat.testBit 0 = false) (hroom : chip.extra.toNat.testBit 1 = false)
    (hbusy : ∃ polls < c.patience.limit.toNat, chip.busy = .polls polls)
    (hdelays : ∀ entry ∈ chip.dumped, entry.delay < c.patience.limit.toNat) :
    let bytes := chip.dumped.map ScriptedChip.Entry.byte
    let performed := ((Operation.controller .dump).perform c chip).1
    (32 ≤ bytes.length →
      performed.result = .controller (.ok (.bytes (bytes.take 32))) ∧
      performed.chip.queue = chip.dumped.drop 32) ∧
    (bytes.length < 32 →
      performed.result = .controller (.error (.stalled .timeout)) ∧
      performed.chip.queue = []) ∧
    performed.trace.moves = .write .command 0xAC :: (bytes.take 32).map .read ∧
    performed.trace.replies.length = min 32 bytes.length ∧
    performed.chip.ram = chip.ram := by
  intro bytes performed
  have htries : c.patience.tries .byte = c.patience.limit.toNat := by
    simp [Patience.tries, hblocking]
  have hstall : c.patience.stall .byte = .timeout := by simp [Patience.stall, hblocking]
  rw [← htries] at hdelays
  obtain ⟨polls, hlt, hpolls⟩ := hbusy
  obtain ⟨hok, hgiven, htail, hserves⟩ := ScriptedChip.write_dump hbyte hroom hpolls hlt hdelays
  obtain ⟨hresult, hchip, htrace⟩ := perform_dump_of_room hok
  obtain ⟨hmoves, -, -, hfull, hshort⟩ := collects_dump.perform_of_serves hserves
  have hleft := collects_dump.queue_perform hserves
  rw [hgiven] at hmoves hfull hshort
  rw [hstall] at hshort
  have hqueue : performed.chip.queue = chip.dumped.drop 32 := by
    rw [show performed.chip = _ from hchip, hleft, ← List.drop_tail, htail, List.drop_tail]
  have hall : performed.trace.moves = .write .command 0xAC :: (bytes.take 32).map .read := by
    have hlooks : (c.patience.awaitRoom chip).trace.moves = [] := c.patience.moves_await .room chip
    rw [show performed.trace = _ from htrace, Trace.moves_append, hlooks, ← hmoves]
    rfl
  refine ⟨fun hlength => ⟨?_, hqueue⟩, fun hlength => ⟨?_, ?_⟩, hall, ?_, ?_⟩
  · exact hresult.trans (congrArg Operation.Outcome.controller (hfull hlength))
  · exact hresult.trans (congrArg Operation.Outcome.controller (hshort hlength))
  · have hfew : chip.dumped.length ≤ 32 := by simpa [bytes] using Nat.le_of_lt hlength
    rw [hqueue, List.drop_of_length_le hfew]
  · have hreplies : performed.trace.replies = bytes.take 32 := by
      rw [← Trace.replies_moves, hall]
      exact Trace.replies_map_read (bytes.take 32)
    rw [hreplies, List.length_take]
  · have hnone : ∀ byte, .write .data byte ∉ performed.trace := by
      intro byte hmem
      have hmove : .write .data byte ∈ performed.trace.moves := List.mem_filter.2 ⟨hmem, rfl⟩
      rw [hall] at hmove
      obtain hcommand | hread := List.mem_cons.1 hmove
      · cases hcommand
      · obtain ⟨_, -, hread⟩ := List.mem_map.1 hread
        cases hread
    rw [(Operation.controller .dump).replays_perform c chip]
    exact ScriptedChip.ram_replay (ScriptedChip.Pending.finds_of_not_write hnone _)

/-- A byte that was left over comes first, so the last of the memory stays behind. A dump that is
one byte short takes what there is and fails. -/
theorem perform_dump_leftover :
    let c : Controller := { patience := { limit := 3 } }
    let cells (n : Nat) : List ScriptedChip.Entry :=
      (List.range n).map fun cell => ⟨cell % 3, .ofNat cell⟩
    let chip (queue : List ScriptedChip.Entry) (n : Nat) : ScriptedChip :=
      { queue, busy := .polls 2, rules := [(⟨.controller, some 0xAC⟩, cells n)] }
    let full := chip [⟨2, 0xEE⟩] 32
    let short := chip [] 31
    let performed (chip : ScriptedChip) := ((Operation.controller .dump).perform c chip).1
    c.patience.blocking = true ∧
    full.extra.toNat.testBit 0 = false ∧ full.extra.toNat.testBit 1 = false ∧
    (∃ polls < c.patience.limit.toNat, full.busy = .polls polls) ∧
    (∀ entry ∈ full.dumped, entry.delay < c.patience.limit.toNat) ∧
    (∀ entry ∈ short.dumped, entry.delay < c.patience.limit.toNat) ∧
    (performed full).result =
      .controller (.ok (.bytes (0xEE :: (List.range 31).map UInt8.ofNat))) ∧
    (performed full).chip.queue = [⟨1, 31⟩] ∧
    (performed short).result = .controller (.error (.stalled .timeout)) ∧
    (performed short).chip.queue = [] := by
  intro c cells chip full short performed
  have hbusy : ∃ polls < c.patience.limit.toNat, full.busy = .polls polls := ⟨2, by decide, rfl⟩
  have hfull : ∀ entry ∈ full.dumped, entry.delay < c.patience.limit.toNat := by decide
  have hshort : ∀ entry ∈ short.dumped, entry.delay < c.patience.limit.toNat := by decide
  have hbyte : full.extra.toNat.testBit 0 = false := by decide
  have hroom : full.extra.toNat.testBit 1 = false := by decide
  obtain ⟨hlong, -⟩ := perform_dump (c := c) full rfl hbyte hroom hbusy hfull
  obtain ⟨-, hfew, -⟩ := perform_dump (c := c) short rfl hbyte hroom hbusy hshort
  obtain ⟨hresult, hqueue⟩ := hlong (by decide)
  obtain ⟨hfailed, hempty⟩ := hfew (by decide)
  exact ⟨rfl, hbyte, hroom, hbusy, hfull, hshort, hresult, hqueue, hfailed, hempty⟩

end Controller

end Ps2Host
