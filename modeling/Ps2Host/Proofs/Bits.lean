import Ps2Host.Register

/-!
# Registers as sets of bits

A register is the set of those of its named bits that are set. What a mask does to it is decided bit
by bit: the last edit whose mask has a bit decides it, and a bit that no mask has stays as it was at
first. So edits with masks that have no bit in common can change places.

## Main definitions

* `Register.has` — a bit is set.
* `Register.Edit.touches`, `Register.Edit.on` — the bits that an edit is about, and what it makes of
  them.
* `Register.edits` — a register after edits, one after the other.

## Main results

* `Register.has_edit` — what becomes of a bit in one edit.
* `Register.has_edits_of_untouched`, `Register.has_edits_of_last` — what becomes of it in many.
* `Register.edit_comm` — edits that have no bit in common can change places.
* `Register.edits_as_set` — a register after any edits is a set of bits.
-/
namespace Ps2Host

/-! ## Bits of bytes -/

theorem eq_of_testBit {a b : UInt8} (h : ∀ bit, a.toNat.testBit bit = b.toNat.testBit bit) :
    a = b :=
  UInt8.toNat_inj.1 (Nat.eq_of_testBit_eq h)

theorem testBit_and_not (byte mask : UInt8) (bit : Nat) :
    (byte &&& ~~~mask).toNat.testBit bit =
      (byte.toNat.testBit bit && !mask.toNat.testBit bit) := by
  have hbyte := byte.toNat_lt
  have hmask := mask.toNat_lt
  have hnot : (~~~mask).toNat = 2 ^ 8 - (mask.toNat + 1) := by
    simp only [UInt8.toNat_not, UInt8.size]
    omega
  rw [UInt8.toNat_and, Nat.testBit_and, hnot, Nat.testBit_two_pow_sub_succ hmask]
  by_cases hbit : bit < 8
  · simp [hbit]
  · have hhigh : byte.toNat.testBit bit = false := by
      apply Nat.testBit_lt_two_pow
      calc byte.toNat < 2 ^ 8 := hbyte
        _ ≤ 2 ^ bit := Nat.pow_le_pow_right (by decide) (Nat.le_of_not_lt hbit)
    simp [hhigh]

def Layout.names (l : Layout) (bit : Nat) : Bool := l.defined.toNat.testBit bit

namespace Register

variable {l : Layout} {r : Register l} {bit : Nat}

def has (r : Register l) (bit : Nat) : Bool := r.bits.toNat.testBit bit

/-! ## The register as a set -/

theorem ext_has {s : Register l} (h : ∀ bit, r.has bit = s.has bit) : r = s :=
  ext (eq_of_testBit h)

theorem has_ofBits (raw : UInt8) (bit : Nat) :
    (ofBits raw : Register l).has bit = (raw.toNat.testBit bit && l.names bit) := by
  rw [has, bits_ofBits, UInt8.toNat_and, Nat.testBit_and, Layout.names]

theorem names_of_has (h : r.has bit = true) : l.names bit = true := by
  rw [← r.ofBits_bits, has_ofBits] at h
  exact (Bool.and_eq_true_iff.1 h).2

theorem contains_iff (r : Register l) (mask : UInt8) :
    r.contains mask = true ↔ ∀ bit, mask.toNat.testBit bit = true → r.has bit = true := by
  rw [contains, beq_iff_eq]
  constructor
  · intro h bit hbit
    rw [← h, UInt8.toNat_and, Nat.testBit_and] at hbit
    exact (Bool.and_eq_true_iff.1 hbit).1
  · intro h
    apply eq_of_testBit
    intro bit
    rw [UInt8.toNat_and, Nat.testBit_and]
    cases hbit : mask.toNat.testBit bit with
    | true => exact (Bool.and_true _).trans (h bit hbit)
    | false => exact Bool.and_false _

theorem isEmpty_iff (r : Register l) :
    r.isEmpty = true ↔ ∀ bit, l.names bit = true → r.has bit = false := by
  rw [isEmpty, beq_iff_eq]
  constructor
  · intro h bit _
    rw [has, h]
    exact Nat.zero_testBit bit
  · intro h
    apply eq_of_testBit
    intro bit
    cases hbit : r.has bit with
    | true => exact absurd (h bit (names_of_has hbit)) (by simp [hbit])
    | false => exact hbit.trans (Nat.zero_testBit bit).symm

/-! ## Edits -/

namespace Edit

def mask : Edit → UInt8
  | insert mask | remove mask | set mask _ => mask

def on : Edit → Bool
  | insert _ => true
  | remove _ => false
  | set _ on => on

def touches (e : Edit) (bit : Nat) : Bool := e.mask.toNat.testBit bit

theorem not_touches_of_disjoint {e f : Edit} (h : e.mask &&& f.mask = 0)
    (he : e.touches bit = true) : f.touches bit = false := by
  have hnone : (e.mask &&& f.mask).toNat.testBit bit = false := by
    rw [h]
    exact Nat.zero_testBit bit
  rw [UInt8.toNat_and, Nat.testBit_and] at hnone
  rw [touches] at he ⊢
  rwa [he, Bool.true_and] at hnone

end Edit

theorem has_insert (r : Register l) (mask : UInt8) (bit : Nat) :
    (r.insert mask).has bit = if mask.toNat.testBit bit then l.names bit else r.has bit := by
  have hnamed : r.has bit = true → l.names bit = true := names_of_has
  have hbits : (r.insert mask).has bit =
      ((r.has bit || mask.toNat.testBit bit) && l.names bit) := by
    rw [has, bits_insert, UInt8.toNat_and, UInt8.toNat_or, Nat.testBit_and, Nat.testBit_or]
    rfl
  grind

theorem has_remove (r : Register l) (mask : UInt8) (bit : Nat) :
    (r.remove mask).has bit = if mask.toNat.testBit bit then false else r.has bit := by
  have hbits : (r.remove mask).has bit = (r.has bit && !mask.toNat.testBit bit) :=
    testBit_and_not r.bits mask bit
  grind

/-- An edit decides the named bits that it is about, and leaves all others as they are. -/
theorem has_edit (r : Register l) (e : Edit) (bit : Nat) :
    (r.edit e).has bit = if e.touches bit then e.on && l.names bit else r.has bit := by
  cases e with
  | insert mask => exact r.has_insert mask bit
  | remove mask => exact r.has_remove mask bit
  | set mask on =>
    cases on with
    | true => exact r.has_insert mask bit
    | false => exact r.has_remove mask bit

/-- Edits that have no bit in common can change places. -/
theorem edit_comm (r : Register l) {e f : Edit} (h : e.mask &&& f.mask = 0) :
    (r.edit e).edit f = (r.edit f).edit e := by
  apply ext_has
  intro bit
  have hapart : e.touches bit = true → f.touches bit = false := Edit.not_touches_of_disjoint h
  simp only [has_edit]
  grind

def edits (r : Register l) (es : List Edit) : Register l := es.foldl edit r

theorem edits_append (r : Register l) (before after : List Edit) :
    r.edits (before ++ after) = (r.edits before).edits after :=
  List.foldl_append

theorem has_edits_of_untouched {es : List Edit} (h : ∀ e ∈ es, e.touches bit = false)
    (r : Register l) : (r.edits es).has bit = r.has bit := by
  induction es generalizing r with
  | nil => rfl
  | cons e rest ih =>
    obtain ⟨hfirst, hrest⟩ := List.forall_mem_cons.1 h
    calc (r.edits (e :: rest)).has bit = (r.edit e).has bit := ih hrest (r.edit e)
      _ = r.has bit := by rw [has_edit, hfirst, if_neg Bool.false_ne_true]

/-- The last edit that is about a named bit decides it. -/
theorem has_edits_of_last {before after : List Edit} {e : Edit} (htouches : e.touches bit = true)
    (hlast : ∀ later ∈ after, later.touches bit = false) (r : Register l) :
    (r.edits (before ++ e :: after)).has bit = (e.on && l.names bit) := by
  rw [edits_append]
  calc ((r.edits before).edits (e :: after)).has bit
      = ((r.edits before).edit e).has bit := has_edits_of_untouched hlast _
    _ = (e.on && l.names bit) := by rw [has_edit, htouches, if_pos rfl]

/-- Whatever a register is made from and whatever is done to it, it is a set of named bits. A bit is
in it if the last edit that is about this bit set it, or if none is about it and it was there at
first; so edits that have no bit in common can change places. What can be asked of a register is
asked of this set: whether it contains a mask, which it never does if a bit of the mask has no name;
whether it is empty; whether it is the set of the named bits of a byte. -/
theorem edits_as_set (l : Layout) :
    (∀ bit, (empty : Register l).has bit = false ∧ (all : Register l).has bit = l.names bit ∧
      ∀ raw, (ofBits raw : Register l).has bit = (raw.toNat.testBit bit && l.names bit)) ∧
    ∀ (r : Register l) (es : List Edit),
      let t := r.edits es
      (∀ bit, t.has bit = true → l.names bit = true) ∧
      (∀ bit, l.names bit = true →
        (∀ before e after, es = before ++ e :: after → e.touches bit = true →
          (∀ later ∈ after, later.touches bit = false) → t.has bit = e.on) ∧
        ((∀ e ∈ es, e.touches bit = false) → t.has bit = r.has bit)) ∧
      (∀ e f, e.mask &&& f.mask = 0 → (t.edit e).edit f = (t.edit f).edit e) ∧
      (∀ mask, (t.contains mask = true ↔
          ∀ bit, mask.toNat.testBit bit = true → t.has bit = true) ∧
        ∀ bit, mask.toNat.testBit bit = true → l.names bit = false → t.contains mask = false) ∧
      (t.isEmpty = true ↔ ∀ bit, l.names bit = true → t.has bit = false) ∧
      ∀ raw, t = ofBits raw ↔ t.bits = raw &&& l.defined := by
  refine ⟨fun bit => ⟨Nat.zero_testBit bit, rfl, fun raw => has_ofBits raw bit⟩, fun r es => ?_⟩
  intro t
  refine ⟨fun bit => names_of_has, fun bit hbit => ⟨?_, fun h => has_edits_of_untouched h r⟩,
    fun e f => t.edit_comm, fun mask => ⟨t.contains_iff mask, ?_⟩, t.isEmpty_iff,
    fun raw => Register.ext_iff⟩
  · intro before e after hsplit htouches hlast
    have hdecided : t.has bit = (e.on && l.names bit) := by
      rw [show t = r.edits (before ++ e :: after) from congrArg r.edits hsplit]
      exact has_edits_of_last htouches hlast r
    rwa [hbit, Bool.and_true] at hdecided
  · intro bit hmask hbit
    refine Bool.eq_false_iff.2 fun hcontains => ?_
    have hset : t.has bit = true := (t.contains_iff mask).1 hcontains bit hmask
    exact Bool.false_ne_true (hbit.symm.trans (names_of_has hset))

/-- A bit without a name is dropped where it is set, and the last edit of bit 5 decides it. -/
theorem edits_as_set_config :
    let edits : List Edit := [.insert 0x28, .remove 0x01, .set 0x20 false, .set 0x30 true]
    let t : Register .config := (all : Register .config).edits edits
    edits = [.insert 0x28, .remove 0x01, .set 0x20 false] ++ .set 0x30 true :: [] ∧
    Layout.config.names 5 = true ∧ Layout.config.names 3 = false ∧
    t.has 5 = true ∧ t.has 3 = false ∧ t.has 0 = false ∧ t.contains 0x28 = false ∧
    t = ofBits 0xFE := by
  intro edits t
  obtain ⟨-, hafter⟩ := edits_as_set .config
  obtain ⟨hnamed, hlast, -, hcontains, -, hequal⟩ := hafter all edits
  have hfive : t.has 5 = true := (hlast 5 rfl).1 [.insert 0x28, .remove 0x01, .set 0x20 false]
    (.set 0x30 true) [] rfl rfl (by simp)
  have hzero : t.has 0 = false := (hlast 0 rfl).1 [.insert 0x28] (.remove 0x01)
    [.set 0x20 false, .set 0x30 true] rfl rfl (by decide)
  have hthree : t.has 3 = false :=
    Bool.eq_false_iff.2 fun hset => absurd (hnamed 3 hset) (by decide)
  exact ⟨rfl, rfl, rfl, hfive, hthree, hzero, (hcontains 0x28).2 3 rfl rfl, (hequal 0xFE).2 rfl⟩

end Register

end Ps2Host
