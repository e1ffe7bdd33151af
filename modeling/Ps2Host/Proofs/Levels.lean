import Ps2Host.Proofs.Parameters
import Ps2Host.Proofs.Rounding

/-!
# Rates and their levels

A rate goes to the level nearest to where it lies between the fastest rate and the slowest. On the
way there it is rounded four times, but rounding keeps the order of the rates and is off by little:
the ends of the range go to the first level and the last, so all others lie between these, and the
level is the nearest one but for what the roundings add to the error.

## Main definitions

* `Keyboard.Typematic.Packed` — what a byte says of a rate and a delay.

## Main results

* `Keyboard.Typematic.hasRate_iff` — the patterns of the rates that a keyboard has.
* `Keyboard.Typematic.level_anti`, `Keyboard.Typematic.abs_level_sub_le` — a faster rate has no
  higher level, and how far a level can be from its rate.
* `Keyboard.Typematic.encode_eq_ok_iff` — the byte of a rate and a delay is the one that says so.
* `Keyboard.Typematic.encode_quantises` — what is accepted, and what becomes of it.
-/
namespace Ps2Host.Keyboard.Typematic

open Binary32

variable {rate : Binary32} {delay : UInt16} {byte : UInt8} {value p q : Rat}

/-! ## The rates -/

theorem value?_slowest : (Binary32.mk 0x40000000).value? = some slowest := by decide +kernel

theorem value?_fastest : (Binary32.mk 0x41F00000).value? = some fastest := by decide +kernel

/-- The rates of the keyboard are the patterns between that of the slowest and that of the fastest:
what is negative, infinite or no number has none of these. -/
theorem hasRate_iff (rate : Binary32) :
    HasRate rate ↔ 0x40000000 ≤ rate.bits ∧ rate.bits ≤ 0x41F00000 := by
  constructor
  · rintro ⟨value, hvalue, hlow, hhigh⟩
    have hsign : rate.negative = false := by
      by_contra h
      have hnonpos := nonpos_of_negative hvalue (Bool.not_eq_false _ ▸ h)
      have hslowest : (0 : Rat) < slowest := by decide
      linarith
    exact ⟨(value?_le_iff value?_slowest hvalue rfl hsign).1 hlow,
      (value?_le_iff hvalue value?_fastest hsign rfl).1 hhigh⟩
  · rintro ⟨hlow, hhigh⟩
    have hfields : rate.negative = false ∧ rate.exponentField ≠ 0xFF := by
      have hbound : rate.bits.toNat ≤ 0x41F00000 := hhigh
      simp only [negative, exponentField, decide_eq_false_iff_not]
      omega
    obtain ⟨hsign, hfinite⟩ := hfields
    have hvalue : rate.value? = some ((rate.significand : Rat) * 2 ^ rate.exponent) :=
      (value?_eq_some_iff hsign).2 ⟨hfinite, rfl⟩
    exact ⟨_, hvalue, (value?_le_iff value?_slowest hvalue rfl hsign).2 hlow,
      (value?_le_iff hvalue value?_fastest hsign rfl).2 hhigh⟩

/-! ## The levels -/

/-- The distance between levels is rounded, so it is not twenty-eight thirty-firsts. -/
theorem step_eq : step = 7576807 / 2 ^ 23 := by decide +kernel

theorem step_pos : 0 < step := by
  rw [step_eq]
  norm_num

/-- A faster rate does not have a higher level: after the subtraction has turned the order around,
each operation keeps it. -/
theorem level_anti (h : p ≤ q) : level q ≤ level p := by
  have hbelow : nearest (fastest - q) ≤ nearest (fastest - p) := nearest_mono (by linarith)
  have hscaled : nearest (nearest (fastest - q) / step) ≤ nearest (nearest (fastest - p) / step) :=
    nearest_mono (div_le_div_of_nonneg_right hbelow step_pos.le)
  exact Int.floor_le_floor (nearest_mono (by linarith))

/-- The slowest rate has the last level and the fastest the first, so no level is lost in five
bits. -/
theorem level_bounds (hlow : slowest ≤ value) (hhigh : value ≤ fastest) :
    0 ≤ level value ∧ level value ≤ 31 := by
  have hslowest : level slowest = 31 := by decide +kernel
  have hfastest : level fastest = 0 := by decide +kernel
  exact ⟨hfastest ▸ level_anti hhigh, hslowest ▸ level_anti hlow⟩

/-- Up to 32 a rounding is off by at most one half of a step of `2 ^ (-19)`. -/
theorem nearest_bounds (hlow : -32 ≤ q) (hhigh : q ≤ 32) :
    q - 1 / 2 ^ 20 ≤ nearest q ∧ nearest q ≤ q + 1 / 2 ^ 20 := by
  have hq : |q| ≤ 2 ^ 24 * 2 ^ (-19 : Int) := (abs_le.2 ⟨hlow, hhigh⟩).trans (by norm_num)
  have herror := abs_le.1 (abs_nearest_sub_le_half (by norm_num) hq)
  norm_num at herror ⊢
  constructor <;> linarith

/-- The level is at most one half away from where the rate lies between the fastest and the slowest,
but for what the roundings add to it: one when the distance between levels is found, and then one
for each operation. -/
theorem abs_level_sub_le (hlow : slowest ≤ value) (hhigh : value ≤ fastest) :
    |level value - (30 - value) * (31 / 28)| ≤ 1 / 2 + 1 / 10000 := by
  have hlow : 2 ≤ value := hlow
  have hhigh : value ≤ 30 := hhigh
  have hlevel : level value =
      (nearest (nearest (nearest (30 - value) / (7576807 / 2 ^ 23)) + 1 / 2)).floor := by
    rw [level, step_eq]
    rfl
  -- Each rounded number stays below 32, and is then any number so near to what was rounded.
  obtain ⟨hsubLow, hsubHigh⟩ := nearest_bounds (q := 30 - value) (by linarith) (by linarith)
  generalize nearest (30 - value) = below at hlevel hsubLow hsubHigh
  obtain ⟨hdivLow, hdivHigh⟩ :=
    nearest_bounds (q := below / (7576807 / 2 ^ 23)) (by linarith) (by linarith)
  generalize nearest (below / (7576807 / 2 ^ 23)) = scaled at hlevel hdivLow hdivHigh
  obtain ⟨haddLow, haddHigh⟩ := nearest_bounds (q := scaled + 1 / 2) (by linarith) (by linarith)
  generalize nearest (scaled + 1 / 2) = raised at hlevel haddLow haddHigh
  have hfloorLow : (level value : Rat) ≤ raised := hlevel ▸ Int.floor_le raised
  have hfloorHigh : raised < level value + 1 := hlevel ▸ Int.lt_floor_add_one raised
  rw [abs_le]
  constructor <;> linarith

/-! ## The byte -/

theorem toNat_and_mask (byte : UInt8) : (byte &&& 0x1F).toNat = byte.toNat % 32 := by
  rw [UInt8.toNat_and]
  exact Nat.and_two_pow_sub_one_eq_mod byte.toNat 5

theorem toNat_shiftRight_five (byte : UInt8) : (byte >>> 5).toNat = byte.toNat / 32 := by
  rw [UInt8.toNat_shiftRight, Nat.shiftRight_eq_div_pow]
  rfl

/-- The five bits of an accepted rate are its level: the mask cuts nothing off. -/
theorem toNat_rateBits (hlow : slowest ≤ value) (hhigh : value ≤ fastest) :
    ((rateBits value).toNat : Int) = level value := by
  have hlevel := level_bounds hlow hhigh
  rw [rateBits, toNat_and_mask, UInt8.toNat_ofNat']
  omega

/-- The place of a delay goes beside the five bits. -/
theorem toNat_or_shift {bits : UInt8} {index : Nat} (hbits : bits.toNat < 32) (hindex : index < 4) :
    (bits ||| UInt8.ofNat index <<< 5).toNat = 32 * index + bits.toNat := by
  have hshift : (UInt8.ofNat index <<< 5).toNat = 2 ^ 5 * index := by
    simp [Nat.shiftLeft_eq]
    omega
  rw [UInt8.toNat_or, hshift, Nat.or_comm]
  exact (Nat.two_pow_add_eq_or_of_lt hbits index).symm

/-- What the byte of a rate and a delay says: the level of the one, and the place of the other among
the delays. -/
structure Packed (value : Rat) (delay : UInt16) (byte : UInt8) : Prop where
  level : level value = (byte &&& 0x1F).toNat
  delay : delays[(byte >>> 5).toNat]? = some delay

theorem idxOf_delay {index : Nat} (h : delays[index]? = some delay) :
    delays.idxOf? delay = some index := by
  have hplaces : ∀ place : Fin delays.length,
      delays.idxOf? (delays.get place) = some place.val := by
    decide
  obtain ⟨hlength, rfl⟩ := List.getElem?_eq_some_iff.1 h
  exact hplaces ⟨index, hlength⟩

theorem Packed.toNat_lt (h : Packed value delay byte) : byte.toNat < 128 := by
  have hindex : (byte >>> 5).toNat < 4 := (List.getElem?_eq_some_iff.1 h.delay).1
  rw [toNat_shiftRight_five] at hindex
  omega

/-- No other byte says the same. -/
theorem Packed.unique {other : UInt8} (h : Packed value delay byte)
    (hother : Packed value delay other) : byte = other := by
  have hlevel : (byte &&& 0x1F).toNat = (other &&& 0x1F).toNat := by
    exact_mod_cast h.level.symm.trans hother.level
  have hdelay : (byte >>> 5).toNat = (other >>> 5).toNat :=
    Option.some.inj ((idxOf_delay h.delay).symm.trans (idxOf_delay hother.delay))
  rw [toNat_and_mask, toNat_and_mask] at hlevel
  rw [toNat_shiftRight_five, toNat_shiftRight_five] at hdelay
  apply UInt8.toNat_inj.1
  omega

theorem exists_encode (hvalue : rate.value? = some value) (hlow : slowest ≤ value)
    (hhigh : value ≤ fastest) (hdelay : delay ∈ delays) :
    ∃ byte, encode rate delay = .ok byte ∧ Packed value delay byte := by
  obtain ⟨index, hindex⟩ : ∃ index, delays.idxOf? delay = some index :=
    Option.ne_none_iff_exists'.1 fun hnone => List.idxOf?_eq_none_iff.1 hnone hdelay
  obtain ⟨hlength, hplace, -⟩ := List.idxOf?_eq_some_iff.1 hindex
  have hbits := toNat_rateBits hlow hhigh
  have hlevel := level_bounds hlow hhigh
  have hbyte : (rateBits value ||| UInt8.ofNat index <<< 5).toNat =
      32 * index + (rateBits value).toNat := toNat_or_shift (by omega) hlength
  have hencoded : encode rate delay = .ok (rateBits value ||| UInt8.ofNat index <<< 5) := by
    simp only [encode, hvalue, hindex, if_pos (And.intro hlow hhigh)]
  refine ⟨_, hencoded, ?_, ?_⟩
  · rw [toNat_and_mask, hbyte]
    omega
  · have hquotient : (32 * index + (rateBits value).toNat) / 32 = index := by omega
    rw [toNat_shiftRight_five, hbyte, hquotient]
    exact List.getElem?_eq_some_iff.2 ⟨hlength, hplace⟩

/-- A byte is that of an accepted rate and a delay if it says so. -/
theorem encode_eq_ok_iff : encode rate delay = .ok byte ↔
    ∃ value, rate.value? = some value ∧ slowest ≤ value ∧ value ≤ fastest ∧
      Packed value delay byte := by
  constructor
  · intro h
    have hrate : HasRate rate := by
      by_contra hnot
      cases h.symm.trans (encode_eq_error_iff.2 (.inl ⟨hnot, rfl⟩))
    have hdelay : delay ∈ delays := by
      by_contra hnot
      cases h.symm.trans (encode_eq_error_iff.2 (.inr ⟨hrate, hnot, rfl⟩))
    obtain ⟨value, hvalue, hlow, hhigh⟩ := hrate
    obtain ⟨encoded, hencoded, hpacked⟩ := exists_encode hvalue hlow hhigh hdelay
    cases h.symm.trans hencoded
    exact ⟨value, hvalue, hlow, hhigh, hpacked⟩
  · rintro ⟨value, hvalue, hlow, hhigh, hpacked⟩
    have hdelay : delay ∈ delays := List.mem_of_getElem? hpacked.delay
    obtain ⟨encoded, hencoded, hother⟩ := exists_encode hvalue hlow hhigh hdelay
    rw [hencoded, hother.unique hpacked]

/-- What has a byte is a rate of the keyboard with one of its delays. -/
theorem exists_encode_iff :
    (∃ byte, encode rate delay = .ok byte) ↔ HasRate rate ∧ delay ∈ delays := by
  constructor
  · rintro ⟨byte, h⟩
    obtain ⟨value, hvalue, hlow, hhigh, hpacked⟩ := encode_eq_ok_iff.1 h
    exact ⟨⟨value, hvalue, hlow, hhigh⟩, List.mem_of_getElem? hpacked.delay⟩
  · rintro ⟨⟨value, hvalue, hlow, hhigh⟩, hdelay⟩
    obtain ⟨byte, h, -⟩ := exists_encode hvalue hlow hhigh hdelay
    exact ⟨byte, h⟩

/-- The byte of a faster rate does not say a higher level, whatever the delays are. -/
theorem Packed.level_le {value' : Rat} {delay' : UInt16} {byte' : UInt8}
    (h : Packed value delay byte) (h' : Packed value' delay' byte') (hle : value ≤ value') :
    byte' &&& 0x1F ≤ byte &&& 0x1F := by
  have hlevels := level_anti hle
  rw [h.level, h'.level] at hlevels
  apply UInt8.le_iff_toNat_le.2
  exact_mod_cast hlevels

/-! ## A rate of each level -/

/-- The bit pattern of a rate that is so many times 57 sixty-fourths below the fastest. -/
def rateAt (k : Nat) : Binary32 :=
  let sixtyFourths := 1920 - 57 * k
  let exponent := sixtyFourths.log2
  ⟨.ofNat ((exponent + 120) * 2 ^ 23 + sixtyFourths * 2 ^ (23 - exponent))⟩

theorem value?_rateAt : ∀ k < 32, (rateAt k).value? = some (30 - 57 / 64 * (k : Rat)) := by
  decide +kernel

theorem rateAt_bounds {k : Nat} (hk : k < 32) :
    slowest ≤ 30 - 57 / 64 * (k : Rat) ∧ 30 - 57 / 64 * (k : Rat) ≤ fastest := by
  have hnonneg : (0 : Rat) ≤ k := k.cast_nonneg
  have hle : (k : Rat) ≤ 31 := by exact_mod_cast Nat.le_of_lt_succ hk
  unfold slowest fastest
  constructor <;> linarith

/-- Such a rate is so near to its level that no other integer is within the error. -/
theorem level_rateAt {k : Nat} (hk : k < 32) : level (30 - 57 / 64 * (k : Rat)) = k := by
  have hnonneg : (0 : Rat) ≤ k := k.cast_nonneg
  have hle : (k : Rat) ≤ 31 := by exact_mod_cast Nat.le_of_lt_succ hk
  obtain ⟨hlow, hhigh⟩ := rateAt_bounds hk
  have herror := abs_level_sub_le hlow hhigh
  rw [abs_le] at herror
  have hnear : |((level (30 - 57 / 64 * (k : Rat)) - k : Int) : Rat)| < 1 := by
    rw [abs_lt]
    push_cast
    constructor <;> linarith
  have hzero : level (30 - 57 / 64 * (k : Rat)) - k = 0 := by
    apply Int.abs_lt_one_iff.1
    exact_mod_cast hnear
  omega

/-- Each byte without the top bit is that of a rate and a delay. -/
theorem exists_rate_delay (hbyte : byte.toNat < 128) :
    ∃ rate delay, encode rate delay = .ok byte := by
  have hk : (byte &&& 0x1F).toNat < 32 := by
    rw [toNat_and_mask]
    omega
  have hindex : (byte >>> 5).toNat < delays.length := by
    rw [toNat_shiftRight_five]
    show _ < 4
    omega
  obtain ⟨hlow, hhigh⟩ := rateAt_bounds hk
  exact ⟨rateAt (byte &&& 0x1F).toNat, delays[(byte >>> 5).toNat], encode_eq_ok_iff.2
    ⟨_, value?_rateAt _ hk, hlow, hhigh, level_rateAt hk, List.getElem?_eq_getElem hindex⟩⟩

/-- A rate from 2 to 30 characters a second and one of four delays have a byte; a bad rate is blamed
whatever the delay is, and then a bad delay. The top bit of the byte is clear, the next two are the
place of the delay, and the other five are the level of the rate, which the mask leaves whole. The
level is nearest to where the rate lies, but for an error of a ten-thousandth; a faster rate never
has a higher one; and each of the bytes with the top bit clear comes of some rate and delay. -/
theorem encode_quantises :
    (∀ rate delay, (∃ byte, encode rate delay = .ok byte) ↔
      (0x40000000 ≤ rate.bits ∧ rate.bits ≤ 0x41F00000) ∧ delay ∈ [250, 500, 750, 1000]) ∧
    (∀ rate delay, ¬ (0x40000000 ≤ rate.bits ∧ rate.bits ≤ 0x41F00000) →
      encode rate delay = .error (.invalidTypematicRate rate)) ∧
    (∀ rate delay, 0x40000000 ≤ rate.bits ∧ rate.bits ≤ 0x41F00000 →
      delay ∉ [250, 500, 750, 1000] → encode rate delay = .error (.invalidTypematicDelay delay)) ∧
    (∀ rate delay byte, encode rate delay = .ok byte →
      byte.toNat.testBit 7 = false ∧
      ([250, 500, 750, 1000] : List UInt16)[(byte >>> 5).toNat]? = some delay ∧
      ∃ value k, rate.value? = some value ∧ k ≤ 31 ∧ level value = (k : Nat) ∧
        (byte &&& 0x1F).toNat = k ∧
        |(k : Rat) - (30 - value) * (31 / 28)| ≤ 1 / 2 + 1 / 10000) ∧
    (∀ rate rate' delay delay' byte byte' value value',
      rate.value? = some value → rate'.value? = some value' → value ≤ value' →
      encode rate delay = .ok byte → encode rate' delay' = .ok byte' →
      byte' &&& 0x1F ≤ byte &&& 0x1F) ∧
    ∀ byte, (∃ rate delay, encode rate delay = .ok byte) ↔ byte.toNat < 128 := by
  simp only [← hasRate_iff]
  refine ⟨fun rate delay => exists_encode_iff,
    fun rate delay hrate => encode_eq_error_iff.2 (.inl ⟨hrate, rfl⟩),
    fun rate delay hrate hdelay => encode_eq_error_iff.2 (.inr ⟨hrate, hdelay, rfl⟩),
    fun rate delay byte h => ?_, ?_, fun byte => ⟨?_, exists_rate_delay⟩⟩
  · obtain ⟨value, hvalue, hlow, hhigh, hpacked⟩ := encode_eq_ok_iff.1 h
    have hk : (byte &&& 0x1F).toNat ≤ 31 := by
      rw [toNat_and_mask]
      omega
    have herror := abs_level_sub_le hlow hhigh
    rw [hpacked.level] at herror
    exact ⟨Nat.testBit_lt_two_pow hpacked.toNat_lt, hpacked.delay, value, _, hvalue, hk,
      hpacked.level, rfl, by exact_mod_cast herror⟩
  · intro rate rate' delay delay' byte byte' value value' hvalue hvalue' hle h h'
    obtain ⟨_, hsame, -, -, hpacked⟩ := encode_eq_ok_iff.1 h
    obtain ⟨_, hsame', -, -, hpacked'⟩ := encode_eq_ok_iff.1 h'
    cases hvalue.symm.trans hsame
    cases hvalue'.symm.trans hsame'
    exact hpacked.level_le hpacked' hle
  · rintro ⟨rate, delay, h⟩
    obtain ⟨_, -, -, -, hpacked⟩ := encode_eq_ok_iff.1 h
    exact hpacked.toNat_lt

/-- The slowest rate keeps its last level beside the longest delay. The next pattern below is no
rate of the keyboard, and neither is what is no number; the delay is then not looked at. -/
theorem encode_quantises_slowest :
    encode ⟨0x40000000⟩ 1000 = .ok 0x7F ∧ level 2 = 31 ∧
    encode ⟨0x3FFFFFFF⟩ 7 = .error (.invalidTypematicRate ⟨0x3FFFFFFF⟩) ∧
    encode ⟨0x7FC00000⟩ 1000 = .error (.invalidTypematicRate ⟨0x7FC00000⟩) ∧
    encode ⟨0x41F00000⟩ 7 = .error (.invalidTypematicDelay 7) := by
  obtain ⟨-, hrate, hdelay, hok, -⟩ := encode_quantises
  have hslowest : encode ⟨0x40000000⟩ 1000 = .ok 0x7F := by
    rw [encode_eq_ok_iff]
    exact ⟨slowest, value?_slowest, by decide, by decide, by decide +kernel, rfl⟩
  obtain ⟨-, -, value, k, hvalue, -, hlevel, hk, -⟩ := hok _ _ _ hslowest
  cases value?_slowest.symm.trans hvalue
  refine ⟨hslowest, ?_, hrate _ _ (by decide), hrate _ _ (by decide),
    hdelay _ _ (by decide) (by decide)⟩
  rw [show (2 : Rat) = slowest from rfl, hlevel, ← hk]
  rfl

end Ps2Host.Keyboard.Typematic
