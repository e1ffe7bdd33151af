import Ps2Host.Keyboard.Report

/-!
# What a keyboard is, and how it repeats keys

A keyboard says what it is in two bytes. Old keyboards say less: some only ask for the question
again, and some acknowledge it and send nothing.

A held key repeats after a delay, at a rate. The keyboard takes both in one byte: five bits for the
rate, from 0 for the fastest of thirty a second to 31 for the slowest of two, and two bits for the
delay. The rate is brought to its level in single-precision arithmetic.

## Main definitions

* `Keyboard.Kind` — the kinds of keyboards, with their names.
* `Keyboard.Model` — a kind with the bytes that told it.
* `Keyboard.Model.ofBytes` — the model that two bytes identify.
* `Keyboard.Typematic.encode` — the byte for a rate and a delay, or what is wrong with them.
-/
namespace Ps2Host.Keyboard

inductive Kind
  | xt
  | atTranslated
  | mf2
  | mf2Translated
  | thinkPad
  | thinkPadTranslated
  | key122
  | ibm1390876
  | ncdN97
  | ncdSunLayout
  | japaneseG
  | japaneseP
  | japaneseA
  | unknown
  deriving DecidableEq, Repr

namespace Kind

/-- Every kind, by number. -/
def all : List Kind :=
  [.xt, .atTranslated, .mf2, .mf2Translated, .thinkPad, .thinkPadTranslated, .key122, .ibm1390876,
    .ncdN97, .ncdSunLayout, .japaneseG, .japaneseP, .japaneseA, .unknown]

def name : Kind → String
  | xt => "XT"
  | atTranslated => "AT (translated)"
  | mf2 => "MF2"
  | mf2Translated => "MF2 (translated)"
  | thinkPad => "ThinkPad"
  | thinkPadTranslated => "ThinkPad (translated)"
  | key122 => "122-key"
  | ibm1390876 => "IBM 1390876"
  | ncdN97 => "NCD N-97"
  | ncdSunLayout => "NCD Sun layout"
  | japaneseG => "Japanese G"
  | japaneseP => "Japanese P"
  | japaneseA => "Japanese A"
  | unknown => "unknown"

def identifications : List ((UInt8 × UInt8) × Kind) :=
  [((0xAB, 0x83), .mf2),
    ((0xAB, 0x41), .mf2Translated),
    ((0xAB, 0xC1), .mf2Translated),
    ((0xAB, 0x84), .thinkPad),
    ((0xAB, 0x54), .thinkPadTranslated),
    ((0xAB, 0x85), .ncdN97),
    ((0xAB, 0x86), .key122),
    ((0xAB, 0x90), .japaneseG),
    ((0xAB, 0x91), .japaneseP),
    ((0xAB, 0x92), .japaneseA),
    ((0xBF, 0xBF), .ibm1390876),
    ((0xAC, 0xA1), .ncdSunLayout)]

def ofBytes (first second : UInt8) : Kind :=
  (identifications.lookup (first, second)).getD .unknown

/-- The name of the kind of a number; a number that is no kind's has the name of `unknown`. -/
def nameOf (number : Nat) : String := (all[number]?.getD .unknown).name

end Kind

/-- A kind of keyboard with the bytes that told it, which are zero where none were sent. -/
structure Model where
  kind : Kind := .unknown
  first : UInt8 := 0
  second : UInt8 := 0
  deriving DecidableEq, Repr

def Model.ofBytes (first second : UInt8) : Model := ⟨.ofBytes first second, first, second⟩

namespace Typematic

open Binary32 (nearest)

/-- The slowest rate, in characters a second. -/
def slowest : Rat := 2

/-- The fastest rate, in characters a second. -/
def fastest : Rat := 30

/-- The number of the slowest level; the fastest is level 0. -/
def slowestLevel : Rat := 31

/-- The delays in milliseconds, in the order of their numbers. -/
def delays : List UInt16 := [250, 500, 750, 1000]

def step : Rat := nearest (nearest (fastest - slowest) / slowestLevel)

/-- How many steps a rate is below the fastest, rounded down after adding one half. -/
def level (rate : Rat) : Int := (nearest (nearest (nearest (fastest - rate) / step) + 1 / 2)).floor

def rateBits (rate : Rat) : UInt8 := .ofNat (level rate).toNat &&& 0x1F

/-- The byte for a rate and a delay. A rate that is no number or out of range is refused, and then
a delay that the keyboard does not have. -/
def encode (rate : Binary32) (delay : UInt16) : Except Error UInt8 :=
  match rate.value? with
  | none => .error (.invalidTypematicRate rate)
  | some value =>
    if slowest ≤ value ∧ value ≤ fastest then
      match delays.idxOf? delay with
      | none => .error (.invalidTypematicDelay delay)
      | some index => .ok (rateBits value ||| UInt8.ofNat index <<< 5)
    else .error (.invalidTypematicRate rate)

end Typematic

end Ps2Host.Keyboard
