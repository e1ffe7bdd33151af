import Ps2Host.Register.Flags

/-!
# What a mouse says of itself

A mouse says what it is in one byte. It has four resolutions, which it numbers, and seven sample
rates, which it names as they are. It reports a movement in three bytes: flags, the horizontal and
the vertical movement. Each movement is a two's complement number of nine bits whose ninth bit is
among the flags.

## Main definitions

* `Mouse.Kind`, `Mouse.Model` — the kinds of mice, and a kind with the byte that told it.
* `Mouse.resolution?`, `Mouse.isSampleRate` — the settings by the bytes that stand for them.
* `Mouse.Packet` — a movement with its flags; `Mouse.Packet.ofBytes`, the one of three bytes.
-/
namespace Ps2Host.Mouse

inductive Kind
  | standard
  | intelliMouse
  | intelliMouseExplorer
  | typhoon
  | unknown
  deriving DecidableEq, Repr

namespace Kind

/-- Every kind, by number. -/
def all : List Kind := [.standard, .intelliMouse, .intelliMouseExplorer, .typhoon, .unknown]

def name : Kind → String
  | standard => "standard"
  | intelliMouse => "IntelliMouse"
  | intelliMouseExplorer => "IntelliMouse Explorer"
  | typhoon => "Typhoon"
  | unknown => "unknown"

def identifications : List (UInt8 × Kind) :=
  [(0x00, .standard), (0x03, .intelliMouse), (0x04, .intelliMouseExplorer), (0x08, .typhoon)]

def ofId (id : UInt8) : Kind := (identifications.lookup id).getD .unknown

/-- The name of the kind of a number; a number that is no kind's has the name of `unknown`. -/
def nameOf (number : Nat) : String := (all[number]?.getD .unknown).name

end Kind

structure Model where
  kind : Kind := .unknown
  id : UInt8 := 0
  deriving DecidableEq, Repr

/-- The model that a byte identifies; the byte is kept. -/
def Model.ofId (id : UInt8) : Model := ⟨.ofId id, id⟩

/-! ### Settings -/

/-- The resolutions in counts per millimetre, in the order of their numbers. -/
def resolutions : List UInt8 := [1, 2, 4, 8]

def resolutionIndex? (countsPerMm : UInt8) : Option UInt8 :=
  (resolutions.idxOf? countsPerMm).map UInt8.ofNat

def resolution? (index : UInt8) : Option UInt8 := resolutions[index.toNat]?

/-- The sample rates, in reports a second. -/
def sampleRates : List UInt8 := [10, 20, 40, 60, 80, 100, 200]

def isSampleRate (rate : UInt8) : Bool := sampleRates.contains rate

/-! ### Movements -/

structure Packet where
  flags : Register .movement
  x : Int
  y : Int
  deriving DecidableEq

/-- A nine-bit two's complement number, given by its sign bit and the other eight. -/
def signed (negative : Bool) (low : UInt8) : Int :=
  if negative then (low.toNat : Int) - 256 else low.toNat

/-- The packet that three bytes report. Bit 3 of the first, which a mouse always sets, names nothing
and is dropped. -/
def Packet.ofBytes (flags x y : UInt8) : Packet :=
  let flags : Register .movement := .ofBits flags
  ⟨flags, signed (flags.contains Flag.Movement.xSign) x,
    signed (flags.contains Flag.Movement.ySign) y⟩

end Ps2Host.Mouse
