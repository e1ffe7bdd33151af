/-!
# Bit registers

A byte-wide register gives a name to some of its eight bits and leaves the others undefined. A
register value holds named bits only: the undefined ones are dropped on the way in, and nothing is
ever rejected.

## Main definitions

* `Layout` — the eight layouts of the controller, the keyboard and the mouse.
* `Register l` — a set of named bits of the layout `l`.
* `Register.Edit` — one change of a register by a mask, and `Register.edit`, which carries it out.
-/
namespace Ps2Host

inductive Layout
  | status
  | config
  | inputPort
  | outputPort
  | testPort
  | leds
  | mouseStatus
  | movement
  deriving DecidableEq, Repr

/-- The bits that a layout gives a name to. -/
def Layout.defined : Layout → UInt8
  | .status => 0xFF
  | .config => 0x77
  | .inputPort => 0xF3
  | .outputPort => 0xFF
  | .testPort => 0x03
  | .leds => 0x07
  | .mouseStatus => 0x77
  | .movement => 0xF7

/-- A register value: bits that the layout names, and no others. -/
structure Register (l : Layout) where
  bits : UInt8
  /-- No bit is set that the layout leaves undefined. -/
  bits_and_defined : bits &&& l.defined = bits
  deriving DecidableEq

namespace Register

variable {l : Layout}

@[ext] theorem ext {r s : Register l} (h : r.bits = s.bits) : r = s := by
  cases r
  cases s
  cases h
  rfl

/-- The named bits of a byte; the undefined ones are dropped. -/
def ofBits (raw : UInt8) : Register l where
  bits := raw &&& l.defined
  bits_and_defined := by rw [UInt8.and_assoc, UInt8.and_self]

def empty : Register l where
  bits := 0
  bits_and_defined := UInt8.zero_and

def all : Register l where
  bits := l.defined
  bits_and_defined := UInt8.and_self

instance : Inhabited (Register l) := ⟨empty⟩

def insert (r : Register l) (mask : UInt8) : Register l := ofBits (r.bits ||| mask)

def remove (r : Register l) (mask : UInt8) : Register l where
  bits := r.bits &&& ~~~mask
  bits_and_defined := by
    rw [UInt8.and_assoc, UInt8.and_comm (~~~mask), ← UInt8.and_assoc, r.bits_and_defined]

def set (r : Register l) (mask : UInt8) (on : Bool) : Register l :=
  if on then r.insert mask else r.remove mask

/-- Every bit of the mask is set, so never one with an undefined bit. -/
def contains (r : Register l) (mask : UInt8) : Bool := r.bits &&& mask == mask

def isEmpty (r : Register l) : Bool := r.bits == 0

inductive Edit
  | insert (mask : UInt8)
  | remove (mask : UInt8)
  | set (mask : UInt8) (on : Bool)
  deriving DecidableEq, Repr

def edit (r : Register l) : Edit → Register l
  | .insert mask => r.insert mask
  | .remove mask => r.remove mask
  | .set mask on => r.set mask on

@[simp] theorem bits_ofBits (raw : UInt8) :
    (ofBits raw : Register l).bits = raw &&& l.defined := rfl

@[simp] theorem bits_empty : (empty : Register l).bits = 0 := rfl

@[simp] theorem bits_all : (all : Register l).bits = l.defined := rfl

@[simp] theorem bits_insert (r : Register l) (mask : UInt8) :
    (r.insert mask).bits = (r.bits ||| mask) &&& l.defined := rfl

@[simp] theorem bits_remove (r : Register l) (mask : UInt8) :
    (r.remove mask).bits = r.bits &&& ~~~mask := rfl

@[simp] theorem ofBits_bits (r : Register l) : ofBits r.bits = r := ext r.bits_and_defined

end Register

end Ps2Host
