import Ps2Host.Register

/-!
# Ports

The host reaches hardware through eight-bit ports. Without anything behind it, a port gives back the
byte last written to it, and before that the byte of an empty bus. The controller chip has two
ports. Reading its command port gives the status register; reading its data port takes the byte in
the output buffer; either port can be written.

## Main definitions

* `PortSpace` — the ports of a machine, without anything behind them.
* `Chip σ` — a chip with states `σ`: what each access answers and does to it.
* `Access` — one access as an observer of the bus sees it, and `Trace`, a sequence of them.
* `Trace.runs` — a trace with equal neighbours counted instead of repeated.

## Main results

* `PortSpace.read_write_self`, `PortSpace.read_write_of_ne` — ports are independent cells.
* `Trace.expand_runs` — nothing is lost by counting.
-/
namespace Ps2Host

structure IoPort where
  number : UInt16
  deriving DecidableEq, Repr

/-- The bytes written to ports, latest first. -/
structure PortSpace where
  written : List (IoPort × UInt8) := []
  deriving DecidableEq, Repr

namespace PortSpace

def emptyBus : UInt8 := 0xFF

def read (space : PortSpace) (port : IoPort) : UInt8 := (space.written.lookup port).getD emptyBus

def write (space : PortSpace) (port : IoPort) (byte : UInt8) : PortSpace :=
  ⟨(port, byte) :: space.written⟩

@[simp] theorem read_write_self (space : PortSpace) (port : IoPort) (byte : UInt8) :
    (space.write port byte).read port = byte := by
  simp [read, write]

theorem read_write_of_ne (space : PortSpace) {port other : IoPort} (byte : UInt8)
    (h : other ≠ port) : (space.write port byte).read other = space.read other := by
  simp [read, write, List.lookup_cons, beq_eq_false_iff_ne.2 h]

end PortSpace

/-! ### Register accesses -/

inductive Port
  | data
  | command
  deriving DecidableEq, Repr

/-- A chip, as far as the host can tell: nothing is assumed of what it answers. -/
class Chip (σ : Type) where
  status : σ → UInt8 × σ
  read : σ → UInt8 × σ
  write : Port → UInt8 → σ → σ

inductive Access
  | status (byte : UInt8)
  | read (byte : UInt8)
  | write (port : Port) (byte : UInt8)
  deriving DecidableEq, Repr

/-- Register accesses in the order in which they were made. -/
abbrev Trace := List Access

namespace Trace

/-- The trace with each run of equal accesses given once, with its length. -/
def runs (trace : Trace) : List (Access × Nat) := (trace.foldl count []).reverse
where
  /-- Counts one more access in runs listed latest first. -/
  count : List (Access × Nat) → Access → List (Access × Nat)
    | [], a => [(a, 1)]
    | (b, n) :: rest, a => if a = b then (b, n + 1) :: rest else (a, 1) :: (b, n) :: rest

def expand (runs : List (Access × Nat)) : Trace :=
  runs.flatMap fun run => List.replicate run.2 run.1

theorem expand_append (s t : List (Access × Nat)) : expand (s ++ t) = expand s ++ expand t :=
  List.flatMap_append

theorem expand_count (counted : List (Access × Nat)) (a : Access) :
    expand (runs.count counted a).reverse = expand counted.reverse ++ [a] := by
  rcases counted with _ | ⟨⟨b, n⟩, rest⟩
  · rfl
  · rw [runs.count]
    split
    · rename_i h
      subst h
      simp [expand, List.replicate_succ']
    · simp [expand]

theorem expand_runs (trace : Trace) : expand trace.runs = trace := by
  have h : ∀ (counted : List (Access × Nat)),
      expand (trace.foldl runs.count counted).reverse = expand counted.reverse ++ trace := by
    induction trace with
    | nil => simp
    | cons a rest ih =>
      intro counted
      rw [List.foldl_cons, ih, expand_count]
      simp
  exact h []

end Trace

end Ps2Host
