import Ps2Host.Chip.PortSpace
import Ps2Host.Log.Logger

/-!
# Runs

What came of something done to a chip: its result, the chip afterwards, the register accesses made
and the notices raised. Runs are chained with `Run.andThen`, which joins traces and notices.
-/
namespace Ps2Host

structure Run (σ α : Type) where
  result : α
  chip : σ
  trace : Trace
  notices : List Notice
  deriving DecidableEq

namespace Run

variable {σ α β γ : Type}

def pure (a : α) (chip : σ) : Run σ α := ⟨a, chip, [], []⟩

def andThen (r : Run σ α) (f : α → σ → Run σ β) : Run σ β :=
  let next := f r.result r.chip
  ⟨next.result, next.chip, r.trace ++ next.trace, r.notices ++ next.notices⟩

def map (f : α → β) (r : Run σ α) : Run σ β := { r with result := f r.result }

/-- Puts accesses made before in front of a run. -/
def after (r : Run σ α) (trace : Trace) : Run σ α := { r with trace := trace ++ r.trace }

def note (notice : Notice) (chip : σ) : Run σ Unit := ⟨(), chip, [], [notice]⟩

def status [Chip σ] (chip : σ) : Run σ (Register .status) :=
  let answer := Chip.status chip
  ⟨.ofBits answer.1, answer.2, [.status answer.1], []⟩

def read [Chip σ] (chip : σ) : Run σ UInt8 :=
  let answer := Chip.read chip
  ⟨answer.1, answer.2, [.read answer.1], []⟩

def write [Chip σ] (port : Port) (byte : UInt8) (chip : σ) : Run σ Unit :=
  ⟨(), Chip.write port byte chip, [.write port byte], []⟩

@[simp] theorem pure_andThen (a : α) (chip : σ) (f : α → σ → Run σ β) :
    (pure a chip).andThen f = f a chip := rfl

@[simp] theorem after_after (r : Run σ α) (s t : Trace) :
    (r.after s).after t = r.after (t ++ s) := by
  simp [after]

@[simp] theorem andThen_pure (r : Run σ α) : r.andThen pure = r := by
  simp [andThen, pure]

theorem andThen_assoc (r : Run σ α) (f : α → σ → Run σ β) (g : β → σ → Run σ γ) :
    (r.andThen f).andThen g = r.andThen fun a chip => (f a chip).andThen g := by
  simp [andThen, List.append_assoc]

end Run

end Ps2Host
