import Ps2Host.Chip.Scripted
import Ps2Host.Session.Basic

/-!
# Sessions on a scripted chip

A bench is a session whose chip acts out a script, which can be changed between steps. The record of
a step also counts the bytes left in the queue of the chip.
-/
namespace Ps2Host

/-- A session on a scripted chip. -/
abbrev Bench := Session ScriptedChip

namespace Bench

inductive Step
  | session (step : Session.Step)
  | script (update : ScriptedChip.Update)
  deriving DecidableEq

structure Record extends Session.Record where
  /-- The bytes left in the queue of the chip. -/
  left : Nat

def step (bench : Bench) : Step → Bench × Record
  | .session step =>
    let stepped := Session.step bench step
    (stepped.1, { stepped.2 with left := stepped.1.chip.queue.length })
  | .script update =>
    let chip := bench.chip.update update
    ({ bench with chip }, { bench.record .done with left := chip.queue.length })

def run (bench : Bench) : List Step → Bench × List Record
  | [] => (bench, [])
  | first :: rest =>
    let stepped := bench.step first
    let others := run stepped.1 rest
    (others.1, stepped.2 :: others.2)

end Bench

end Ps2Host
