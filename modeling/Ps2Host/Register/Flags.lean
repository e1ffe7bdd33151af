import Ps2Host.Register

/-!
# Named bits

The bits of each register layout, as one-bit masks. `Layout.flags` lists them by layout, and
`or_flags` says that together they are the bits that the layout defines.
-/
namespace Ps2Host

namespace Flag

namespace Status

/-- A byte waits to be read. -/
def outputFull : UInt8 := 0x01
/-- The last byte written has not been taken yet. -/
def inputFull : UInt8 := 0x02
def systemFlag : UInt8 := 0x04
def inputIsCommand : UInt8 := 0x08
def keyboardLock : UInt8 := 0x10
def mouseOutputFull : UInt8 := 0x20
def timeoutError : UInt8 := 0x40
def parityError : UInt8 := 0x80

end Status

namespace Config

def keyboardInterrupt : UInt8 := 0x01
def mouseInterrupt : UInt8 := 0x02
def systemFlag : UInt8 := 0x04
def keyboardDisabled : UInt8 := 0x10
def mouseDisabled : UInt8 := 0x20
def translateScancodes : UInt8 := 0x40

end Config

namespace InputPort

def keyboardData : UInt8 := 0x01
def mouseData : UInt8 := 0x02
def extraRam : UInt8 := 0x10
def noManufacturingJumper : UInt8 := 0x20
def monochromeDisplay : UInt8 := 0x40
def keyboardEnabled : UInt8 := 0x80

end InputPort

namespace OutputPort

def systemReset : UInt8 := 0x01
def a20Gate : UInt8 := 0x02
def mouseData : UInt8 := 0x04
def mouseClock : UInt8 := 0x08
def keyboardInterrupt : UInt8 := 0x10
def mouseInterrupt : UInt8 := 0x20
def keyboardClock : UInt8 := 0x40
def keyboardData : UInt8 := 0x80

end OutputPort

namespace TestPort

def keyboardClock : UInt8 := 0x01
def keyboardData : UInt8 := 0x02

end TestPort

namespace Led

def scrollLock : UInt8 := 0x01
def numLock : UInt8 := 0x02
def capsLock : UInt8 := 0x04

end Led

namespace MouseStatus

def rightButton : UInt8 := 0x01
def middleButton : UInt8 := 0x02
def leftButton : UInt8 := 0x04
def doubleScaling : UInt8 := 0x10
def reporting : UInt8 := 0x20
def remoteMode : UInt8 := 0x40

end MouseStatus

namespace Movement

def leftButton : UInt8 := 0x01
def rightButton : UInt8 := 0x02
def middleButton : UInt8 := 0x04
/-- The ninth bit of the horizontal movement. -/
def xSign : UInt8 := 0x10
/-- The ninth bit of the vertical movement. -/
def ySign : UInt8 := 0x20
def xOverflow : UInt8 := 0x40
def yOverflow : UInt8 := 0x80

end Movement

end Flag

/-- The named bits of a layout, lowest first. -/
def Layout.flags : Layout → List UInt8
  | .status => [Flag.Status.outputFull, Flag.Status.inputFull, Flag.Status.systemFlag,
      Flag.Status.inputIsCommand, Flag.Status.keyboardLock, Flag.Status.mouseOutputFull,
      Flag.Status.timeoutError, Flag.Status.parityError]
  | .config => [Flag.Config.keyboardInterrupt, Flag.Config.mouseInterrupt, Flag.Config.systemFlag,
      Flag.Config.keyboardDisabled, Flag.Config.mouseDisabled, Flag.Config.translateScancodes]
  | .inputPort => [Flag.InputPort.keyboardData, Flag.InputPort.mouseData, Flag.InputPort.extraRam,
      Flag.InputPort.noManufacturingJumper, Flag.InputPort.monochromeDisplay,
      Flag.InputPort.keyboardEnabled]
  | .outputPort => [Flag.OutputPort.systemReset, Flag.OutputPort.a20Gate,
      Flag.OutputPort.mouseData, Flag.OutputPort.mouseClock, Flag.OutputPort.keyboardInterrupt,
      Flag.OutputPort.mouseInterrupt, Flag.OutputPort.keyboardClock, Flag.OutputPort.keyboardData]
  | .testPort => [Flag.TestPort.keyboardClock, Flag.TestPort.keyboardData]
  | .leds => [Flag.Led.scrollLock, Flag.Led.numLock, Flag.Led.capsLock]
  | .mouseStatus => [Flag.MouseStatus.rightButton, Flag.MouseStatus.middleButton,
      Flag.MouseStatus.leftButton, Flag.MouseStatus.doubleScaling, Flag.MouseStatus.reporting,
      Flag.MouseStatus.remoteMode]
  | .movement => [Flag.Movement.leftButton, Flag.Movement.rightButton, Flag.Movement.middleButton,
      Flag.Movement.xSign, Flag.Movement.ySign, Flag.Movement.xOverflow, Flag.Movement.yOverflow]

/-- A layout defines exactly the bits that it names. -/
theorem Layout.or_flags (l : Layout) : l.flags.foldl (· ||| ·) 0 = l.defined := by
  cases l <;> rfl

end Ps2Host
