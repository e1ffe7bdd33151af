/-!
# Commands and replies

The bytes that the keyboard and the mouse understand, and those that they answer. The same byte can
mean something else to the other device, or where no answer is outstanding.

## Main definitions

* `Reply.acknowledge`, `Reply.resend`, … — the replies to a byte.
* `Keyboard.Command`, `Mouse.Command` — the commands, with the byte that gives each.
-/
namespace Ps2Host

/-! ### Replies -/

namespace Reply

def acknowledge : UInt8 := 0xFA

/-- The byte was garbled; the device wants it again. -/
def resend : UInt8 := 0xFE

def echo : UInt8 := 0xEE

def selfTestPassed : UInt8 := 0xAA

def selfTestFailed : UInt8 := 0xFC

/-- The keyboard lost keys because its buffer was full. -/
def overrun : UInt8 := 0x00

def keyDetectionError : UInt8 := 0xFF

end Reply

/-! ### Commands for the keyboard -/

namespace Keyboard

inductive Command
  | setLeds
  | echo
  | scancodeSet
  | identify
  | setTypematic
  | enableScanning
  | disableScanning
  | setDefaults
  | allTypematic
  | allMakeBreak
  | allMakeOnly
  | allTypematicMakeBreak
  | keyTypematic
  | keyMakeBreak
  | keyMakeOnly
  | resend
  | reset
  deriving DecidableEq, Repr

def Command.code : Command → UInt8
  | setLeds => 0xED
  | echo => 0xEE
  | scancodeSet => 0xF0
  | identify => 0xF2
  | setTypematic => 0xF3
  | enableScanning => 0xF4
  | disableScanning => 0xF5
  | setDefaults => 0xF6
  | allTypematic => 0xF7
  | allMakeBreak => 0xF8
  | allMakeOnly => 0xF9
  | allTypematicMakeBreak => 0xFA
  | keyTypematic => 0xFB
  | keyMakeBreak => 0xFC
  | keyMakeOnly => 0xFD
  | resend => 0xFE
  | reset => 0xFF

end Keyboard

/-! ### Commands for the mouse -/

namespace Mouse

inductive Command
  | scalingOneToOne
  | scalingTwoToOne
  | setResolution
  | requestStatus
  | streamMode
  | requestPacket
  | leaveWrapMode
  | wrapMode
  | remoteMode
  | requestId
  | setSampleRate
  | enableReporting
  | disableReporting
  | setDefaults
  | resend
  | reset
  deriving DecidableEq, Repr

def Command.code : Command → UInt8
  | scalingOneToOne => 0xE6
  | scalingTwoToOne => 0xE7
  | setResolution => 0xE8
  | requestStatus => 0xE9
  | streamMode => 0xEA
  | requestPacket => 0xEB
  | leaveWrapMode => 0xEC
  | wrapMode => 0xEE
  | remoteMode => 0xF0
  | requestId => 0xF2
  | setSampleRate => 0xF3
  | enableReporting => 0xF4
  | disableReporting => 0xF5
  | setDefaults => 0xF6
  | resend => 0xFE
  | reset => 0xFF

end Mouse

end Ps2Host
