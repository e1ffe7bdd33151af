/-!
# Controller commands

The bytes that the controller itself understands on its command port.
-/
namespace Ps2Host.Controller

inductive Command
  | readRam (address : UInt8)
  | writeRam (address : UInt8)
  | disableMouse
  | enableMouse
  | testMouse
  | testController
  | testKeyboard
  | dump
  | disableKeyboard
  | enableKeyboard
  | readInputPort
  /-- Copies the low half of the input port into the status register. -/
  | inputLowToStatus
  /-- Copies the high half of the input port into the status register. -/
  | inputHighToStatus
  | readOutputPort
  | writeOutputPort
  /-- The next data byte appears as if the keyboard had sent it. -/
  | fillKeyboardBuffer
  /-- The next data byte appears as if the mouse had sent it. -/
  | fillMouseBuffer
  /-- The next data byte goes to the mouse. -/
  | toMouse
  | readTestPort
  /-- Pulses the output lines whose bit in the low half of the mask is clear. -/
  | pulse (mask : UInt8)
  deriving DecidableEq, Repr

def ramSize : Nat := 32

/-- The part of a byte that addresses the internal memory. -/
def ramAddress (address : UInt8) : UInt8 := address &&& 0x1F

def Command.code : Command → UInt8
  | readRam address => 0x20 ||| ramAddress address
  | writeRam address => 0x60 ||| ramAddress address
  | disableMouse => 0xA7
  | enableMouse => 0xA8
  | testMouse => 0xA9
  | testController => 0xAA
  | testKeyboard => 0xAB
  | dump => 0xAC
  | disableKeyboard => 0xAD
  | enableKeyboard => 0xAE
  | readInputPort => 0xC0
  | inputLowToStatus => 0xC1
  | inputHighToStatus => 0xC2
  | readOutputPort => 0xD0
  | writeOutputPort => 0xD1
  | fillKeyboardBuffer => 0xD2
  | fillMouseBuffer => 0xD3
  | toMouse => 0xD4
  | readTestPort => 0xE0
  | pulse mask => 0xF0 ||| mask

end Ps2Host.Controller
