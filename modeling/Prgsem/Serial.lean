import Mathlib.Data.List.Basic

/-!
# The serial port

One-byte reads from the port, as in `prg_serial_nonblock.c`. What the port
answers is a list of outcomes; once they are used up there is nothing to read.
-/

namespace Prgsem

set_option autoImplicit false

inductive ReadOutcome where
  | byte (b : UInt8)
  | nothing
  | error
  deriving DecidableEq, Repr

/-- `read(fd, c, 1)`: the result, `*c` after the call and the outcomes to come. -/
def readByte (c : UInt8) : List ReadOutcome → Int × UInt8 × List ReadOutcome
  | [] => (0, c, [])
  | .byte b :: input => (1, b, input)
  | .nothing :: input => (0, c, input)
  | .error :: input => (-1, c, input)

/-- `poll` comes first: when it reports nothing to read, the result is the initial 0. -/
def serialGetcTimeout (c : UInt8) : List ReadOutcome → Int × UInt8 × List ReadOutcome
  | .nothing :: input => (0, c, input)
  | input => readByte c input

theorem serialGetcTimeout_eq (c : UInt8) (input : List ReadOutcome) :
    serialGetcTimeout c input = readByte c input := by
  cases input with
  | nil => rfl
  | cons outcome input => cases outcome <;> rfl

end Prgsem
