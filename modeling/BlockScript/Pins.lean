import BlockScript.Ledger
import BlockScript.Value

namespace BlockScript

/-- Tasks of a pin. -/
inductive PinTask where
  | input
  | output
  | pwm
  | servo
  | stepper
  | serial
  | i2c
  | spi
deriving DecidableEq, Inhabited

def PinTask.name : PinTask → String
  | .input => "INPUT"
  | .output => "OUTPUT"
  | .pwm => "PWM"
  | .servo => "SERVO"
  | .stepper => "STEPPER"
  | .serial => "SERIAL"
  | .i2c => "I2C/TWI"
  | .spi => "SPI"

/-- The task that each pin was first claimed for. Pins are told apart by their text. -/
abbrev Pins := Ledger String PinTask

namespace Pins

def task? (pins : Pins) (pin : Value) : Option PinTask :=
  pins.get? pin.toText

/-- Claims a pin and gives the task it was claimed for before, if that is another one. -/
def claim (pins : Pins) (pin : Value) (task : PinTask) : Option PinTask × Pins :=
  match pins.task? pin with
  | none => (none, pins.put pin.toText task)
  | some earlier => (if earlier = task then none else some earlier, pins)

/-- What is shown at a block whose pin has another task already. -/
def conflictText (pin : Value) (tag : String) (task earlier : PinTask) : String :=
  "Pin " ++ pin.toText ++ " is needed for " ++ tag ++ " as pin " ++ task.name ++
    ". Already used as " ++ earlier.name ++ "."

end Pins

end BlockScript
