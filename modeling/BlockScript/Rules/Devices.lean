import BlockScript.Rules.Statements

namespace BlockScript

/-- A device on a pin of which the program has one object. -/
structure Device where
  /-- What the tag of the declaration starts with. -/
  tag : String
  /-- What the name of the object starts with. -/
  object : String
  /-- The name besides `Pin` that the declaration needs. -/
  needs : Option String
  /-- The declaration, by object and pin. -/
  declaration : String → String → String

namespace Device

def digital (mode : String) : Device where
  tag := "io_"
  object := "pin"
  needs := none
  declaration object pin := object ++ " = Pin(" ++ pin ++ ", Pin." ++ mode ++ ")"

def pwm : Device where
  tag := "pwm_"
  object := "pwm"
  needs := some "PWM"
  declaration object pin := object ++ " = PWM(Pin(" ++ pin ++ "))"

def adc : Device where
  tag := "adc_"
  object := "adc"
  needs := some "ADC"
  declaration object pin := object ++ " = ADC(Pin(" ++ pin ++ "))"

def servo : Device where
  tag := "servo_"
  object := "servo"
  needs := some "PWM"
  declaration object pin :=
    object ++ " = PWM(Pin(" ++ pin ++ ", mode=Pin.OUT))\n" ++ object ++ ".freq(50)"

/-- Declares the object of a device on first use and gives its identifier. -/
def use (d : Device) (pin : Value) : Run String := do
  let _ ← Run.importFrom "machine" "Pin"
  if let some name := d.needs then
    let _ ← Run.importFrom "machine" name
  let object ← Run.generatedName (d.object ++ pin.toText)
  let _ ← Run.declare (d.tag ++ pin.toText) (d.declaration object pin.toText)
  return object

end Device

namespace Scene

variable {n : Nat}

/-- The pin that a field names. -/
def pin (s : Scene n) (name : String) : Value :=
  s.block.fieldD name (.text "2")

def digitalWrite (s : Scene n) : Run Output := do
  let pin := s.pin "PIN"
  let state ← s.value "STATE" .none "0"
  let _ ← s.claimPin pin .output "Digital Write"
  let object ← (Device.digital "OUT").use pin
  return .statement (object ++ ".value(" ++ state ++ ")\n")

def digitalRead (s : Scene n) : Run Output := do
  let pin := s.pin "PIN"
  let _ ← s.claimPin pin .input "Digital Read"
  let object ← (Device.digital "IN").use pin
  return Output.call (object ++ ".value()")

def builtinLed (s : Scene n) : Run Output := do
  let pin := s.pin "BUILT_IN_LED"
  let state ← s.value "STATE" .none "0"
  let _ ← s.claimPin pin .output "Set LED"
  let _ ← Run.importFrom "micropython" "const"
  let _ ← Run.declare "builtin_led" ("BUILT_IN_LED = const(" ++ pin.toText ++ ")")
  let object ← (Device.digital "OUT").use pin
  return .statement (object ++ ".value(" ++ state ++ ")\n")

def level (s : Scene n) : Run Output := do
  let state ← s.compared "STATE" "HIGH" [("HIGH", "HIGH"), ("LOW", "LOW")]
  let _ ← Run.importFrom "micropython" "const"
  let _ ← Run.declare "highlow" "HIGH = const(1)\nLOW = const(0)"
  return Output.atom state

/-- Whether a duty is a number out of range. -/
def dutyIsWrong (duty : String) (dutyMax : Int) : Except Fault Bool := do
  if ← (Value.text duty).isNumber then
    let x ← (Value.text duty).toNumber
    return !((Number.whole 0).le x && x.le (.whole dutyMax))
  else return false

def dutyWarning (dutyMax : Int) : String :=
  "The analogue value set must be between 0 and " ++ toString dutyMax

def analogWrite (s : Scene n) : Run Output := do
  let pin := s.pin "PIN"
  let duty ← s.value "NUM" .none "0"
  let _ ← s.claimPin pin .pwm "Analogue Write"
  let dutyMax := s.settings.dutyMax
  match dutyIsWrong duty dutyMax with
  | .error f => throw f
  | .ok wrong => s.warn "pwm_value" (if wrong then some (dutyWarning dutyMax) else none)
  let object ← Device.pwm.use pin
  return .statement (object ++ ".duty(" ++ duty ++ ")\n")

def analogRead (s : Scene n) : Run Output := do
  let pin := s.pin "PIN"
  let _ ← s.claimPin pin .input "Analogue Read"
  let object ← Device.adc.use pin
  return Output.call (object ++ ".read()")

def pulse (s : Scene n) (timeout : Bool) : Run Output := do
  let pin := s.pin "PULSEPIN"
  let level ← s.value "PULSETYPE" .none "1"
  let _ ← s.claimPin pin .input "Pulse Pin"
  let _ ← Run.importFrom "machine" "time_pulse_us"
  let object ← (Device.digital "IN").use pin
  let limit ← if timeout then do pure (", " ++ (← s.value "TIMEOUT" .none "1000000")) else pure ""
  return Output.call ("time_pulse_us(" ++ object ++ ", " ++ level ++ limit ++ ")")

def toneDuty : Nat := 512

def tone (s : Scene n) : Run Output := do
  let pin := s.pin "TONEPIN"
  let frequency ← s.value "FREQUENCY" .none "440"
  let _ ← s.claimPin pin .pwm "Tone Pin"
  let object ← Device.pwm.use pin
  return .statement (object ++ ".freq(" ++ frequency ++ ")\n" ++ object ++ ".duty(" ++
    toString toneDuty ++ ")\n")

def silence (s : Scene n) : Run Output := do
  let pin := s.pin "TONEPIN"
  let _ ← s.claimPin pin .pwm "Tone Pin"
  let object ← Device.pwm.use pin
  return .statement (object ++ ".duty(0)\n")

/-- The duty for an angle: a number where the angle is one. -/
def duty (s : Scene n) (angle : String) : Run String := do
  match (Value.text angle).isNumber with
  | .error f => throw f
  | .ok true =>
    match angleDuty (.text angle) with
    | .error f => throw f
    | .ok duty => return toString duty
  | .ok false => return (← s.function .servoDuty) ++ "(" ++ angle ++ ")"

def servoWrite (s : Scene n) : Run Output := do
  let pin := s.pin "SERVO_PIN"
  let angle ← s.value "SERVO_ANGLE" .none "90"
  let _ ← s.claimPin pin .servo "Servo Write"
  let object ← Device.servo.use pin
  return .statement (object ++ ".duty(" ++ (← s.duty angle) ++ ")\n")

def servoRead (s : Scene n) : Run Output := do
  let pin := s.pin "SERVO_PIN"
  let _ ← s.claimPin pin .servo "Servo Read"
  let object ← Device.servo.use pin
  return Output.call ("int((" ++ object ++ ".duty() - " ++ toString dutyMin ++ ") * " ++
    toString maxAngle ++ " / " ++ toString dutySpan ++ ")")

/-- The tag of a motor, and what its object is named after. -/
def motorTag (s : Scene n) : String :=
  "stepper_" ++ (s.block.fieldD "STEPPER_NAME" (.text "MyStepper")).toText

/-- The pins of a motor with `count` wires. -/
def motorPins (s : Scene n) (count : Nat) : List Value :=
  (List.range count).map fun k =>
    s.block.fieldD ("STEPPER_PIN" ++ toString (k + 1)) (.text (toString (k + 1)))

def motorObject (pins : List Value) (delay : String) : String :=
  "\x7b'pins': (" ++ Text.joined ", " (pins.map fun p => "Pin(" ++ p.toText ++ ", Pin.OUT)") ++
    ",), 'delay_us': " ++ delay ++ ", 'position': 0\x7d"

/-- The latest set-up of a motor counts. -/
def stepperSetup (s : Scene n) : Run Output := do
  let count ← s.select "STEPPER_NUMBER_OF_PINS" "TWO" [("TWO", 2), ("FOUR", 4)]
  let steps ← s.value "STEPPER_STEPS" .multiplicative "360"
  let speed ← s.valueAt "STEPPER_SPEED" divisorRank "90"
  let pins := s.motorPins count
  pins.forM fun pin => do
    let _ ← s.claimPin pin .stepper "Stepper"
  let _ ← Run.importFrom "machine" "Pin"
  let object ← Run.generatedName s.motorTag
  match stepDelay (.text steps) (.text speed) with
  | .error f => throw f
  | .ok delay =>
    let _ ← Run.declare s.motorTag (object ++ " = " ++ motorObject pins delay) true
    return .blankLine

def stepperMove (s : Scene n) : Run Output := do
  let steps ← s.value "STEPPER_STEPS" .none "0"
  let _ ← Run.importModule "time"
  let function ← s.function .stepperMove
  let object ← Run.generatedName s.motorTag
  return .statement (function ++ "(" ++ object ++ ", " ++ steps ++ ")\n")

def serialPrint (s : Scene n) : Run Output := do
  let content ← s.value "CONTENT" .none "''"
  let ending := match s.block.fieldD "NEW_LINE" (.text "TRUE") with
    | .text "TRUE" => ""
    | _ => ", end=''"
  return .statement ("print(" ++ content ++ ending ++ ")\n")

/-- The number of a uart, with or without a name in front. -/
def uartNumber (id : String) : String :=
  let name := "Serial".toList
  let number := if name.isPrefixOf id.toList then String.ofList (id.toList.drop name.length) else id
  if number.isEmpty then "0" else number

/-- The latest set-up of a uart counts. -/
def serialSetup (s : Scene n) : Run Output := do
  let uart := uartNumber (s.block.fieldD "SERIAL_ID" (.text "0")).toText
  let speed := (s.block.fieldD "SPEED" (.text "115200")).toText
  let _ ← Run.importFrom "machine" "UART"
  let object ← Run.generatedName ("uart" ++ uart)
  let _ ← Run.addSetup ("serial_" ++ uart)
    (object ++ " = UART(" ++ uart ++ ", baudrate=" ++ speed ++ ")") true
  return .blankLine

end Scene

end BlockScript
