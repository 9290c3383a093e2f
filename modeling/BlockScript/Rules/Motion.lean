import BlockScript.Value

namespace BlockScript

/-- Servo signal: the duty at zero degrees, the duties up to a half turn, and a half turn. -/
def dutyMin : Int := 26

def dutySpan : Int := 97

def maxAngle : Int := 180

/-- An angle within the reach of a servo. -/
def clampAngle (angle : Number) : Number :=
  let angle := if angle.lt (.whole 0) then .whole 0 else angle
  if (Number.whole maxAngle).lt angle then .whole maxAngle else angle

/-- The duty for an angle. -/
def angleDuty (angle : Value) : Except Fault Int := do
  let angle := clampAngle (← angle.toNumber)
  let span ← angle.mul (.whole dutySpan)
  let part ← span.div (.whole maxAngle)
  let base ← (Number.whole dutyMin).toDouble
  (part.add base).truncate

/-- Microseconds in a minute. -/
def minuteMicros : Int := 60000000

/-- Microseconds between two steps of a motor with `steps` per turn at `speed` turns a minute, as
a number if both are known and as an expression otherwise. -/
def stepDelay (steps speed : Value) : Except Fault String := do
  let dynamic := "int(60000000 / (" ++ steps.toText ++ " * " ++ speed.toText ++ "))"
  if !(← steps.isNumber) then return dynamic
  if !(← speed.isNumber) then return dynamic
  let a ← steps.toNumber
  let b ← speed.toNumber
  if a.isZero || b.isZero then return dynamic
  let quotient ← (Number.whole minuteMicros).div (← a.mul b)
  return toString (← quotient.truncate)

end BlockScript
