import BlockScript.Functions
import BlockScript.Rules.Motion

namespace BlockScript

/-- A function: the name it asks for, and its lines, each with its depth. -/
structure FunctionText where
  preferred : String
  lines : List (Nat × String)

namespace FunctionText

def header (arguments : String) : Nat × String :=
  (0, "def " ++ functionMark ++ "(" ++ arguments ++ "):")

def isPrime : FunctionText where
  preferred := "math_isPrime"
  lines := [
    header "n",
    (1, "# https://en.wikipedia.org/wiki/Primality_test#Naive_methods"),
    (1, "# If n is not a number but a string, try parsing it."),
    (1, "if not isinstance(n, (int, float)):"),
    (2, "try:"),
    (3, "n = float(n)"),
    (2, "except (TypeError, ValueError):"),
    (3, "return False"),
    (1, "if n == 2 or n == 3:"),
    (2, "return True"),
    (1, "# False if n is negative, is 1, or not whole,"),
    (1, "# or if n is divisible by 2 or 3."),
    (1, "if n <= 1 or n % 1 != 0 or n % 2 == 0 or n % 3 == 0:"),
    (2, "return False"),
    (1, "# Check all the numbers of form 6k +/- 1, up to sqrt(n)."),
    (1, "for x in range(6, int(math.sqrt(n)) + 2, 6):"),
    (2, "if n % (x - 1) == 0 or n % (x + 1) == 0:"),
    (3, "return False"),
    (1, "return True")]

def randomWhole : FunctionText where
  preferred := "math_random_int"
  lines := [
    header "a, b",
    (1, "if a > b:"),
    (2, "# Swap a and b to ensure a is smaller."),
    (2, "a, b = b, a"),
    (1, "return random.randint(int(a), int(b))")]

/-- Counts up to a bound. -/
def upRange : FunctionText where
  preferred := "upRange"
  lines := [
    header "start, stop, step",
    (1, "while start <= stop:"),
    (2, "yield start"),
    (2, "start += abs(step)")]

/-- Counts down to a bound. -/
def downRange : FunctionText where
  preferred := "downRange"
  lines := [
    header "start, stop, step",
    (1, "while start >= stop:"),
    (2, "yield start"),
    (2, "start -= abs(step)")]

def mapRange : FunctionText where
  preferred := "map_range"
  lines := [
    header "x, in_min, in_max, out_min, out_max",
    (1, "return int((x - in_min) * (out_max - out_min) / (in_max - in_min) + out_min)")]

def servoDuty : FunctionText where
  preferred := "servo_duty"
  lines := [
    header "angle",
    (1, "angle = min(max(angle, 0), " ++ toString maxAngle ++ ")"),
    (1, "return int(angle * " ++ toString dutySpan ++ " / " ++ toString maxAngle ++ " + " ++
      toString dutyMin ++ ")")]

def stepperMove : FunctionText where
  preferred := "stepper_step"
  lines := [
    header "stepper, steps",
    (1, "pins = stepper['pins']"),
    (1, "if len(pins) == 2:"),
    (2, "sequence = ((0, 1), (1, 1), (1, 0), (0, 0))"),
    (1, "else:"),
    (2, "sequence = ((1, 0, 1, 0), (0, 1, 1, 0), (0, 1, 0, 1), (1, 0, 0, 1))"),
    (1, "direction = 1 if steps > 0 else -1"),
    (1, "for _ in range(abs(int(steps))):"),
    (2, "stepper['position'] = (stepper['position'] + direction) % len(sequence)"),
    (2, "for pin, level in zip(pins, sequence[stepper['position']]):"),
    (3, "pin.value(level)"),
    (2, "time.sleep_us(stepper['delay_us'])")]

end FunctionText

end BlockScript
