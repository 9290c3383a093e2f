import BlockScript.Text.Printable

namespace BlockScript.Text

/-- The lower-case hexadecimal digit of a number below sixteen. -/
def hexDigit (n : Nat) : Char :=
  Char.ofNat (if n < 10 then 48 + n else 87 + n)

/-- The last `width` hexadecimal digits of a number. -/
def hexDigits : Nat → Nat → List Char
  | 0, _ => []
  | width + 1, n => hexDigits width (n / 16) ++ [hexDigit (n % 16)]

@[simp] theorem length_hexDigits (width n : Nat) : (hexDigits width n).length = width := by
  induction width generalizing n with
  | zero => rfl
  | succ width ih => simp [hexDigits, ih]

/-- A character by its number: two, four or eight digits, the fewest that hold it. -/
def codeEscape (c : Char) : List Char :=
  if c.toNat ≤ 0xff then '\\' :: 'x' :: hexDigits 2 c.toNat
  else if c.toNat ≤ 0xffff then '\\' :: 'u' :: hexDigits 4 c.toNat
  else '\\' :: 'U' :: hexDigits 8 c.toNat

/-- A character inside a literal that `delimiter` ends. -/
def escapeChar (delimiter c : Char) : List Char :=
  if c = '\\' ∨ c = delimiter then ['\\', c]
  else if c = '\n' then ['\\', 'n']
  else if c = '\r' then ['\\', 'r']
  else if c = '\t' then ['\\', 't']
  else if isPrintable c then [c]
  else codeEscape c

def escape (delimiter : Char) (cs : List Char) : List Char :=
  cs.flatMap (escapeChar delimiter)

def singleQuote : Char := '\x27'

def doubleQuote : Char := '\x22'

def quoteWith (delimiter : Char) (s : String) : String :=
  String.ofList (delimiter :: (escape delimiter s.toList ++ [delimiter]))

/-- The string literal of a text in the emitted program. -/
def quote (s : String) : String :=
  quoteWith singleQuote s

/-- The form in which messages show a text: double quotes spare the escapes where the text has
single quotes only. -/
def display (s : String) : String :=
  if singleQuote ∈ s.toList ∧ doubleQuote ∉ s.toList then quoteWith doubleQuote s
  else quoteWith singleQuote s

end BlockScript.Text
