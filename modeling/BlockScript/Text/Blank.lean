import BlockScript.Text.Range

namespace BlockScript.Text

def blankRanges : Ranges := [
  (0x9, 0xd), (0x1c, 0x20), (0x85, 0x85), (0xa0, 0xa0), (0x1680, 0x1680), (0x2000, 0x200a),
  (0x2028, 0x2029), (0x202f, 0x202f), (0x205f, 0x205f), (0x3000, 0x3000)]

/-- White space. Trimming removes these characters. -/
def isBlank (c : Char) : Bool :=
  blankRanges.has c

/-- White space around a number that is read. The four information separators do not count. -/
def isNumberBlank (c : Char) : Bool :=
  isBlank c && !(0x1c ≤ c.toNat && c.toNat ≤ 0x1f)

def dropBlanksEnd (cs : List Char) : List Char :=
  (cs.reverse.dropWhile isBlank).reverse

def trimEnd (s : String) : String :=
  String.ofList (dropBlanksEnd s.toList)

def trim (s : String) : String :=
  String.ofList (dropBlanksEnd (s.toList.dropWhile isBlank))

/-- Nothing but blanks. -/
def isBlankText (s : String) : Bool :=
  s.toList.all isBlank

end BlockScript.Text
