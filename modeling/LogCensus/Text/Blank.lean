/-!
White space and letter case. Blank characters are those with the Unicode property
`White_Space`; case is folded for ASCII letters only.
-/

namespace LogCensus.Text

/-- The characters with the Unicode property `White_Space`. -/
def isBlank (c : Char) : Bool :=
  let code := c.toNat
  (9 ≤ code && code ≤ 13) || code == 0x20 || code == 0x85 || code == 0xA0 || code == 0x1680
    || (0x2000 ≤ code && code ≤ 0x200A) || code == 0x2028 || code == 0x2029 || code == 0x202F
    || code == 0x205F || code == 0x3000

def trimLeft (text : List Char) : List Char :=
  text.dropWhile isBlank

def trimRight (text : List Char) : List Char :=
  (text.reverse.dropWhile isBlank).reverse

def trim (text : List Char) : List Char :=
  trimRight (trimLeft text)

def allBlank (text : List Char) : Bool :=
  text.all isBlank

def trimmed (text : String) : String :=
  String.ofList (trim text.toList)

def lowered (text : List Char) : List Char :=
  text.map Char.toLower

def sameLetters (one other : List Char) : Bool :=
  lowered one == lowered other

theorem sameLetters_refl (text : List Char) : sameLetters text text = true := by
  simp [sameLetters]

theorem trimLeft_cons_blank (c : Char) (text : List Char) (blank : isBlank c = true) :
    trimLeft (c :: text) = trimLeft text := by
  simp [trimLeft, blank]

theorem trimLeft_cons_solid (c : Char) (text : List Char) (solid : isBlank c = false) :
    trimLeft (c :: text) = c :: text := by
  simp [trimLeft, solid]

end LogCensus.Text
