/-!
# Blanks

The characters with the Unicode property White_Space, and cutting them off both ends of a text.
-/

namespace ShellVM.Text

/-- The Unicode property White_Space. -/
def isBlank (c : Char) : Bool :=
  let n := c.toNat
  (9 ≤ n && n ≤ 13) || n == 0x20 || n == 0x85 || n == 0xa0 || n == 0x1680 ||
    (0x2000 ≤ n && n ≤ 0x200a) || n == 0x2028 || n == 0x2029 || n == 0x202f || n == 0x205f ||
    n == 0x3000

/-- The characters of `cs` without the blanks at either end. -/
def trimChars (cs : List Char) : List Char :=
  ((cs.dropWhile isBlank).reverse.dropWhile isBlank).reverse

/-- The text without the blanks at either end. -/
def trim (s : String) : String := String.ofList (trimChars s.toList)

end ShellVM.Text
