import CraftScript.Text.Basic

/-! The blank characters that separate words, which are those with the Unicode property
`White_Space`: the ASCII controls U+0009 to U+000D, space, and the wider spaces. The separators
U+001C to U+001F, the zero-width space and the byte order mark are no blanks. -/
namespace CraftScript.Text

def isBlank (c : Char) : Bool :=
  let n := c.toNat
  (0x09 ≤ n && n ≤ 0x0D) || n == 0x20 || n == 0x85 || n == 0xA0 || n == 0x1680 ||
    (0x2000 ≤ n && n ≤ 0x200A) || n == 0x2028 || n == 0x2029 || n == 0x202F || n == 0x205F ||
    n == 0x3000

def dropBlanks (t : Text) : Text :=
  t.dropWhile isBlank

def trim (t : Text) : Text :=
  trimWhile isBlank t

def trimEnd (t : Text) : Text :=
  dropEndWhile isBlank t

def words (t : Text) : List Text :=
  (splitBy isBlank t).filter (· ≠ [])

def listItems (separates : Char → Bool) (t : Text) : List Text :=
  ((splitBy separates t).map trim).filter (· ≠ [])

end CraftScript.Text
