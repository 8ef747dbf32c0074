/-! White space in the sense of Unicode. -/

namespace DemandLex.Text

/-- The characters with the property White_Space. -/
def isBlankChar (c : Char) : Bool :=
  let n := c.toNat
  (0x9 ≤ n && n ≤ 0xD) || n == 0x20 || n == 0x85 || n == 0xA0 || n == 0x1680 ||
    (0x2000 ≤ n && n ≤ 0x200A) || n == 0x2028 || n == 0x2029 || n == 0x202F || n == 0x205F ||
    n == 0x3000

def trimEnd (text : List Char) : String :=
  String.ofList (text.reverse.dropWhile isBlankChar).reverse

def isBlank (text : String) : Bool := text.toList.all isBlankChar

end DemandLex.Text
