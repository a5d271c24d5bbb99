/-! Texts in a row. -/

namespace DialectIR.Text

/-- The texts one after the other, with a separator between neighbours. -/
def joinWith (separator : String) : List String → String
  | [] => ""
  | [text] => text
  | text :: rest => text ++ separator ++ joinWith separator rest

/-- The text `count` times over. -/
def repeated (text : String) : Nat → String
  | 0 => ""
  | count + 1 => text ++ repeated text count

/-- The white space in front of a line at the given depth: two spaces for each level. -/
def indentation (depth : Int) : String := repeated "  " depth.toNat

end DialectIR.Text
