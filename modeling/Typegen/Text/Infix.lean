/-!
# Texts inside texts
-/

namespace Typegen.Text

/-- Whether some characters occur in a row inside others. -/
def occursIn (pattern : List Char) : List Char → Bool
  | [] => pattern.isEmpty
  | c :: cs => pattern.isPrefixOf (c :: cs) || occursIn pattern cs

end Typegen.Text
