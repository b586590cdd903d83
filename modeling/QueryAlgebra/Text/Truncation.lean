/-!
# Cutting text to a width
-/

namespace QueryAlgebra

/-- The text itself if it has at most `width` characters; otherwise its beginning and three dots,
which count towards the width where it is at least three. -/
def truncate (text : String) (width : Nat) : String :=
  if text.toList.length ≤ width then text
  else String.ofList (text.toList.take (width - 3)) ++ "..."

end QueryAlgebra
