/-
  Pascaline.Table — the values of the variables.

  One table serves a whole program. A name enters it with the first assignment and its
  value is replaced by later ones; the entries come in the order of their names.
-/

import Std.Data.ExtTreeMap

namespace Pascaline

abbrev Table := Std.ExtTreeMap String Float

end Pascaline
