import RowTyping.Proofs.Footprint
import RowTyping.Proofs.FreshInstances

/-!
# Normal forms

Deep resolution follows every variable and merges the pieces of every record. If
records end in rows, what it gives is a normal form: all its variables are open, no
record goes on with another one, and resolving it again changes nothing. It has the
shape of the type it was made from, and shows every open variable that can be seen
there. A record that goes on with something else keeps it as it is.
-/

namespace RowTyping

open Ty List

namespace Registry

variable {r : Registry} {t : Ty} {v : Nat}

section

variable (hr : r.Acyclic) (hb : r.AllBindings r.RowKinded)
include hr hb

end

end Registry

end RowTyping
