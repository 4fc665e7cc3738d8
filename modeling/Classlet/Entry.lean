import Classlet.Ty
/-!
# What a name stands for
-/

namespace Classlet

/-- What a declaration gives its name: the nesting level of its scope, its type and its offset in the frame,
the object or the dispatch table. -/
structure Entry where
  level : Nat
  type : Ty
  offset : Int
deriving DecidableEq

/-- The entry a use refers to and the nesting level of the use. -/
structure Resolution where
  entry : Entry
  level : Nat
deriving DecidableEq

/-- The number of access links between the frame of the use and the frame of the declaration. -/
def Resolution.hops (r : Resolution) : Nat := r.level - r.entry.level

end Classlet
