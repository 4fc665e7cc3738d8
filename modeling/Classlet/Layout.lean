import Classlet.Abort
/-!
# Storage layout

Every declaration is addressed by a signed offset, and the sign depends on its role.

| role              | first offset | direction  |
|-------------------|--------------|------------|
| local declaration | `-2`         | decreasing |
| parameter         | `1`          | increasing |
| field             | `-1`         | decreasing |
| method            | `0`          | increasing |

Offset `0` of a frame holds the access link and offset `-1` the return address, so locals start at `-2`.
Classes come first in the outermost frame: the class at offset `-2` owns dispatch table `0`, the class at
`-3` table `1`, and so on.
-/

namespace Classlet.Layout

def firstLocalOffset : Int := -2

/-- The word that stands for `null`, never a heap address. -/
def nullAddress : Int := -1

/-- The offset of the field at position `n`. -/
def fieldOffset (n : Int) : Int := -1 - n

/-- The offset of the method at position `n`. -/
def methodOffset (n : Int) : Int := n

/-- The offset of the parameter at position `n`. -/
def paramOffset (n : Int) : Int := 1 + n

/-- The position of the field at `offset`. -/
def fieldIndex (offset : Int) : Except Abort Nat :=
  if offset ≤ -1 then .ok (-1 - offset).toNat else .error (.notFieldOffset offset)

/-- The position of the method at `offset`. -/
def methodIndex (offset : Int) : Except Abort Nat :=
  if 0 ≤ offset then .ok offset.toNat else .error (.notMethodOffset offset)

/-- The dispatch table of the class at `offset` of the outermost frame. -/
def dispatchSlot (offset : Int) : Except Abort Nat :=
  if offset ≤ firstLocalOffset then .ok (firstLocalOffset - offset).toNat else .error (.notClassOffset offset)

/-! ## Positions of 64 bits -/

/-- The low 32 bits of a position, read as a signed number. -/
def narrow (n : Nat) : Int := (n : Int).bmod 4294967296

/-- The offset of the parameter at a narrowed position, which has to fit in 32 bits as well. -/
def paramOffset? (n : Nat) : Except Abort Int :=
  if paramOffset (narrow n) < 2147483648 then .ok (paramOffset (narrow n)) else .error (.overflow .add)

end Classlet.Layout
