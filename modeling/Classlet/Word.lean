import Classlet.Abort
/-!
# Machine words

A word is a signed 64-bit integer. Arithmetic on words is exact: a result outside the range is an
overflow and never wraps.
-/

namespace Classlet

/-- A signed 64-bit integer, from `-2 ^ 63` up to but not including `2 ^ 63`. -/
@[ext]
structure Word where
  val : Int
  lower : -9223372036854775808 ≤ val
  upper : val < 9223372036854775808
deriving DecidableEq

namespace Word

/-- The low 64 bits of `n`, read as a signed number. -/
def ofInt (n : Int) : Word where
  val := n.bmod 18446744073709551616
  lower := by have := @Int.le_bmod n 18446744073709551616 (by decide); omega
  upper := by have := @Int.bmod_lt n 18446744073709551616 (by decide); omega

/-- `1` for true and `0` for false. -/
def ofBool (b : Bool) : Word := ofInt (if b then 1 else 0)

/-- The word with the value `n`, if `n` is in range. -/
def ofInt? (n : Int) : Option Word :=
  if h : -9223372036854775808 ≤ n ∧ n < 9223372036854775808 then some ⟨n, h.1, h.2⟩ else none

/-- `n` as the result of `op`, which overflows if `n` is not in range. -/
def checked (op : Arith) (n : Int) : Except Abort Word :=
  match ofInt? n with
  | some w => .ok w
  | none => .error (.overflow op)

def text (w : Word) : String := toString w.val

theorem val_ofInt {n : Int} (lower : -9223372036854775808 ≤ n) (upper : n < 9223372036854775808) :
    (ofInt n).val = n :=
  Int.bmod_eq_of_le (by omega) (by omega)

@[simp] theorem ofInt_val (w : Word) : ofInt w.val = w :=
  Word.ext (val_ofInt w.lower w.upper)

end Word

/-- `a op b`, exactly. -/
def Arith.apply (op : Arith) (a b : Word) : Except Abort Word := Word.checked op (op.eval a.val b.val)

end Classlet
