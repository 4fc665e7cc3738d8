import Classlet.Generation.Expr
/-!
# Code for declarations

A complete declaration pushes one word: the value of a variable or the entry address of a function. The code
of each function is a block of its own, with the blocks of the functions inside it before it.
-/

namespace Classlet

/-- The next free branch number and function number. -/
structure Supply where
  branch : Nat
  function : Nat
deriving DecidableEq

/-- Code, the blocks of the functions in it, and the numbers that are still free. -/
structure Output where
  code : Code
  blocks : List Code
  supply : Supply

/-- The number of words that declarations push, one for each that is complete. -/
def Decl.slots (ds : List Decl) : Nat := ds.countP (·.declared?.isSome)

mutual
def Decl.code (memory : Word) : Decl → Supply → Except CodeError Output
  | .var v, s =>
    if v.declared?.isSome then do
      let (code, branch) ← v.init.code memory s.branch
      return ⟨code, [], { s with branch := branch }⟩
    else .ok ⟨[], [], s⟩
  | .function f, s =>
    if f.declared?.isSome then do
      let (blocks, s') ← f.code memory s
      return ⟨[.pushLabel (.function s.function)], blocks, s'⟩
    else .ok ⟨[], [], s⟩

/-- The blocks of a function, which takes the next function number. -/
def Function.code (memory : Word) : Function → Supply → Except CodeError (List Code × Supply)
  | ⟨_, params, _, locals, body, _⟩, s => do
    let decls ← Decl.codeAll memory locals { s with function := s.function + 1 }
    let (value, branch) ← body.code memory decls.supply.branch
    let block := Code.enterFrame (.function s.function) ++ decls.code ++ value ++
      Code.leaveFrame (Decl.slots locals) params.length
    return (decls.blocks ++ [block], { decls.supply with branch := branch })

def Decl.codeAll (memory : Word) : List Decl → Supply → Except CodeError Output
  | [], s => .ok ⟨[], [], s⟩
  | d :: ds, s => do
    let first ← d.code memory s
    let rest ← Decl.codeAll memory ds first.supply
    return ⟨first.code ++ rest.code, first.blocks ++ rest.blocks, rest.supply⟩
end

end Classlet
