import Classlet.Assembly
import Classlet.Generation.Decl
/-!
# Code for classes and programs

A class builds its dispatch table on the heap and leaves the table's address in its slot of the outermost
frame. An object `new C(a1, ..., an)` is its arguments followed by the dispatch pointer; its address is that
of the dispatch pointer, so the field at position `i` is at `object - (i + 1)`. Inside a method the access
link is the address of the object, which makes fields one hop away and sibling methods reachable through the
dispatch pointer.
-/

namespace Classlet

/-- The labels of a class's methods, the blocks of the methods, and the numbers that are still free. -/
structure MethodOutput where
  table : DispatchTable
  blocks : List Code
  supply : Supply

/-- Generates the methods that have an offset and puts their labels into the inherited table. -/
def Class.methodCode (memory : Word) (cls : String) (span : Span) :
    List Method → DispatchTable → Supply → Except CodeError MethodOutput
  | [], table, s => .ok ⟨table, [], s⟩
  | d :: ds, table, s =>
    match d.offset with
    | none => methodCode memory cls span ds table s
    | some offset => do
      let (blocks, s') ← d.function.code memory s
      let i ← (Layout.methodIndex offset).mapError .abort
      let table ← (table.place i (.function s.function)).mapError (.dispatch cls span)
      let rest ← methodCode memory cls span ds table s'
      return { rest with blocks := blocks ++ rest.blocks }

/-- The dispatch table that a class starts from. -/
def Class.inheritedTable (cls : String) (tables : List DispatchTable) (c : Class) :
    Except CodeError DispatchTable :=
  match c.superEntry with
  | none => .ok []
  | some entry => do
    let slot ← (Layout.dispatchSlot entry.offset).mapError .abort
    match tables[slot]? with
    | some table => return table
    | none => .error (.missingDispatchTable cls c.span)

/-- Leaves the address of the next heap word and stores the labels there. -/
def DispatchTable.code (table : DispatchTable) : Code :=
  .load .hp :: table.flatMap fun label => .pushLabel label :: Code.storeOnHeap

/-- Code for a class, with the dispatch tables of the classes so far. A class without a name or entry has
none. -/
def Class.code (memory : Word) (c : Class) (tables : List DispatchTable) (s : Supply) :
    Except CodeError (Output × List DispatchTable) :=
  match c.name, c.entry with
  | some name, some entry => do
    let inherited ← c.inheritedTable name.text tables
    let out ← Class.methodCode memory name.text c.span c.methods inherited s
    let slot ← (Layout.dispatchSlot entry.offset).mapError .abort
    let tables ← (DispatchTable.record tables slot out.table).mapError (.dispatch name.text c.span)
    return (⟨out.table.code, out.blocks, out.supply⟩, tables)
  | _, _ => .ok (⟨[], [], s⟩, tables)

/-- Code for classes in order, and all their dispatch tables. -/
def Class.codeAll (memory : Word) :
    List Class → List DispatchTable → Supply → Except CodeError (Output × List DispatchTable)
  | [], tables, s => .ok (⟨[], [], s⟩, tables)
  | c :: cs, tables, s => do
    let (first, tables) ← c.code memory tables s
    let (rest, tables) ← Class.codeAll memory cs tables first.supply
    return (⟨first.code ++ rest.code, first.blocks ++ rest.blocks, rest.supply⟩, tables)

/-- Code for an annotated program. The first word that a program with declarations pushes stands where other
frames have their return address. -/
def Program.generate (memory : Word) : Program → Except CodeError Assembly
  | .letIn classes decls body _ => do
    let (classes, _) ← Class.codeAll memory classes [] ⟨0, 0⟩
    let decls ← Decl.codeAll memory decls classes.supply
    let (value, _) ← body.code memory decls.supply.branch
    return {
      main := [.push (.ofInt 0)] ++ classes.code ++ decls.code ++ value ++ [.halt]
      functions := classes.blocks ++ decls.blocks }
  | .expr body _ => do
    let (value, _) ← body.code memory 0
    return ⟨value ++ [.halt], []⟩

end Classlet
