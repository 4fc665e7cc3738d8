import Classlet.Proofs.Bodies
import Classlet.Proofs.Heights
/-!
# Slots of frames

Resolution hands out the offsets of a frame, and code generation pushes its words. Both go through the
declarations in order and pass over the incomplete ones, whether names are repeated or not, so the word that
a declaration pushes is where its offset says (`Program.frames_agree`).
-/

namespace Classlet

/-! ## Offsets -/

/-- The offset that was taken between two moments, if the counter of the current scope has moved. -/
def Scopes.taken? (before after : Scopes) : Option Int :=
  if after.nextOffset = before.nextOffset then none else some before.nextOffset

/-- What resolution takes for each of several declarations. -/
def Decl.offsets (s : Scopes) : List Decl → List (Option Int)
  | [] => []
  | d :: ds => s.taken? (d.bind s) :: Decl.offsets (d.bind s) ds

/-- What resolution takes for each of several classes. -/
def Class.offsets (env : Env) : List Class → List (Option Int)
  | [] => []
  | c :: cs =>
    match c.resolve env with
    | .ok r => env.scopes.taken? r.env.scopes :: Class.offsets r.env cs
    | .error _ => []

/-- Offsets taken one after the other, downwards from `next`. -/
structure Takes (next : Int) (offsets : List Int) (after : Int) : Prop where
  eq : offsets = (List.range offsets.length).map fun k : Nat => next - k
  after : after = next - offsets.length

namespace Takes
variable {next middle after : Int} {xs ys : List Int}

theorem nil (next : Int) : Takes next [] next := ⟨rfl, by simp⟩

theorem one (next : Int) : Takes next [next] (next - 1) := ⟨by simp, by simp⟩

theorem append (hx : Takes next xs middle) (hy : Takes middle ys after) : Takes next (xs ++ ys) after where
  eq := by
    rw [List.length_append, List.range_add, List.map_append, List.map_map, ← hx.eq]
    refine congrArg (xs ++ ·) (hy.eq.trans (List.map_congr_left fun k _ => ?_))
    rw [hx.after, Function.comp_apply]
    omega
  after := by
    rw [hy.after, hx.after, List.length_append]
    omega

theorem le (h : Takes next xs after) {o : Int} (ho : o ∈ xs) : o ≤ next := by
  rw [h.eq] at ho
  obtain ⟨k, -, rfl⟩ := List.mem_map.1 ho
  omega

theorem nodup (h : Takes next xs after) : xs.Nodup := by
  rw [h.eq]
  refine List.Nodup.map_on (fun k _ k' _ heq => ?_) List.nodup_range
  omega

end Takes

/-! ## Declarations one after the other

Classes and local declarations take offsets in the same way, so the lemmas are about lists of names with
types, where an incomplete declaration has none. -/

def Scopes.declare (s : Scopes) : Option (String × Ty) → Scopes
  | some (x, t) => s.declareLocal x t
  | none => s

def Scopes.declareAll (s : Scopes) (names : List (Option (String × Ty))) : Scopes :=
  names.foldl Scopes.declare s

def Scopes.offsets (s : Scopes) : List (Option (String × Ty)) → List (Option Int)
  | [] => []
  | name :: names => s.taken? (s.declare name) :: (s.declare name).offsets names

namespace Scopes
variable {s : Scopes} {bs : Bindings}

theorem current_bind (s : Scopes) (x : String) (e : Entry) : (s.bind x e).current = s.current.bind x e :=
  s.current_modifyCurrent _

theorem current_takeOffset (s : Scopes) : s.takeOffset.current = s.current.takeOffset :=
  s.current_modifyCurrent _

theorem level_declare (s : Scopes) (name : Option (String × Ty)) : (s.declare name).level = s.level := by
  cases name with
  | none => rfl
  | some p => rw [declare, declareLocal, level_bind, level_takeOffset]

theorem nextOffset_declareLocal (s : Scopes) (x : String) (t : Ty) :
    (s.declareLocal x t).nextOffset = s.nextOffset - 1 := by
  rw [declareLocal, nextOffset_bind, nextOffset_takeOffset]

theorem taken?_declare (s : Scopes) (name : Option (String × Ty)) :
    s.taken? (s.declare name) = name.map fun _ => s.nextOffset := by
  cases name with
  | none => exact if_pos rfl
  | some p => exact if_neg (by rw [declare, nextOffset_declareLocal]; omega)

theorem offsets_append (s : Scopes) (names names' : List (Option (String × Ty))) :
    s.offsets (names ++ names') = s.offsets names ++ (s.declareAll names).offsets names' := by
  induction names generalizing s with
  | nil => rfl
  | cons name names ih => exact congrArg (_ :: ·) (ih (s.declare name))

theorem length_taken (s : Scopes) (names : List (Option (String × Ty))) :
    ((s.offsets names).filterMap id).length = names.countP Option.isSome := by
  induction names generalizing s with
  | nil => rfl
  | cons name names ih =>
    rw [offsets, taken?_declare]
    cases name with
    | none => exact ih _
    | some p =>
      rw [List.countP_cons_of_pos rfl, ← ih]
      rfl

theorem takes_offsets (s : Scopes) (names : List (Option (String × Ty))) :
    Takes s.nextOffset ((s.offsets names).filterMap id) (s.declareAll names).nextOffset := by
  induction names generalizing s with
  | nil => exact .nil _
  | cons name names ih =>
    have hrest := ih (s.declare name)
    rw [offsets, taken?_declare]
    cases name with
    | none => exact hrest
    | some p =>
      rw [declare, nextOffset_declareLocal] at hrest
      exact (Takes.one s.nextOffset).append hrest

theorem binds_declareLocal (h : s.current.Binds s.level bs) (x : String) (t : Ty) :
    (s.declareLocal x t).current.Binds s.level (bs ++ [(x, t, s.nextOffset)]) := by
  have htaken : s.current.takeOffset.Binds s.level bs := h
  rw [declareLocal, current_bind, current_takeOffset]
  exact htaken.bind x t s.nextOffset

theorem binds_enter (s : Scopes) (ps : List Param) :
    (s.enter ps).current.Binds (s.level + 1) (Param.bindings 0 ps) := by
  have hempty : (s.push (.opened .function .empty)).level = s.level + 1 ∧
      (s.push (.opened .function .empty)).current.Binds (s.level + 1) [] := ⟨rfl, fun _ => rfl⟩
  refine (bindParams_binds (Q := fun s' bs => s'.level = s.level + 1 ∧ s'.current.Binds (s.level + 1) bs) ?_
    hempty 0 ps).2
  rintro s' bs x t o ⟨hlevel, hbinds⟩
  rw [level_bind, current_bind, hlevel]
  exact ⟨rfl, hbinds.bind x t o⟩

end Scopes

/-! ## Pieces of code -/

/-- What becomes of one declaration of a frame: its name and type if it has both, the offset taken for it,
the code generated for it in this frame, and the numbers of arguments of the calls in that code. -/
structure Piece where
  name : Option (String × Ty)
  offset : Option Int
  code : Code
  calls : List Nat

/-- One word is pushed if an offset was taken, and no code generated otherwise. -/
def Piece.Agrees (piece : Piece) : Prop :=
  match piece.offset with
  | some _ => piece.code.PushesOne piece.calls
  | none => piece.code = []

def Piece.binding? (piece : Piece) : Option (String × Ty × Int) :=
  match piece.name, piece.offset with
  | some (x, t), some o => some (x, t, o)
  | _, _ => none

def Decl.binding? (d : Decl) : Option (String × Ty) := d.declared?.map fun p => (p.1.text, p.2)

def Decl.arities : Decl → List Nat
  | .var v => v.init.arities
  | .function _ => []

/-- The piece has the code of the declaration. -/
structure Decl.Emits (memory : Word) (d : Decl) (piece : Piece) : Prop where
  name : piece.name = d.binding?
  code : ∃ s out, d.code memory s = .ok out ∧ piece.code = out.code
  calls : piece.calls = d.arities

def Class.binding? (c : Class) : Option (String × Ty) :=
  match c.name, c.entry with
  | some name, some entry => some (name.text, entry.type)
  | _, _ => none

/-- The piece has the code of the class, and the offset in its entry. -/
structure Class.Emits (memory : Word) (c : Class) (piece : Piece) : Prop where
  name : piece.name = c.binding?
  offset : piece.offset = c.entry.map Entry.offset
  code : ∃ tables s out, c.code memory tables s = .ok out ∧ piece.code = out.1.code
  calls : piece.calls = []

theorem Piece.agrees_declare (s : Scopes) {name : Option (String × Ty)} {code : Code} {calls : List Nat}
    (h : if name.isSome then code.PushesOne calls else code = []) :
    (Piece.mk name (s.taken? (s.declare name)) code calls).Agrees := by
  rw [Piece.Agrees, Scopes.taken?_declare]
  cases name with
  | none => exact h
  | some p => exact h

/-- A scope binds what the pieces say. -/
theorem Scopes.binds_declareAll {s : Scopes} {bs : Bindings} (h : s.current.Binds s.level bs)
    {pieces : List Piece} (ho : pieces.map Piece.offset = s.offsets (pieces.map Piece.name)) :
    (s.declareAll (pieces.map Piece.name)).current.Binds s.level
      (bs ++ pieces.filterMap Piece.binding?) := by
  induction pieces generalizing s bs with
  | nil =>
    rw [List.filterMap_nil, List.append_nil]
    exact h
  | cons piece pieces ih =>
    obtain ⟨name, offset, code, calls⟩ := piece
    rw [List.map_cons, List.map_cons, Scopes.offsets, Scopes.taken?_declare, List.cons.injEq] at ho
    obtain ⟨ho, hrest⟩ := ho
    dsimp only at ho hrest
    subst ho
    cases name with
    | none => exact ih h hrest
    | some p =>
      obtain ⟨x, t⟩ := p
      have hfirst : (s.declare (some (x, t))).current.Binds (s.declare (some (x, t))).level
          (bs ++ [(x, t, s.nextOffset)]) := by
        rw [Scopes.level_declare]
        exact Scopes.binds_declareLocal h x t
      have hall := ih hfirst hrest
      rwa [Scopes.level_declare, List.append_assoc] at hall

/-! ## Frames -/

/-- The offsets of a frame: those of all parameters, and those taken for declarations. -/
def frameOffsets (params : List Param) (pieces : List Piece) : List Int :=
  (List.range params.length).map (fun i : Nat => Layout.paramOffset i) ++ pieces.filterMap Piece.offset

/-- How the words that the pieces push fit the offsets of a scope. -/
structure Framed (level : Nat) (params : List Param) (pieces : List Piece) (scope : Scope) : Prop where
  agrees (piece : Piece) : piece ∈ pieces → piece.Agrees
  /-- The offset of the word at position `k`. -/
  taken : pieces.filterMap Piece.offset = (List.range (pieces.filterMap Piece.offset).length).map
    fun k : Nat =>
    Layout.firstLocalOffset - k
  nodup : (frameOffsets params pieces).Nodup
  /-- Neither the access link nor the return address is overwritten. -/
  free : 0 ∉ frameOffsets params pieces ∧ -1 ∉ frameOffsets params pieces
  bound : scope.Binds level (Param.bindings 0 params ++ pieces.filterMap Piece.binding?)

theorem Scopes.framed_declareAll {s : Scopes} {params : List Param}
    (h : s.current.Binds s.level (Param.bindings 0 params)) (hs : s.nextOffset = Layout.firstLocalOffset)
    {pieces : List Piece} (ho : pieces.map Piece.offset = s.offsets (pieces.map Piece.name))
    (hagrees : ∀ piece ∈ pieces, piece.Agrees) :
    Framed s.level params pieces (s.declareAll (pieces.map Piece.name)).current := by
  have htakes := s.takes_offsets (pieces.map Piece.name)
  rw [← ho, List.filterMap_map, hs] at htakes
  -- parameters are above the two reserved words and local declarations below
  have hlocal (o : Int) (hmem : o ∈ pieces.filterMap Piece.offset) : o ≤ -2 := htakes.le hmem
  have hparam (o : Int) (hmem : o ∈ (List.range params.length).map fun i : Nat => Layout.paramOffset i) :
      1 ≤ o := by
    obtain ⟨i, -, rfl⟩ := List.mem_map.1 hmem
    rw [Layout.paramOffset]
    omega
  have hfree (o : Int) (hlow : -2 < o) (hhigh : o < 1) : o ∉ frameOffsets params pieces := by
    intro hmem
    rcases List.mem_append.1 hmem with hmem | hmem
    · have := hparam o hmem
      omega
    · have := hlocal o hmem
      omega
  refine ⟨hagrees, htakes.eq, List.nodup_append.2 ⟨?_, htakes.nodup, fun o hmem o' hmem' heq => ?_⟩,
    ⟨hfree 0 (by decide) (by decide), hfree (-1) (by decide) (by decide)⟩, Scopes.binds_declareAll h ho⟩
  · refine List.Nodup.map_on (fun i _ j _ heq => ?_) List.nodup_range
    simp only [Layout.paramOffset] at heq
    omega
  · have := hparam o hmem
    have := hlocal o' hmem'
    omega

/-! ## Local declarations -/

theorem Decl.bind_eq (s : Scopes) (d : Decl) : d.bind s = s.declare d.binding? := by
  rw [Decl.bind, Decl.binding?]
  cases d.declared? with
  | none => rfl
  | some p => rfl

theorem Decl.bindAll_eq (s : Scopes) (ds : List Decl) :
    Decl.bindAll s ds = s.declareAll (ds.map Decl.binding?) := by
  induction ds generalizing s with
  | nil => rfl
  | cons d ds ih => exact (ih (d.bind s)).trans (by rw [Decl.bind_eq]; rfl)

theorem Decl.offsets_eq (s : Scopes) (ds : List Decl) :
    Decl.offsets s ds = s.offsets (ds.map Decl.binding?) := by
  induction ds generalizing s with
  | nil => rfl
  | cons d ds ih => rw [Decl.offsets, ih, Decl.bind_eq, List.map_cons, Scopes.offsets]

theorem Decl.binding?_annotate (classes : Table VirtualTable) (s : Scopes) (d : Decl) :
    (d.annotate classes s).binding? = d.binding? := by
  rw [Decl.binding?, Decl.declared?_annotate, Decl.binding?]

theorem Decl.isSome_binding? (d : Decl) : d.binding?.isSome = d.declared?.isSome := Option.isSome_map

theorem Code.PushesOne.of_rise {c : Code} (h : c.rise 0 = some 1) (hf : c.Forward []) : c.PushesOne [] :=
  (Code.Grows.of_rise (n := 0) h).pushesOne hf

section Pieces
variable {memory : Word}

theorem Decl.code_pushes {d : Decl} {s : Supply} {out : Output} (h : d.code memory s = .ok out) :
    if d.binding?.isSome then out.code.PushesOne d.arities else out.code = [] := by
  rw [Decl.isSome_binding?]
  cases d with
  | var v =>
    rw [show (Decl.var v).declared? = v.declared? from rfl]
    rcases Decl.code_var_cases h with ⟨hv, rfl⟩ | ⟨p, c, n, hv, hc, rfl⟩
    · rw [hv]
      rfl
    · rw [hv]
      exact Expr.code_pushesOne hc
  | function f =>
    rw [Decl.declared?, Option.isSome_map]
    rcases Decl.code_function_cases h with ⟨hf, rfl⟩ | ⟨p, blocks, s', hf, -, rfl⟩
    · rw [hf]
      rfl
    · rw [hf]
      exact .of_rise rfl (by simp [Code.Forward, Instruction.target?])

/-- The code of declarations consists of one piece for each. -/
theorem Decl.codeAll_pieces {classes : Table VirtualTable} {s : Scopes} {ds : List Decl} {supply : Supply}
    {out : Output} (h : Decl.codeAll memory (Decl.annotateAll classes s ds) supply = .ok out) :
    ∃ pieces, out.code = pieces.flatMap Piece.code ∧ pieces.map Piece.offset = Decl.offsets s ds ∧
      List.Forall₂ (Decl.Emits memory) (Decl.annotateAll classes s ds) pieces ∧
      ∀ piece ∈ pieces, piece.Agrees := by
  induction ds generalizing s supply out with
  | nil =>
    obtain rfl := Except.ok.inj h
    exact ⟨[], rfl, rfl, .nil, List.forall_mem_nil _⟩
  | cons d ds ih =>
    simp only [Decl.annotateAll, Decl.codeAll, bind_eq_ok, pure_eq_ok] at h
    obtain ⟨first, hfirst, rest, hrest, rfl⟩ := h
    obtain ⟨pieces, hcode, hoffsets, hemits, hagrees⟩ := ih hrest
    have hpushes := Decl.code_pushes hfirst
    rw [Decl.binding?_annotate] at hpushes
    refine ⟨⟨d.binding?, s.taken? (s.declare d.binding?), first.code, (d.annotate classes s).arities⟩ ::
      pieces, ?_, ?_,
      .cons ⟨(d.binding?_annotate classes s).symm, ⟨supply, first, hfirst, rfl⟩, rfl⟩ hemits,
      List.forall_mem_cons.2 ⟨Piece.agrees_declare s hpushes, hagrees⟩⟩
    · rw [List.flatMap_cons, hcode]
    · rw [List.map_cons, hoffsets, Decl.offsets, Decl.bind_eq]

/-! ## Classes -/

/-- A class is declared in the outermost scope like a local declaration. -/
theorem Env.scopes_declareClass {env : Env} (hn : env.scopes.nested = []) (name : String) (m : Members) :
    (env.declareClass name m).scopes = env.scopes.declareLocal name m.type := by
  obtain ⟨⟨nested, g⟩, tables⟩ := env
  obtain rfl : nested = [] := hn
  rfl

theorem Scopes.nested_declareLocal {s : Scopes} (hn : s.nested = []) (x : String) (t : Ty) :
    (s.declareLocal x t).nested = [] := by
  obtain ⟨nested, g⟩ := s
  obtain rfl : nested = [] := hn
  rfl

/-- What resolving a class does to the outermost scope. -/
structure Class.Slotted (env : Env) (r : ResolvedClass) : Prop where
  nested : r.env.scopes.nested = []
  scopes : r.env.scopes = env.scopes.declare r.tree.binding?
  offset : r.tree.entry.map Entry.offset = env.scopes.taken? r.env.scopes

theorem Class.resolve_slotted {env : Env} (hn : env.scopes.nested = []) {c : Class} (hb : Bare c.notes)
    {r : ResolvedClass} (hr : c.resolve env = .ok r) : Class.Slotted env r := by
  obtain ⟨⟨hentry, -⟩, -⟩ := Class.bare_iff.1 hb
  unfold Class.resolve at hr
  cases hname : c.name with
  | none =>
    rw [hname] at hr
    obtain rfl := Except.ok.inj hr
    have hbinding : c.binding? = none := by rw [Class.binding?, hname]
    have hscopes : env.scopes = env.scopes.declare c.binding? := by rw [hbinding, Scopes.declare]
    refine ⟨hn, hscopes, ?_⟩
    rw [hentry]
    exact (if_pos rfl).symm
  | some name =>
    simp only [hname, bind_eq_ok, pure_eq_ok] at hr
    obtain ⟨p, -, rfl⟩ := hr
    have htree : (c.resolvePlaced env name p).tree.entry = some (env.classEntry p.members) := by
      rw [Class.resolvePlaced, hentry, Option.none_or]
    have hbinding : (c.resolvePlaced env name p).tree.binding? = some (name.text, p.members.type) := by
      rw [Class.binding?, htree, show (c.resolvePlaced env name p).tree.name = some name from hname]
      rfl
    have hscopes : (c.resolvePlaced env name p).env.scopes =
        env.scopes.declareLocal name.text p.members.type :=
      Env.scopes_declareClass hn name.text p.members
    have htaken := env.scopes.taken?_declare (some (name.text, p.members.type))
    refine ⟨hscopes ▸ Scopes.nested_declareLocal hn _ _, by rw [hbinding, hscopes, Scopes.declare], ?_⟩
    rw [htree, hscopes]
    exact htaken.symm

theorem DispatchTable.rise_code (t : DispatchTable) : t.code.rise 0 = some 1 := by
  have hstores (k : Nat) : Code.rise (t.flatMap fun label => .pushLabel label :: Code.storeOnHeap) k =
      some k := by
    induction t generalizing k with
    | nil => rfl
    | cons l t ih =>
      rw [List.flatMap_cons, Code.rise_append, Code.rise, if_pos ⟨rfl, Nat.zero_le k⟩]
      simp only [Instruction.pops, Instruction.pushes, Nat.sub_zero, Code.rise_storeOnHeap,
        Option.bind_some, ih]
  rw [DispatchTable.code, Code.rise, if_pos ⟨rfl, Nat.zero_le 0⟩]
  exact hstores 1

theorem Class.code_pushes {c : Class} {tables : List DispatchTable} {s : Supply}
    {out : Output × List DispatchTable} (h : c.code memory tables s = .ok out)
    (ht : ∀ t ∈ tables, t.Below s.function) :
    if c.binding?.isSome then out.1.code.PushesOne [] else out.1.code = [] := by
  have hforward := (c.code_labelled memory h ht).1.forward
  rw [Class.binding?]
  rcases Class.code_cases h with
    ⟨hnone, rfl⟩ | ⟨name, entry, inherited, methods, slot, recorded, hname, hentry, -, -, -, -, rfl⟩
  · rcases hnone with hnone | hnone
    · rw [hnone]
      rfl
    · rw [hnone]
      cases c.name <;> rfl
  · rw [hname, hentry]
    exact .of_rise (DispatchTable.rise_code _) hforward

/-- The code of classes consists of one piece for each. -/
theorem Class.codeAll_pieces {env : Env} (hn : env.scopes.nested = []) {cs : List Class}
    (hb : Bare (cs.flatMap Class.notes)) {r : ResolvedClasses} (hr : Class.resolveAll env cs = .ok r)
    {tables : List DispatchTable} {s : Supply} (ht : ∀ t ∈ tables, t.Below s.function)
    {out : Output × List DispatchTable} (h : Class.codeAll memory r.trees tables s = .ok out) :
    ∃ pieces, out.1.code = pieces.flatMap Piece.code ∧ pieces.map Piece.offset = Class.offsets env cs ∧
      List.Forall₂ (Class.Emits memory) r.trees pieces ∧ (∀ piece ∈ pieces, piece.Agrees) ∧
      pieces.map Piece.offset = env.scopes.offsets (pieces.map Piece.name) ∧
      r.env.scopes = env.scopes.declareAll (pieces.map Piece.name) := by
  induction cs generalizing env r tables s out with
  | nil =>
    obtain rfl := Except.ok.inj hr
    obtain rfl := Except.ok.inj h
    exact ⟨[], rfl, rfl, .nil, List.forall_mem_nil _, rfl, rfl⟩
  | cons c cs ih =>
    rw [List.flatMap_cons, bare_append] at hb
    simp only [Class.resolveAll, bind_eq_ok, pure_eq_ok] at hr
    obtain ⟨first, hfirst, rest, hrest, rfl⟩ := hr
    simp only [Class.codeAll, bind_eq_ok, pure_eq_ok, Prod.exists] at h
    obtain ⟨out₁, tables₁, hout₁, out₂, tables₂, hout₂, rfl⟩ := h
    have hslot := Class.resolve_slotted hn hb.1 hfirst
    obtain ⟨pieces, hcode, hoffsets, hemits, hagrees, hdeclared, hscopes⟩ :=
      ih hslot.nested hb.2 hrest (first.tree.code_labelled memory hout₁ ht).2 hout₂
    have hpiece := Piece.agrees_declare env.scopes (Class.code_pushes hout₁ ht)
    rw [← hslot.scopes] at hpiece
    refine ⟨⟨first.tree.binding?, env.scopes.taken? first.env.scopes, out₁.code, []⟩ :: pieces, ?_, ?_,
      .cons ⟨rfl, hslot.offset.symm, ⟨tables, s, (out₁, tables₁), hout₁, rfl⟩, rfl⟩ hemits,
      List.forall_mem_cons.2 ⟨hpiece, hagrees⟩, ?_, ?_⟩
    · rw [List.flatMap_cons, hcode]
    · rw [List.map_cons, hoffsets, Class.offsets, hfirst]
    · rw [List.map_cons, hdeclared, List.map_cons, Scopes.offsets, ← hslot.scopes]
    · rw [hscopes, List.map_cons, Scopes.declareAll, Scopes.declareAll, List.foldl_cons, ← hslot.scopes]

end Pieces

/-! ## The frames of a program -/

theorem Decl.names_of_emits {memory : Word} {ds : List Decl} {pieces : List Piece}
    (h : List.Forall₂ (Decl.Emits memory) ds pieces) : pieces.map Piece.name = ds.map Decl.binding? := by
  induction h with
  | nil => rfl
  | cons hd _ ih => rw [List.map_cons, List.map_cons, hd.name, ih]

theorem Decl.bindings_annotateAll (classes : Table VirtualTable) (s : Scopes) (ds : List Decl) :
    (Decl.annotateAll classes s ds).map Decl.binding? = ds.map Decl.binding? := by
  induction ds generalizing s with
  | nil => rfl
  | cons d ds ih => rw [Decl.annotateAll, List.map_cons, List.map_cons, ih, Decl.binding?_annotate]

theorem Decl.slots_eq (ds : List Decl) : Decl.slots ds = (ds.map Decl.binding?).countP Option.isSome := by
  rw [Decl.slots, List.countP_map]
  exact congrArg (ds.countP ·) (funext fun d => d.isSome_binding?.symm)

/-- The words that the declarations of a body push are those that the body's scope has offsets for, and as
many are popped at the end. -/
def Visit.FrameAgrees (memory : Word) (v : Visit) (block : Code) : Prop :=
  ∃ (label : Label) (pieces : List Piece) (value : Code),
    block = Code.enterFrame label ++ pieces.flatMap Piece.code ++ value ++
      Code.leaveFrame (pieces.filterMap Piece.offset).length v.function.params.length ∧
    pieces.map Piece.offset = Decl.offsets v.inner v.function.locals ∧
    List.Forall₂ (Decl.Emits memory) v.annotated.locals pieces ∧
    (∃ n n', v.annotated.body.code memory n = .ok (value, n')) ∧
    Framed v.level v.function.params pieces (Decl.bindAll v.inner v.function.locals).current

/-- What stands before the declarations. -/
def Program.preamble : Program → Code
  | .letIn .. => [.push (.ofInt 0)]
  | .expr .. => []

/-- The words that classes and declarations push are those that the outermost scope has offsets for. -/
def Program.RootAgrees (memory : Word) (p tree : Program) (main : Code) : Prop :=
  ∃ (resolved : ResolvedClasses) (classes decls : List Piece) (value : Code),
    Class.resolveAll .initial p.classes = .ok resolved ∧
    main = p.preamble ++ (classes ++ decls).flatMap Piece.code ++ value ++ [.halt] ∧
    classes.map Piece.offset = Class.offsets .initial p.classes ∧
    List.Forall₂ (Class.Emits memory) tree.classes classes ∧
    decls.map Piece.offset = Decl.offsets resolved.env.scopes p.decls ∧
    List.Forall₂ (Decl.Emits memory) tree.decls decls ∧
    (∃ n n', tree.body.code memory n = .ok (value, n')) ∧
    Framed 0 [] (classes ++ decls) (Decl.bindAll resolved.env.scopes p.decls).current

theorem Visit.locals_annotated (v : Visit) :
    v.annotated.locals = Decl.annotateAll v.classes v.inner v.function.locals := by
  obtain ⟨classes, s, ⟨name, params, ret, locals, body, span⟩⟩ := v
  rfl

theorem Visit.params_annotated (v : Visit) : v.annotated.params = v.function.params := by
  obtain ⟨classes, s, ⟨name, params, ret, locals, body, span⟩⟩ := v
  rfl

theorem Visit.Generates.frameAgrees {memory : Word} {v : Visit} {block : Code}
    (h : v.Generates memory block) :
    v.FrameAgrees memory block := by
  obtain ⟨s, decls, value, n, hdecls, hvalue, rfl⟩ := h
  rw [v.locals_annotated] at hdecls
  obtain ⟨pieces, hcode, hoffsets, hemits, hagrees⟩ := Decl.codeAll_pieces hdecls
  have hnames : pieces.map Piece.name = v.function.locals.map Decl.binding? := by
    rw [Decl.names_of_emits hemits, Decl.bindings_annotateAll]
  have hdeclared : pieces.map Piece.offset = v.inner.offsets (pieces.map Piece.name) := by
    rw [hoffsets, hnames, Decl.offsets_eq]
  have hlevel : v.inner.level = v.level := v.scopes.level_enter v.function.params
  have hparams : v.inner.current.Binds v.inner.level (Param.bindings 0 v.function.params) := by
    rw [hlevel]
    exact v.scopes.binds_enter v.function.params
  have hframed := Scopes.framed_declareAll hparams
    (v.scopes.nextOffset_enter v.function.params) hdeclared hagrees
  rw [hnames, ← Decl.bindAll_eq, hlevel] at hframed
  -- the words that are popped are counted on the annotated tree, by which declarations are complete
  have hslots : Decl.slots v.annotated.locals = (pieces.filterMap Piece.offset).length := by
    have hlength := v.inner.length_taken (pieces.map Piece.name)
    rw [← hdeclared, List.filterMap_map, hnames] at hlength
    rw [v.locals_annotated, Decl.slots_eq, Decl.bindings_annotateAll, ← hlength]
    rfl
  refine ⟨.function s.function, pieces, value, ?_, hoffsets, v.locals_annotated ▸ hemits,
    ⟨_, n, hvalue⟩, hframed⟩
  rw [Function.block, hcode, hslots, v.params_annotated]

/-- The resolver's offsets and the generator's words agree in the outermost frame. -/
theorem Program.rootAgrees {p : Program} {r : Resolved} {a : Assembly} {memory : Word} (hb : Bare p.notes)
    (hr : p.resolve = .ok r) (ha : r.tree.generate memory = .ok a) : p.RootAgrees memory r.tree a.main := by
  have hempty : Scopes.initial.current.Binds Scopes.initial.level (Param.bindings 0 []) := fun _ => rfl
  cases p with
  | letIn classes decls body span =>
    simp only [Program.notes, Program.classes, bare_append] at hb
    simp only [Program.resolve, bind_eq_ok, pure_eq_ok] at hr
    obtain ⟨resolved, hresolved, rfl⟩ := hr
    simp only [Program.generate, bind_eq_ok, pure_eq_ok, Prod.exists] at ha
    obtain ⟨out, tables, hout, outDecls, hdecls, value, n, hvalue, rfl⟩ := ha
    obtain ⟨pieces, hcode, hoffsets, hemits, hagrees, hdeclared, hscopes⟩ :=
      Class.codeAll_pieces rfl hb.1.1 hresolved (List.forall_mem_nil _) hout
    obtain ⟨locals, hcode', hoffsets', hemits', hagrees'⟩ := Decl.codeAll_pieces hdecls
    have hnames : locals.map Piece.name = decls.map Decl.binding? := by
      rw [Decl.names_of_emits hemits', Decl.bindings_annotateAll]
    -- declarations go on counting after the classes
    have hall : (pieces ++ locals).map Piece.offset =
        Scopes.initial.offsets ((pieces ++ locals).map Piece.name) := by
      rw [List.map_append, List.map_append, Scopes.offsets_append, hoffsets', hdeclared, hnames,
        Decl.offsets_eq, hscopes]
      rfl
    have hframed := Scopes.framed_declareAll hempty rfl hall (List.forall_mem_append.2 ⟨hagrees, hagrees'⟩)
    have hbound : Scopes.initial.declareAll ((pieces ++ locals).map Piece.name) =
        Decl.bindAll resolved.env.scopes decls := by
      rw [List.map_append, hnames, Decl.bindAll_eq, hscopes, Scopes.declareAll, List.foldl_append]
      rfl
    rw [hbound] at hframed
    refine ⟨resolved, pieces, locals, value, hresolved, ?_, hoffsets, hemits, hoffsets', hemits',
      ⟨_, n, hvalue⟩, hframed⟩
    rw [List.flatMap_append, ← hcode, ← hcode', ← List.append_assoc]
    rfl
  | expr body span =>
    obtain rfl := Except.ok.inj hr
    simp only [Program.generate, bind_eq_ok, pure_eq_ok, Prod.exists] at ha
    obtain ⟨value, n, hvalue, rfl⟩ := ha
    have hframed : Framed 0 [] [] Scopes.initial.current :=
      Scopes.framed_declareAll hempty rfl rfl (List.forall_mem_nil _)
    exact ⟨⟨[], .initial, []⟩, [], [], value, rfl, rfl, rfl, .nil, rfl, .nil, ⟨0, n, hvalue⟩, hframed⟩

/-- The offsets taken in a frame and the words pushed there agree, for every frame of a program. -/
theorem Program.frames_agree {p : Program} {r : Resolved} {a : Assembly} {memory : Word} (hb : Bare p.notes)
    (hr : p.resolve = .ok r) (ha : r.tree.generate memory = .ok a) :
    p.RootAgrees memory r.tree a.main ∧ List.Forall₂ (Visit.FrameAgrees memory) p.visits a.functions := by
  refine ⟨Program.rootAgrees hb hr ha, ?_⟩
  obtain ⟨methods, functions, hblocks, hmethods, hfunctions⟩ := Program.generate_visits hr ha
  rw [hblocks]
  exact (List.rel_append hmethods hfunctions).imp fun v block h => h.frameAgrees

/-- Repeated and incomplete declarations, outermost and in a method. -/
def untidy : Program :=
  .letIn
    [⟨some (.plain "A"), none, [],
      [⟨⟨some (.plain "m"), [⟨some (.plain "x"), some .int, .synthetic⟩,
        ⟨some (.plain "x"), some .int, .synthetic⟩], some .int,
        [.var ⟨some (.plain "y"), some .int, .number 1, .synthetic⟩,
          .var ⟨none, some .int, .number 2, .synthetic⟩,
          .function (.plain "f" [] .int (.variable "x")),
          .var ⟨some (.plain "y"), some .int, .apply "f" [], .synthetic⟩],
        .variable "y", .synthetic⟩, none⟩], .synthetic, none, none⟩,
      ⟨none, none, [], [], .synthetic, none, none⟩,
        ⟨some (.plain "A"), none, [], [], .synthetic, none, none⟩]
    [.var ⟨some (.plain "v"), some .int, .number 3, .synthetic⟩,
      .var ⟨some (.plain "v"), none, .number 4, .synthetic⟩,
      .function (.plain "v" [("n", .int)] .int (.variable "n"))]
    (.variable "v") .synthetic

theorem untidy_frames_agree :
    Bare untidy.notes ∧ ∃ r a, untidy.resolve = .ok r ∧ r.tree.generate (.ofInt 100) = .ok a ∧
      a.functions.length = 3 ∧ Class.offsets .initial untidy.classes = [some (-2), none, some (-3)] ∧
      untidy.visits.map (fun v => Decl.offsets v.inner v.function.locals) =
        [[], [some (-2), none, some (-3), some (-4)], []] ∧
      untidy.RootAgrees (.ofInt 100) r.tree a.main ∧
      List.Forall₂ (Visit.FrameAgrees (.ofInt 100)) untidy.visits a.functions := by
  obtain ⟨r, hr, hgenerates⟩ : ∃ r, untidy.resolve = .ok r ∧
      ((r.tree.generate (.ofInt 100)).toOption.any fun a => a.functions.length = 3) = true :=
      exists_ok (by decide +kernel)
  obtain ⟨a, ha, hlength⟩ := exists_ok hgenerates
  exact ⟨by decide, r, a, hr, ha, hlength, by decide +kernel, by decide +kernel,
    Program.frames_agree (by decide) hr ha⟩

end Classlet
