import Classlet.Proofs.Placement
import Classlet.Proofs.Shapes
import Mathlib.Data.List.Flatten
/-!
# Names are scoped lexically

What a name refers to is said here without scopes that change: `Program.uses` lists the uses of names
together with what the scopes around each of them bind, as read off the declarations, and `Sees` looks a
name up in them, innermost scope first. Resolution finds the same (`Program.resolve_sees`), whatever is
wrong with the program.
-/

namespace Classlet

/-! ## Visible declarations -/

/-- In the given scopes, innermost first, `x` refers to a declaration with the type `t` and the offset `o`,
whose scope has `depth` scopes around it. -/
inductive Sees : (scopes : List Bindings) → (x : String) → (depth : Nat) → (t : Ty) → (o : Int) → Prop
  | here {earlier later : Bindings} {outer : List Bindings} {x : String} {t : Ty} {o : Int} :
    x ∉ earlier.map Prod.fst → Sees ((earlier ++ (x, t, o) :: later) :: outer) x outer.length t o
  | outer {bs : Bindings} {outer : List Bindings} {x : String} {depth : Nat} {t : Ty} {o : Int} :
    x ∉ bs.map Prod.fst → Sees outer x depth t o → Sees (bs :: outer) x depth t o

/-- A use of a name and what the scopes around it bind. -/
structure Use where
  scopes : List Bindings
  name : String
  target : Option Resolution

/-- A use without what it refers to. -/
def Use.site (u : Use) : List Bindings × String := (u.scopes, u.name)

/-- The use of a name at a node: an identifier, the name of a called function, or the object of a method
call. -/
def Note.use? (scopes : List Bindings) : Note → Option Use
  | .ident name target | .call name target | .methodCall name target _ _ => some ⟨scopes, name, target⟩
  | _ => none

def Expr.uses (scopes : List Bindings) (e : Expr) : List Use := e.notes.filterMap (Note.use? scopes)

/-- What parameters bind, from position `i` on. -/
def Param.bindings (i : Nat) (ps : List Param) : Bindings :=
  (ps.zipIdx i).filterMap fun p =>
    match p.1.name, p.1.type with
    | some name, some type => some (name.text, type, Layout.paramOffset p.2)
    | _, _ => none

/-- A scope with local declarations: what it binds before them, how many offsets are taken, and the scopes
around it. -/
structure Block where
  first : Bindings
  taken : Nat
  outer : List Bindings

/-- The scopes after complete declarations with the given names and types. -/
def Block.after (b : Block) (declared : List (Name × Ty)) : List Bindings :=
  (b.first ++ (declared.zipIdx b.taken).map fun p =>
    (p.1.1.text, p.1.2, Layout.firstLocalOffset - p.2)) :: b.outer

mutual
/-- The uses in a declaration of the block `b` after complete declarations. A function sees itself, and an
incomplete declaration is passed over. -/
def Decl.uses (b : Block) (declared : List (Name × Ty)) : Decl → List Use
  | .var v =>
    match v.declared? with
    | some _ => v.init.uses (b.after declared)
    | none => []
  | .function f =>
    match f.declared? with
    | some (name, signature) => f.uses (b.after (declared ++ [(name, .arrow signature)]))
    | none => []

/-- The uses in a function, where `outer` are the scopes around its body. -/
def Function.uses (outer : List Bindings) : Function → List Use
  | ⟨_, params, _, locals, body, _⟩ =>
    Decl.listUses ⟨Param.bindings 0 params, 0, outer⟩ [] locals ++
      body.uses (Block.after ⟨Param.bindings 0 params, 0, outer⟩ (locals.filterMap Decl.declared?))

def Decl.listUses (b : Block) (declared : List (Name × Ty)) : List Decl → List Use
  | [] => []
  | d :: ds => d.uses b declared ++ Decl.listUses b (declared ++ d.declared?.toList) ds
end

/-- The uses in the methods of a class that count, which see its members and, around them, the classes
declared so far. -/
def Class.uses (earlier : List (String × Shape)) (c : Class) : List Use :=
  match c.name with
  | some _ =>
    (c.acceptedMethods (c.inheritedShape earlier)).flatMap
      (·.function.uses [(c.shape earlier).bindings, classBindings (c.declareShape earlier)])
  | none => []

def Class.listUses (earlier : List (String × Shape)) : List Class → List Use
  | [] => []
  | c :: cs => c.uses earlier ++ Class.listUses (c.declareShape earlier) cs

/-- The outermost scope of a program, with its classes. -/
def Program.block (p : Program) : Block :=
  ⟨classBindings (p.classes.foldl Class.declareShape []),
    (p.classes.foldl Class.declareShape []).length, []⟩

/-- The uses of names in the parts of a program that are looked at. -/
def Program.uses (p : Program) : List Use :=
  Class.listUses [] p.classes ++ Decl.listUses p.block [] p.decls ++
    p.body.uses (p.block.after (p.decls.filterMap Decl.declared?))

/-! ## Looking names up -/

/-- The entry of the innermost declaration of a name. -/
def visible? : List Bindings → String → Option Entry
  | [], _ => none
  | bs :: outer, x => (bs.bound? outer.length x).or (visible? outer x)

theorem visible?_eq_some_iff {scopes : List Bindings} {x : String} {depth : Nat} {t : Ty} {o : Int} :
    visible? scopes x = some ⟨depth, t, o⟩ ↔ Sees scopes x depth t o := by
  constructor
  · intro h
    induction scopes with
    | nil => cases h
    | cons bs outer ih =>
      rw [visible?, Bindings.bound?, Option.or_eq_some_iff] at h
      rcases h with h | ⟨hnone, h⟩
      · obtain ⟨b, hb, heq⟩ := Option.map_eq_some_iff.1 h
        obtain ⟨rfl, rfl, rfl⟩ := heq
        obtain ⟨earlier, later, rfl, hearlier⟩ := List.lookup_eq_some_iff.1 hb
        exact .here (not_mem_keys_of_lookup (List.lookup_eq_none_iff.2 hearlier))
      · exact .outer (not_mem_keys_of_lookup (Option.map_eq_none_iff.1 hnone)) (ih h)
  · intro h
    induction h with
    | here hx =>
      rw [visible?, Bindings.bound?, List.lookup_append, lookup_eq_none_of_not_mem hx, Option.none_or,
        List.lookup_cons_self]
      rfl
    | outer hx _ ih =>
      rw [visible?, Bindings.bound?, lookup_eq_none_of_not_mem hx, Option.map_none, Option.none_or, ih]

/-- What a use is to refer to. -/
def Use.resolution? (u : Use) : Option Resolution :=
  (visible? u.scopes u.name).map (⟨·, u.scopes.length - 1⟩)

/-- The use with what it refers to, unless that is known. -/
def Use.settle (u : Use) : Use := { u with target := u.target.or u.resolution? }

/-- What holds of scopes and a list of bindings after binding one name more holds after binding the
parameters. -/
theorem Scopes.bindParams_binds {Q : Scopes → Bindings → Prop}
    (hbind : ∀ (s : Scopes) (bs : Bindings) (x : String) (t : Ty) (o : Int), Q s bs →
      Q (s.bind x ⟨s.level, t, o⟩) (bs ++ [(x, t, o)]))
    {s : Scopes} {bs : Bindings} (h : Q s bs) (i : Nat) (ps : List Param) :
    Q (s.bindParams i ps) (bs ++ Param.bindings i ps) := by
  induction ps generalizing s bs i with
  | nil =>
    rw [Param.bindings, List.zipIdx_nil, List.filterMap_nil, List.append_nil]
    exact h
  | cons p ps ih =>
    rw [Scopes.bindParams, Param.bindings, List.zipIdx_cons]
    split
    · next name type hname htype =>
      rw [List.filterMap_cons_some (by rw [hname, htype]), List.append_cons]
      exact ih (hbind s bs name.text type _ h) (i + 1)
    · next hmatch =>
      rw [List.filterMap_cons_none]
      · exact ih h (i + 1)
      · split
        · next name type hname htype => exact (hmatch name type hname htype).elim
        · rfl

/-- The open scopes bind what the lists say. -/
inductive Scopes.Shows : Scopes → List Bindings → Prop
  | outermost {g : Scope} {bs : Bindings} : g.Binds 0 bs → Scopes.Shows ⟨[], g⟩ [bs]
  | nested {scope g : Scope} {rest : List Scope} {bs : Bindings} {outer : List Bindings} :
    scope.Binds outer.length bs → Scopes.Shows ⟨rest, g⟩ outer →
    Scopes.Shows ⟨scope :: rest, g⟩ (bs :: outer)

namespace Scopes.Shows
variable {s : Scopes} {scopes outer : List Bindings} {bs : Bindings}

theorem level (h : s.Shows scopes) : scopes.length = s.level + 1 := by
  induction h with
  | outermost => rfl
  | nested _ _ ih => exact congrArg (· + 1) ih

theorem lookup? (h : s.Shows scopes) (x : String) : s.lookup? x = visible? scopes x := by
  induction h with
  | outermost hg =>
    rw [visible?, visible?, Option.or_none]
    exact hg x
  | nested hscope _ ih =>
    rw [visible?, ← hscope x, ← ih, Scopes.lookup?, Scopes.lookup?, List.findSome?_cons]
    cases hx : Scope.get? _ x <;> rfl

theorem push (h : s.Shows scopes) {scope : Scope} (hscope : scope.Binds scopes.length bs) :
    (s.push scope).Shows (bs :: scopes) :=
  .nested hscope h

theorem bind (h : s.Shows (bs :: outer)) (x : String) (t : Ty) (o : Int) :
    (s.bind x ⟨s.level, t, o⟩).Shows ((bs ++ [(x, t, o)]) :: outer) := by
  have hlevel := h.level
  cases h with
  | outermost hg => exact .outermost (hg.bind x t o)
  | nested hscope hrest =>
    rw [← Nat.succ.inj hlevel]
    exact .nested (hscope.bind x t o) hrest

theorem takeOffset (h : s.Shows scopes) : s.takeOffset.Shows scopes := by
  cases h with
  | outermost hg => exact .outermost hg
  | nested hscope hrest => exact .nested hscope hrest

/-- Inside a function the parameters are bound. -/
theorem enter (h : s.Shows scopes) (ps : List Param) :
    (s.enter ps).Shows (Param.bindings 0 ps :: scopes) := by
  have hempty : (Scope.opened .function .empty).Binds scopes.length [] := fun _ => rfl
  exact Scopes.bindParams_binds (Q := fun s bs => s.Shows (bs :: scopes))
    (fun _ _ x t o hs => hs.bind x t o) (h.push hempty) 0 ps

end Scopes.Shows

/-- The scopes in the block `b` after complete declarations. -/
structure Scopes.At (s : Scopes) (b : Block) (declared : List (Name × Ty)) : Prop where
  shows : s.Shows (b.after declared)
  next : s.nextOffset = Layout.firstLocalOffset - (b.taken + declared.length : Nat)

section At
variable {s : Scopes} {b : Block} {declared : List (Name × Ty)}

theorem Scopes.At.declareLocal (h : s.At b declared) (name : Name) (t : Ty) :
    (s.declareLocal name.text t).At b (declared ++ [(name, t)]) := by
  have hafter : b.after (declared ++ [(name, t)]) =
      (b.first ++ (declared.zipIdx b.taken).map
        (fun p => (p.1.1.text, p.1.2, Layout.firstLocalOffset - p.2)) ++
        [(name.text, t, s.nextOffset)]) :: b.outer := by
    rw [Block.after, List.zipIdx_append, List.map_append, ← List.append_assoc, h.next]
    rfl
  constructor
  · rw [hafter, Scopes.declareLocal, ← s.level_takeOffset]
    exact h.shows.takeOffset.bind name.text t s.nextOffset
  · rw [Scopes.declareLocal, Scopes.nextOffset_bind, Scopes.nextOffset_takeOffset, h.next,
      List.length_append, List.length_singleton]
    omega

theorem Scopes.At.bind (h : s.At b declared) (d : Decl) :
    (d.bind s).At b (declared ++ d.declared?.toList) := by
  unfold Decl.bind
  cases hd : d.declared? with
  | none => simpa using h
  | some p => exact h.declareLocal p.1 p.2

theorem Scopes.At.bindAll (h : s.At b declared) (ds : List Decl) :
    (Decl.bindAll s ds).At b (declared ++ ds.filterMap Decl.declared?) := by
  induction ds generalizing s declared with
  | nil => simpa [Decl.bindAll] using h
  | cons d ds ih =>
    have hrest := ih (h.bind d)
    rw [List.append_assoc] at hrest
    rw [List.filterMap_cons]
    cases hd : d.declared? with
    | none => simpa [hd, Decl.bindAll] using hrest
    | some p => simpa [hd, Decl.bindAll] using hrest

theorem Scopes.Shows.at_enter {scopes : List Bindings} (h : s.Shows scopes) (ps : List Param) :
    (s.enter ps).At ⟨Param.bindings 0 ps, 0, scopes⟩ [] := by
  refine ⟨?_, ?_⟩
  · rw [Block.after, List.zipIdx_nil, List.map_nil, List.append_nil]
    exact h.enter ps
  · rw [Scopes.nextOffset_enter]
    rfl

end At

/-! ## Annotations -/

section Annotate
variable {classes : Table VirtualTable} {s : Scopes} {scopes : List Bindings}

theorem Use.settle_mk (classes : Table VirtualTable) (h : s.Shows scopes) (x : String)
    (target : Option Resolution) :
    (Use.mk scopes x target).settle = ⟨scopes, x, target.or (Env.resolve? ⟨s, classes⟩ x)⟩ := by
  rw [Use.settle, Use.resolution?, Env.resolve?, h.lookup?, h.level]
  rfl

mutual
theorem Expr.uses_annotate (h : s.Shows scopes) : ∀ e : Expr,
    (e.annotate ⟨s, classes⟩).uses scopes = (e.uses scopes).map Use.settle
  | .int .. | .bool .. | .null _ => rfl
  | .ident name target => by
    rw [Expr.uses, Expr.uses, Expr.annotate, Expr.notes, Expr.notes]
    simp [Note.use?, Use.settle_mk classes h]
  | .call callee args span target => by
    rw [Expr.uses, Expr.uses, Expr.annotate, Expr.notes, Expr.notes]
    simp [Note.use?, Use.settle_mk classes h, Expr.listUses_annotateAll h args]
  | .methodCall object method args span receiver target => by
    rw [Expr.uses, Expr.uses, Expr.annotate, Expr.notes, Expr.notes]
    simp [Note.use?, Use.settle_mk classes h, Expr.listUses_annotateAll h args]
  | .new cls args span target => by
    rw [Expr.uses, Expr.uses, Expr.annotate, Expr.notes, Expr.notes]
    rw [List.filterMap_cons_none rfl, List.filterMap_cons_none rfl, Expr.listUses_annotateAll h args]
  | .ite c t e span => by
    have hc := Expr.uses_annotate h c
    have ht := Expr.uses_annotate h t
    have he := Expr.uses_annotate h e
    rw [Expr.uses, Expr.uses] at hc ht he ⊢
    rw [Expr.annotate, Expr.notes, Expr.notes]
    simp only [List.filterMap_append, List.map_append, hc, ht, he]
  | .binary op l r span => by
    have hl := Expr.uses_annotate h l
    have hr := Expr.uses_annotate h r
    rw [Expr.uses, Expr.uses] at hl hr ⊢
    rw [Expr.annotate, Expr.notes, Expr.notes]
    simp only [List.filterMap_append, List.map_append, hl, hr]
  | .not e span | .print e span => Expr.uses_annotate h e

theorem Expr.listUses_annotateAll (h : s.Shows scopes) : ∀ es : List Expr,
    (Expr.listNotes (Expr.annotateAll ⟨s, classes⟩ es)).filterMap (Note.use? scopes) =
      ((Expr.listNotes es).filterMap (Note.use? scopes)).map Use.settle
  | [] => rfl
  | e :: es => by
    have he := Expr.uses_annotate h e
    rw [Expr.uses, Expr.uses] at he
    rw [Expr.annotateAll, Expr.listNotes, Expr.listNotes]
    simp only [List.filterMap_append, List.map_append, he, Expr.listUses_annotateAll h es]
end

mutual
theorem Decl.uses_annotate : ∀ (d : Decl) {s : Scopes} {b : Block} {declared : List (Name × Ty)},
      s.At b declared →
    (d.annotate classes s).uses b declared = (d.uses b declared).map Use.settle
  | .var v, s, b, declared, h => by
    cases hv : v.declared? with
    | none => simp only [Decl.annotate, hv, Decl.uses, List.map_nil]
    | some p =>
      have hv' (e : Expr) : ({ v with init := e } : Variable).declared? = some p := hv
      simp only [Decl.annotate, hv, Decl.uses, hv']
      exact Expr.uses_annotate h.shows v.init
  | .function f, s, b, declared, h => by
    cases hf : f.declared? with
    | none => simp only [Decl.annotate, hf, Decl.uses, List.map_nil]
    | some p =>
      simp only [Decl.annotate, hf, Decl.uses, Function.declared?_annotate]
      exact Function.uses_annotate f (h.declareLocal p.1 (.arrow p.2)).shows

theorem Function.uses_annotate : ∀ (f : Function) {s : Scopes} {scopes : List Bindings}, s.Shows scopes →
    (f.annotate classes s).uses scopes = (f.uses scopes).map Use.settle
  | ⟨name, params, ret, locals, body, span⟩, s, scopes, h => by
    have hlocals := h.at_enter params
    have hbody := (hlocals.bindAll locals).shows
    rw [List.nil_append] at hbody
    rw [Function.annotate, Function.uses, Function.uses, List.map_append,
      Decl.listUses_annotateAll locals hlocals, Decl.declared_annotateAll, Expr.uses_annotate hbody body]

theorem Decl.listUses_annotateAll :
    ∀ (ds : List Decl) {s : Scopes} {b : Block} {declared : List (Name × Ty)},
    s.At b declared → Decl.listUses b declared (Decl.annotateAll classes s ds) =
      (Decl.listUses b declared ds).map Use.settle
  | [], s, b, declared, h => rfl
  | d :: ds, s, b, declared, h => by
    rw [Decl.annotateAll, Decl.listUses, Decl.listUses, List.map_append, Decl.declared?_annotate,
      Decl.uses_annotate d h, Decl.listUses_annotateAll ds (h.bind d)]
end

end Annotate

/-! ## Uses and nodes -/

/-- The name of a use and what it refers to, if that is known. -/
def Use.filled? (u : Use) : Option (String × Resolution) := u.target.map (u.name, ·)

/-- The same of a node, where the scopes do not matter. -/
def Note.filled? (note : Note) : Option (String × Resolution) := (note.use? []).bind Use.filled?

theorem Note.bind_use? (scopes : List Bindings) (note : Note) :
    (note.use? scopes).bind Use.filled? = note.filled? := by
  cases note <;> rfl

theorem Note.filled?_of_isEmpty {note : Note} (h : note.isEmpty = true) : note.filled? = none := by
  cases note with
  | ident name target =>
    obtain rfl : target = none := by simpa [Note.isEmpty] using h
    rfl
  | call name target =>
    obtain rfl : target = none := by simpa [Note.isEmpty] using h
    rfl
  | methodCall object receiver method target =>
    obtain rfl : receiver = none := by
      simp [Note.isEmpty] at h
      exact h.1
    rfl
  | _ => rfl

theorem Note.offset_mem_of_filled {note : Note} {x : String} {res : Resolution}
    (h : note.filled? = some (x, res)) :
    res.entry.offset ∈ note.offsets := by
  cases note with
  | ident name target | call name target =>
    obtain ⟨res', rfl, heq⟩ := Option.map_eq_some_iff.1 h
    obtain ⟨-, rfl⟩ := Prod.mk.inj heq
    exact List.mem_singleton_self _
  | methodCall object receiver method target =>
    obtain ⟨res', rfl, heq⟩ := Option.map_eq_some_iff.1 h
    obtain ⟨-, rfl⟩ := Prod.mk.inj heq
    exact List.mem_append_left _ (List.mem_singleton_self _)
  | _ => cases h

theorem filled_of_bare {notes : List Note} (h : Bare notes) : notes.filterMap Note.filled? = [] :=
  List.filterMap_eq_nil_iff.2 fun note hnote => Note.filled?_of_isEmpty (h note hnote)

theorem Expr.filled_uses (scopes : List Bindings) (e : Expr) :
    (e.uses scopes).filterMap Use.filled? = e.notes.filterMap Note.filled? := by
  rw [Expr.uses, List.filterMap_filterMap]
  exact congrArg (e.notes.filterMap ·) (funext (Note.bind_use? scopes))

mutual
theorem Decl.filled_uses : ∀ (d : Decl) (b : Block) (declared : List (Name × Ty)),
    ((d.uses b declared).filterMap Use.filled?).Sublist (d.notes.filterMap Note.filled?)
  | .var v, b, declared => by
    rw [Decl.uses, Decl.notes]
    split
    · rw [Expr.filled_uses]
    · exact List.nil_sublist _
  | .function f, b, declared => by
    rw [Decl.uses, Decl.notes]
    split
    · exact Function.filled_uses f _
    · exact List.nil_sublist _

theorem Function.filled_uses : ∀ (f : Function) (outer : List Bindings),
    ((f.uses outer).filterMap Use.filled?).Sublist (f.notes.filterMap Note.filled?)
  | ⟨name, params, ret, locals, body, span⟩, outer => by
    rw [Function.uses, Function.notes, List.filterMap_append, List.filterMap_append, Expr.filled_uses]
    exact (Decl.filled_listUses locals _ _).append (List.Sublist.refl _)

theorem Decl.filled_listUses : ∀ (ds : List Decl) (b : Block) (declared : List (Name × Ty)),
    ((Decl.listUses b declared ds).filterMap Use.filled?).Sublist
      ((Decl.listNotes ds).filterMap Note.filled?)
  | [], b, declared => List.Sublist.refl _
  | d :: ds, b, declared => by
    rw [Decl.listUses, Decl.listNotes, List.filterMap_append, List.filterMap_append]
    exact (Decl.filled_uses d _ _).append (Decl.filled_listUses ds _ _)
end

section Filled
variable {classes : Table VirtualTable}

mutual
/-- What is known in a declaration after it was annotated is known of a use. -/
theorem Decl.filled_annotate :
    ∀ (d : Decl) {s : Scopes} (b : Block) (declared : List (Name × Ty)), Bare d.notes →
    ((d.annotate classes s).uses b declared).filterMap Use.filled? =
      (d.annotate classes s).notes.filterMap Note.filled?
  | .var v, s, b, declared, hb => by
    cases hv : v.declared? with
    | none =>
      simp only [Decl.annotate, hv, Decl.uses, List.filterMap_nil]
      exact (filled_of_bare hb).symm
    | some p =>
      have hv' (e : Expr) : ({ v with init := e } : Variable).declared? = some p := hv
      simp only [Decl.annotate, hv, Decl.uses, hv']
      exact Expr.filled_uses _ _
  | .function f, s, b, declared, hb => by
    cases hf : f.declared? with
    | none =>
      simp only [Decl.annotate, hf, Decl.uses, List.filterMap_nil]
      exact (filled_of_bare hb).symm
    | some p =>
      simp only [Decl.annotate, hf, Decl.uses, Function.declared?_annotate]
      exact Function.filled_annotate f _ hb

theorem Function.filled_annotate : ∀ (f : Function) {s : Scopes} (outer : List Bindings), Bare f.notes →
    ((f.annotate classes s).uses outer).filterMap Use.filled? =
      (f.annotate classes s).notes.filterMap Note.filled?
  | ⟨name, params, ret, locals, body, span⟩, s, outer, hb => by
    rw [Function.annotate, Function.uses, Function.notes, List.filterMap_append, List.filterMap_append,
      Expr.filled_uses, Decl.filled_annotateAll locals _ _ (bare_append.1 hb).1]

theorem Decl.filled_annotateAll : ∀ (ds : List Decl) {s : Scopes} (b : Block) (declared : List (Name × Ty)),
    Bare (Decl.listNotes ds) →
    (Decl.listUses b declared (Decl.annotateAll classes s ds)).filterMap Use.filled? =
      (Decl.listNotes (Decl.annotateAll classes s ds)).filterMap Note.filled?
  | [], s, b, declared, hb => rfl
  | d :: ds, s, b, declared, hb => by
    obtain ⟨hd, hds⟩ := bare_append.1 hb
    rw [Decl.annotateAll, Decl.listUses, Decl.listNotes, List.filterMap_append, List.filterMap_append,
      Decl.filled_annotate d _ _ hd, Decl.filled_annotateAll ds _ _ hds]
end

end Filled

/-! ## Classes -/

theorem Class.shape_congr {c c' : Class} {earlier : List (String × Shape)}
    (hsuper : c'.superclass = c.superclass)
    (hfields : c'.fields.map Field.member? = c.fields.map Field.member?)
    (hmethods : c'.methods.map Method.member? = c.methods.map Method.member?) :
    c'.shape earlier = c.shape earlier := by
  rw [Class.shape, Class.shape, Class.inheritedShape, Class.inheritedShape, hsuper, Class.extend,
    Class.extend, Class.acceptedFields, Class.acceptedFields, Class.acceptedMethods, Class.acceptedMethods,
    filterMap_accepted_congr hfields, filterMap_congr_map hfields, filterMap_accepted_congr hmethods]

theorem Method.function_annotate {env : Env} {d : Method} (h : d.offset.isSome = true) :
    (d.annotate env).function = d.function.annotate env.classes env.scopes := by
  rw [Method.annotate, if_pos h]

theorem Env.Declares.shows {env : Env} {classes : List (String × Shape)} (h : env.Declares classes) :
    env.scopes.Shows [classBindings classes] := by
  obtain ⟨⟨nested, g⟩, tables⟩ := env
  obtain rfl : nested = [] := h.nested
  exact .outermost h.bound

/-- Inside a class its members are in view, and around it the classes declared so far. -/
theorem Env.Declares.shows_enterClass {env : Env} {classes : List (String × Shape)}
    (h : env.Declares classes) {m : Members} {sh : Shape} (hm : m.Shaped sh) :
    (env.enterClass m).scopes.Shows [sh.bindings, classBindings classes] :=
  h.shows.push hm.get?

section Class
variable {env : Env} {classes : List (String × Shape)} {c : Class}

/-- The methods that count, after they were placed and annotated. -/
theorem Class.acceptedMethods_resolvePlaced {inherited : Shape} {name : Name} {p : PlacedMembers}
    (hplaced : c.PlacedAs inherited p) :
    (c.resolvePlaced env name p).tree.acceptedMethods inherited =
      (p.methods.filter (·.offset.isSome)).map
        (·.annotate ((env.declareClass name.text p.members).enterClass p.members)) := by
  rw [hplaced.accepted, ← accepted_map (Method.member?_annotate _), ← filterMap_congr_map hplaced.fields]
  rfl

theorem Class.functions_accepted {inherited : Shape} {p : PlacedMembers}
    (hplaced : c.PlacedAs inherited p) :
    (p.methods.filter (·.offset.isSome)).map Method.function =
      (c.acceptedMethods inherited).map Method.function := by
  have hmap (taken : List String) (ds : List Method) :
      accepted (fun f : Function => f.declared?.map fun p =>
        (p.1.text, p.2)) taken (ds.map Method.function) =
        (accepted Method.member? taken ds).map Method.function := accepted_map fun _ => rfl
  rw [hplaced.accepted, ← hmap, hplaced.methods, hmap]
  rfl

theorem Class.methodUses_resolvePlaced {inherited : Shape} {name : Name} {p : PlacedMembers}
    {scopes : List Bindings} (hplaced : c.PlacedAs inherited p)
    (hshows : ((env.declareClass name.text p.members).enterClass p.members).scopes.Shows scopes) :
    ((c.resolvePlaced env name p).tree.acceptedMethods inherited).flatMap (·.function.uses scopes) =
      ((c.acceptedMethods inherited).flatMap (·.function.uses scopes)).map Use.settle :=
  calc ((c.resolvePlaced env name p).tree.acceptedMethods inherited).flatMap (·.function.uses scopes)
    _ = (p.methods.filter (·.offset.isSome)).flatMap fun d => (d.function.uses scopes).map Use.settle := by
      rw [Class.acceptedMethods_resolvePlaced hplaced, List.flatMap_map]
      refine List.flatMap_congr fun d hd => ?_
      rw [Method.function_annotate (List.mem_filter.1 hd).2]
      exact Function.uses_annotate d.function hshows
    _ = (((p.methods.filter (·.offset.isSome)).map Method.function).flatMap (Function.uses scopes)).map
      Use.settle := by
      rw [List.flatMap_map, List.map_flatMap]
    _ = ((c.acceptedMethods inherited).flatMap (·.function.uses scopes)).map Use.settle := by
      rw [Class.functions_accepted hplaced, List.flatMap_map]

theorem Class.shape_resolvePlaced {inherited : Shape} {name : Name} {p : PlacedMembers}
    (hplaced : c.PlacedAs inherited p) :
    (c.resolvePlaced env name p).tree.shape classes = c.shape classes := by
  refine Class.shape_congr rfl hplaced.fields ?_
  have hmember (ds : List Method) :
      ds.map Method.member? = (ds.map Method.function).map fun f => f.declared?.map fun p =>
        (p.1.text, p.2) := by
    rw [List.map_map]
    rfl
  have hannotate (inner : Env) :
      (p.methods.map (·.annotate inner)).map Method.member? = p.methods.map Method.member? := by
    rw [List.map_map]
    exact List.map_congr_left fun d _ => Method.member?_annotate inner d
  rw [hmember c.methods, ← hplaced.methods, ← hmember]
  exact hannotate _

/-- The methods of a class that was resolved are annotated with its members in view. -/
theorem Class.resolve_uses (h : env.Declares classes) (hb : Bare c.notes) (ht : Written c.types)
    {r : ResolvedClass} (hr : c.resolve env = .ok r) :
    r.tree.uses classes = (c.uses classes).map Use.settle ∧
    r.tree.declareShape classes = c.declareShape classes := by
  unfold Class.resolve at hr
  cases hname : c.name with
  | none =>
    rw [hname] at hr
    obtain rfl := Except.ok.inj hr
    exact ⟨by simp only [Class.uses, hname, List.map_nil], rfl⟩
  | some name =>
    simp only [hname, bind_eq_ok, pure_eq_ok] at hr
    obtain ⟨p, hp, rfl⟩ := hr
    have hplaced := Class.place_shape h hb ht hp
    have htree : (c.resolvePlaced env name p).tree.name = some name := hname
    have hshape : (c.resolvePlaced env name p).tree.shape classes = c.shape classes :=
      Class.shape_resolvePlaced hplaced
    have hdeclare : (c.resolvePlaced env name p).tree.declareShape classes = c.declareShape classes := by
      simp only [Class.declareShape, htree, hname, hshape]
    refine ⟨?_, hdeclare⟩
    have hdeclares : c.declareShape classes = classes ++ [(name.text, c.shape classes)] := by
      simp only [Class.declareShape, hname]
    have hshows := (h.declareClass hplaced.members name.text).shows_enterClass hplaced.members
    simp only [Class.uses, htree, hname, hdeclare]
    rw [hshape, hdeclares]
    exact Class.methodUses_resolvePlaced hplaced hshows

/-- Only the bodies of methods have uses. -/
theorem Class.filled_notes (c : Class) :
    c.notes.filterMap Note.filled? = c.methods.flatMap fun d =>
      d.function.notes.filterMap Note.filled? := by
  have hfields : (c.fields.map Field.note).filterMap Note.filled? = [] :=
    List.filterMap_eq_nil_iff.2 fun note hnote => by
      obtain ⟨f, -, rfl⟩ := List.mem_map.1 hnote
      rfl
  have hmethod (d : Method) : d.notes.filterMap Note.filled? = d.function.notes.filterMap Note.filled? :=
    List.filterMap_cons_none rfl
  rw [Class.notes, List.filterMap_cons_none rfl, List.filterMap_append, hfields, List.nil_append,
    List.filterMap_flatMap]
  simp only [hmethod]

theorem Class.filled_uses (c : Class) (earlier : List (String × Shape)) :
    ((c.uses earlier).filterMap Use.filled?).Sublist (c.notes.filterMap Note.filled?) := by
  rw [Class.uses, Class.filled_notes]
  split
  · rw [List.filterMap_flatMap]
    refine (List.Sublist.flatMap_right _ fun d _ => Function.filled_uses d.function _).trans ?_
    exact (accepted_sublist _ _).flatMap _
  · exact List.nil_sublist _

/-- What is known in a class after it was resolved is known of a use. -/
theorem Class.filled_resolve (h : env.Declares classes) (hb : Bare c.notes) (ht : Written c.types)
    {r : ResolvedClass} (hr : c.resolve env = .ok r) :
    (r.tree.uses classes).filterMap Use.filled? = r.tree.notes.filterMap Note.filled? := by
  unfold Class.resolve at hr
  cases hname : c.name with
  | none =>
    rw [hname] at hr
    obtain rfl := Except.ok.inj hr
    simp only [Class.uses, hname, List.filterMap_nil, filled_of_bare hb]
  | some name =>
    simp only [hname, bind_eq_ok, pure_eq_ok] at hr
    obtain ⟨p, hp, rfl⟩ := hr
    have hplaced := Class.place_shape h hb ht hp
    have htree : (c.resolvePlaced env name p).tree.name = some name := hname
    have hbare : ∀ d ∈ p.methods, Bare d.function.notes := fun d hd => by
      obtain ⟨d', hd', heq⟩ := List.mem_map.1 (hplaced.methods ▸ List.mem_map_of_mem hd)
      exact heq ▸ ((Class.bare_iff.1 hb).2.2 d' hd').2
    rw [Class.filled_notes]
    simp only [Class.uses, htree]
    rw [show (c.resolvePlaced env name p).tree.inheritedShape classes = c.inheritedShape classes from rfl,
      Class.acceptedMethods_resolvePlaced hplaced, List.filterMap_flatMap, List.flatMap_map]
    have hmethods : (c.resolvePlaced env name p).tree.methods =
        p.methods.map (·.annotate ((env.declareClass name.text p.members).enterClass p.members)) := rfl
    rw [hmethods, List.flatMap_map]
    refine .trans (List.flatMap_congr fun d hd => ?_) (flatMap_filter_eq_iff.2 fun d hd => ?_)
    · rw [Method.function_annotate (List.mem_filter.1 hd).2]
      exact Function.filled_annotate d.function _ (hbare d (List.mem_filter.1 hd).1)
    · obtain ⟨hmem, hnone⟩ := List.mem_filter.1 hd
      rw [Method.annotate, if_neg (by simpa using hnone)]
      exact filled_of_bare (hbare d hmem)

theorem Class.resolveAll_uses {cs : List Class} (h : env.Declares classes)
    (hb : Bare (cs.flatMap Class.notes)) (ht : Written (cs.flatMap Class.types)) {r : ResolvedClasses}
    (hr : Class.resolveAll env cs = .ok r) :
    Class.listUses classes r.trees = (Class.listUses classes cs).map Use.settle ∧
      r.trees.foldl Class.declareShape classes = cs.foldl Class.declareShape classes ∧
      (Class.listUses classes r.trees).filterMap Use.filled? =
        (r.trees.flatMap Class.notes).filterMap Note.filled? := by
  induction cs generalizing env classes r with
  | nil =>
    obtain rfl := Except.ok.inj hr
    exact ⟨rfl, rfl, rfl⟩
  | cons c cs ih =>
    rw [List.flatMap_cons, bare_append] at hb
    rw [List.flatMap_cons, written_append] at ht
    simp only [Class.resolveAll, bind_eq_ok, pure_eq_ok] at hr
    obtain ⟨first, hfirst, rest, hrest, rfl⟩ := hr
    obtain ⟨huses, hshape⟩ := Class.resolve_uses h hb.1 ht.1 hfirst
    obtain ⟨huses', hshapes, hfilled⟩ := ih (Class.resolve_declares h hb.1 ht.1 hfirst).1 hb.2 ht.2 hrest
    refine ⟨?_, ?_, ?_⟩
    · rw [Class.listUses, Class.listUses, List.map_append, huses, hshape, huses']
    · rw [List.foldl_cons, List.foldl_cons, hshape, hshapes]
    · rw [Class.listUses, List.flatMap_cons, List.filterMap_append, List.filterMap_append, hshape, hfilled,
        Class.filled_resolve h hb.1 ht.1 hfirst]

theorem Class.filled_listUses (cs : List Class) (earlier : List (String × Shape)) :
    ((Class.listUses earlier cs).filterMap Use.filled?).Sublist
      ((cs.flatMap Class.notes).filterMap Note.filled?) := by
  induction cs generalizing earlier with
  | nil => exact List.Sublist.refl _
  | cons c cs ih =>
    rw [Class.listUses, List.flatMap_cons, List.filterMap_append, List.filterMap_append]
    exact (c.filled_uses earlier).append (ih _)

end Class

/-! ## Programs -/

theorem Program.filled_uses (p : Program) :
    (p.uses.filterMap Use.filled?).Sublist (p.notes.filterMap Note.filled?) := by
  simp only [Program.uses, Program.notes, List.filterMap_append, Expr.filled_uses]
  exact ((Class.filled_listUses _ _).append (Decl.filled_listUses _ _ _)).append (List.Sublist.refl _)

/-- The tree of a program that was resolved has the uses of the program, each with what it refers to, and
nothing else in the tree refers to anything. -/
theorem Program.uses_resolve {p : Program} (hb : Bare p.notes) (ht : Written p.types) {r : Resolved}
    (hr : p.resolve = .ok r) :
    r.tree.uses = p.uses.map Use.settle ∧
    r.tree.uses.filterMap Use.filled? = r.tree.notes.filterMap Note.filled? := by
  cases p with
  | expr body span =>
    obtain rfl := Except.ok.inj hr
    have hshows : Env.initial.scopes.Shows [[]] := .outermost fun _ => rfl
    exact ⟨Expr.uses_annotate hshows body, Expr.filled_uses _ _⟩
  | letIn classes decls body span =>
    simp only [Program.notes, Program.classes, Program.decls, bare_append] at hb
    simp only [Program.types, Program.classes, written_append] at ht
    simp only [Program.resolve, bind_eq_ok, pure_eq_ok] at hr
    obtain ⟨resolved, hresolved, rfl⟩ := hr
    obtain ⟨hdeclares, -⟩ := Class.resolveAll_declares Env.declares_initial hb.1.1 ht.1 hresolved
    obtain ⟨huses, hshapes, hfilled⟩ := Class.resolveAll_uses Env.declares_initial hb.1.1 ht.1 hresolved
    have hblock (ds : List Decl) (e : Expr) : (Program.letIn resolved.trees ds e span).block =
        (Program.letIn classes decls body span).block := by
      simp only [Program.block, Program.classes, hshapes]
    have hat : resolved.env.scopes.At (Program.letIn classes decls body span).block [] := by
      refine ⟨?_, hdeclares.next⟩
      rw [Block.after, List.zipIdx_nil, List.map_nil, List.append_nil]
      exact hdeclares.shows
    have hbody := (hat.bindAll decls).shows
    rw [List.nil_append] at hbody
    constructor
    · simp only [Program.uses, hblock, Program.classes, Program.decls, Program.body, List.map_append, huses,
        Decl.declared_annotateAll, Decl.listUses_annotateAll decls hat, Expr.uses_annotate hbody]
    · simp only [Program.uses, Program.notes, Program.classes, Program.decls, Program.body,
        List.filterMap_append, hfilled, Decl.filled_annotateAll decls _ _ hb.1.2, Expr.filled_uses]

theorem Sees.depth_lt {scopes : List Bindings} {x : String} {depth : Nat} {t : Ty} {o : Int}
    (h : Sees scopes x depth t o) :
    depth < scopes.length := by
  induction h with
  | here => exact Nat.lt_succ_self _
  | outer _ _ ih => exact Nat.lt_succ_of_lt ih

/-- A use whose target was not known gets the declaration that it sees. -/
theorem Use.settle_eq_some_iff {u : Use} (hu : u.target = none) {res : Resolution} :
    u.settle.target = some res ↔
      Sees u.scopes u.name res.entry.level res.entry.type res.entry.offset ∧
      res.level + 1 = u.scopes.length := by
  obtain ⟨entry, level⟩ := res
  rw [Use.settle, hu, Option.none_or, Use.resolution?, Option.map_eq_some_iff]
  constructor
  · rintro ⟨e, he, heq⟩
    obtain ⟨rfl, rfl⟩ := Resolution.mk.inj heq
    have hsees := visible?_eq_some_iff.1 he
    have := hsees.depth_lt
    exact ⟨hsees, by simp only; omega⟩
  · rintro ⟨hsees, hlevel⟩
    exact ⟨entry, visible?_eq_some_iff.2 hsees, by simp only at hlevel; rw [← hlevel]; rfl⟩

/-- Resolution is lexical scoping. In a program of fewer than `2 ^ 30` nodes, right or wrong, a use of a
name is annotated if and only if it sees a declaration of that name; the entry is that declaration's, on the
level of its scope, the level of the use is that of the innermost scope around it, and between them lie as
many links as scopes. No other node is annotated. -/
theorem Program.resolve_sees {p : Program} (hb : Bare p.notes) (ht : Written p.types)
    (hn : p.nodes < 2 ^ 30) :
    ∃ r, p.resolve = .ok r ∧ r.tree.uses.map Use.site = p.uses.map Use.site ∧
      r.tree.uses.filterMap Use.filled? = r.tree.notes.filterMap Note.filled? ∧
      ∀ u ∈ r.tree.uses,
        (u.target.isSome = true ↔ ∃ depth t o, Sees u.scopes u.name depth t o) ∧
        (∀ res, u.target = some res ↔
          Sees u.scopes u.name res.entry.level res.entry.type res.entry.offset ∧
          res.level + 1 = u.scopes.length) ∧
        ∀ res, u.target = some res →
          res.entry.level + res.hops + 1 = u.scopes.length ∧ -2 ^ 31 ≤ res.entry.offset ∧
          res.entry.offset < 2 ^ 31 := by
  obtain ⟨r, hr, hfits⟩ := Program.resolve_fits hb ht
  obtain ⟨huses, hfilled⟩ := Program.uses_resolve hb ht hr
  refine ⟨r, hr, ?_, hfilled, fun u hu => ?_⟩
  · rw [huses, List.map_map]
    rfl
  have hlexical : ∀ res, u.target = some res ↔
      Sees u.scopes u.name res.entry.level res.entry.type res.entry.offset ∧
      res.level + 1 = u.scopes.length := by
    rw [huses] at hu
    obtain ⟨v, hv, rfl⟩ := List.mem_map.1 hu
    have hnil : p.uses.filterMap Use.filled? = [] := List.sublist_nil.1 (filled_of_bare hb ▸ p.filled_uses)
    have hnone : v.target = none := Option.map_eq_none_iff.1 (List.filterMap_eq_nil_iff.1 hnil v hv)
    exact fun res => Use.settle_eq_some_iff hnone
  refine ⟨⟨fun hsome => ?_, fun ⟨depth, t, o, hsees⟩ => ?_⟩, hlexical, fun res hres => ⟨?_, ?_⟩⟩
  · obtain ⟨res, hres⟩ := Option.isSome_iff_exists.1 hsome
    exact ⟨_, _, _, ((hlexical res).1 hres).1⟩
  · have := hsees.depth_lt
    have htarget := (hlexical ⟨⟨depth, t, o⟩, u.scopes.length - 1⟩).2 ⟨hsees, by simp only; omega⟩
    rw [htarget]
    rfl
  · obtain ⟨hsees, hlevel⟩ := (hlexical res).1 hres
    have := hsees.depth_lt
    rw [Resolution.hops]
    omega
  · have hmem : (u.name, res) ∈ r.tree.uses.filterMap Use.filled? :=
      List.mem_filterMap.2 ⟨u, hu, by rw [Use.filled?, hres]; rfl⟩
    obtain ⟨note, hnote, hmark⟩ := List.mem_filterMap.1 (hfilled ▸ hmem)
    have := (hfits note hnote).offset (Note.offset_mem_of_filled hmark)
    omega

/-- A method with a parameter and a local variable of one name, and a local function whose parameter hides a
field. The program has a variable that is called as the field is, and one that is used in its own
initializer. -/
def shadowing : Program :=
  .letIn
    [.plain "Counter" none [("n", .int)]
      [{ Function.plain "bump" [("k", .int)] .int (.variable "n") with
          locals := [.var (.plain "k" .bool (.variable "k")),
            .function (.plain "step" [("n", .bool)] .int (.apply "step" [.variable "n"]))] }]]
    [.var (.plain "n" .bool (.variable "n"))] (.send "n" "bump" [.variable "k"]) .synthetic

/-- The body of the method sees the field, and the initializer of the last variable sees nothing. -/
theorem shadowing_sees_field :
    Bare shadowing.notes ∧ Written shadowing.types ∧ shadowing.nodes < 2 ^ 30 ∧
      ∃ r u v, shadowing.resolve = .ok r ∧ r.tree.uses[3]? = some u ∧ r.tree.uses[4]? = some v ∧
        u.name = "n" ∧ v.name = "n" ∧ u.target = some ⟨⟨1, .int, -1⟩, 2⟩ ∧ v.target = none := by
  refine ⟨by decide, by decide, by decide, ?_⟩
  obtain ⟨r, hr, hsites, -, hlexical⟩ :=
    Program.resolve_sees (p := shadowing) (by decide) (by decide) (by decide)
  have hsite (i : Nat) : r.tree.uses[i]?.map Use.site = (shadowing.uses.map Use.site)[i]? := by
    rw [← List.getElem?_map, hsites]
  obtain ⟨u, hu, husite⟩ := Option.map_eq_some_iff.1 (hsite 3)
  obtain ⟨v, hv, hvsite⟩ := Option.map_eq_some_iff.1 (hsite 4)
  obtain ⟨huscopes, huname⟩ := Prod.mk.inj husite
  obtain ⟨hvscopes, hvname⟩ := Prod.mk.inj hvsite
  refine ⟨r, u, v, hr, hu, hv, huname, hvname, ?_, ?_⟩
  · refine ((hlexical u (List.mem_of_getElem? hu)).2.1 _).2 ⟨visible?_eq_some_iff.1 ?_, ?_⟩
    · rw [huscopes, huname]
      rfl
    · rw [huscopes]
      rfl
  · refine Option.eq_none_iff_forall_ne_some.2 fun res hres => ?_
    have hsees := (((hlexical v (List.mem_of_getElem? hv)).2.1 res).1 hres).1
    rw [hvscopes, hvname] at hsees
    cases visible?_eq_some_iff.2 hsees

end Classlet
