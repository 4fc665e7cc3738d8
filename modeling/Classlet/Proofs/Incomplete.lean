import Classlet.Proofs.Erasure
import Classlet.Proofs.Placement
import Classlet.Proofs.Shapes
/-!
# Incomplete members and classes

Compiling a program and compiling what `Program.erase` leaves of it comes to the same, except where the type
of a field without a name refers to a class that is not declared: such a field gets no place in its class,
but its type is looked at all the same (`Compiler.compile_erase_iff`).
-/

namespace Classlet

/-! ## Members -/

/-- Members are placed by `g`, each in its turn by `f`. Those that `p` leaves out stay as they are and
change nothing, so the others may as well be placed alone. -/
theorem placed_erase {α M R : Type} {f : M → α → Except Abort (α × M × List R)}
    {g : M → List α → Except Abort (List α × M × List R)} {p : α → Bool} {e : α → α}
    (hnil : ∀ m, g m [] = .ok ([], m, [])) (hcons : ∀ m a as, g m (a :: as) = do
      let (a, m, r) ← f m a
      let (as, m, r') ← g m as
      return (a :: as, m, r ++ r'))
    (hskip : ∀ m a, p a = false → f m a = .ok (a, m, []))
    (hkeep : ∀ m a a' m' r, f m a = .ok (a', m', r) → p a' = p a ∧ f m (e a) = .ok (e a', m', r))
    {m m' : M} {as as' : List α} {r : List R} (h : g m as = .ok (as', m', r)) :
    g m ((as.filter p).map e) = .ok ((as'.filter p).map e, m', r) ∧
      as'.filter (! p ·) = as.filter (! p ·) := by
  induction as generalizing m as' r with
  | nil =>
    rw [hnil] at h
    obtain ⟨rfl, rfl, rfl⟩ := Except.ok.inj h
    exact ⟨hnil _, rfl⟩
  | cons a as ih =>
    simp only [hcons, bind_eq_ok, pure_eq_ok] at h
    obtain ⟨⟨a₁, m₁, r₁⟩, ha, ⟨as₂, m₂, r₂⟩, has, hr⟩ := h
    obtain ⟨rfl, rfl, rfl⟩ := hr
    obtain ⟨hrest, hsame⟩ := ih has
    obtain ⟨hp, herase⟩ := hkeep m a a₁ m₁ r₁ ha
    cases ha' : p a with
    | true =>
      simp only [List.filter_cons, hp, ha', if_true, List.map_cons, hcons, herase, ok_bind, hrest,
        Bool.not_true, Bool.false_eq_true, if_false, hsame]
      exact ⟨rfl, trivial⟩
    | false =>
      -- what is left out was passed over here, too
      rw [hskip m a ha'] at ha
      obtain ⟨rfl, rfl, rfl⟩ := Except.ok.inj ha
      simp only [List.filter_cons, ha', Bool.false_eq_true, if_false, hrest, Bool.not_false, if_true, hsame]
      exact ⟨rfl, trivial⟩

namespace Members
variable {level : Nat} {m m' : Members}

theorem placeFields_erase {fs fs' : List Field} {r : List Diagnostic}
    (h : m.placeFields level fs = .ok (fs', m', r)) :
    m.placeFields level (fs.filter Field.isComplete) = .ok (fs'.filter Field.isComplete, m', r) ∧
      fs'.filter (! ·.isComplete) = fs.filter (! ·.isComplete) := by
  have herase := placed_erase (g := fun m fs => placeFields level m fs) (f := placeField level)
    (p := Field.isComplete) (e := id)
    (fun m => rfl) (fun m f fs => rfl) (fun m f hf => ?_) (fun m f f' m' r hf => ?_) h
  · simpa only [List.map_id_fun, id_eq] using herase
  · rw [placeField, Field.declared?_eq_none hf]
  · obtain ⟨o, rfl, -⟩ := placeField_eq_ok hf
    exact ⟨rfl, hf⟩

theorem placeMethods_erase {ds ds' : List Method} {r : List Diagnostic}
    (h : m.placeMethods level ds = .ok (ds', m', r)) :
    m.placeMethods level (Method.eraseAll ds) = .ok (Method.eraseAll ds', m', r) ∧
      ds'.filter (! ·.function.isComplete) = ds.filter (! ·.function.isComplete) := by
  refine placed_erase (g := fun m ds => placeMethods level m ds) (f := placeMethod level)
    (p := fun d => d.function.isComplete)
    (e := Method.erase) (fun m => rfl) (fun m d ds => rfl) (fun m d hd => ?_) (fun m d d' m' r hd => ?_) h
  · rw [placeMethod, Function.declared?_eq_none hd]
  · obtain ⟨o, rfl, hplace⟩ := placeMethod_eq_ok hd
    exact ⟨rfl, hplace d.erase d.function.declared?_erase⟩

end Members

/-! ## Names of classes -/

mutual
/-- The classes that a type refers to. -/
def Ty.classNames : Ty → List String
  | .ref cls => [cls]
  | .arrow s | .method s => s.classNames
  | .int | .bool | .cls .. | .empty => []

def Signature.classNames : Signature → List String
  | ⟨params, ret⟩ => Ty.allClassNames params ++ ret.classNames

def Ty.allClassNames : List Ty → List String
  | [] => []
  | t :: ts => t.classNames ++ Ty.allClassNames ts
end

/-- The classes that the types of fields without a name refer to. -/
def Class.looseNames (c : Class) : List String :=
  (c.fields.filter (·.name.isNone)).flatMap fun f => f.type.elim [] Ty.classNames

/-- Whether the fields without a name refer to classes declared before or to their own. Of classes without a
name the fields do not count. -/
def Class.looseNamesDeclared (declared : List String) : List Class → Bool
  | [] => true
  | c :: cs =>
    match c.name with
    | some name =>
      c.looseNames.all (· ∈ declared ++ [name.text]) && Class.looseNamesDeclared
        (declared ++ [name.text]) cs
    | none => Class.looseNamesDeclared declared cs

def Program.looseNamesDeclared (p : Program) : Bool := Class.looseNamesDeclared [] p.classes

section Names
variable {env : Env}

mutual
theorem Ty.problems_eq_nil {span : Span} : ∀ t : Ty,
    t.problems env span = [] ↔ ∀ x ∈ t.classNames, (env.class? x).isSome = true
  | .ref cls => by simp [Ty.problems, Ty.classNames, Option.isSome_iff_ne_none]
  | .arrow s | .method s => by
    rw [Ty.problems, Ty.classNames]
    exact Signature.problems_eq_nil s
  | .int | .bool | .cls .. | .empty => by simp [Ty.problems, Ty.classNames]

theorem Signature.problems_eq_nil {span : Span} : ∀ s : Signature,
    s.problems env span = [] ↔ ∀ x ∈ s.classNames, (env.class? x).isSome = true
  | ⟨params, ret⟩ => by
    rw [Signature.problems, Signature.classNames, List.append_eq_nil_iff, List.forall_mem_append,
      Ty.allProblems_eq_nil params, Ty.problems_eq_nil ret]

theorem Ty.allProblems_eq_nil {span : Span} : ∀ ts : List Ty,
    Ty.allProblems env span ts = [] ↔ ∀ x ∈ Ty.allClassNames ts, (env.class? x).isSome = true
  | [] => by simp [Ty.allProblems, Ty.allClassNames]
  | t :: ts => by
    rw [Ty.allProblems, Ty.allClassNames, List.append_eq_nil_iff, List.forall_mem_append,
      Ty.problems_eq_nil t, Ty.allProblems_eq_nil ts]
end

theorem Env.Declares.class?_isSome {classes : List (String × Shape)} (h : env.Declares classes)
    (x : String) :
    (env.class? x).isSome = true ↔ x ∈ classes.map Prod.fst := by
  unfold Env.class?
  rcases h.class_cases x with ⟨hnone, hglobal, -⟩ | ⟨sh, e, m, hsome, hglobal, -, -, -, htype, -⟩
  · rw [hglobal]
    exact ⟨fun hx => (nomatch hx), fun hx => absurd hx (not_mem_keys_of_lookup hnone)⟩
  · rw [hglobal]
    refine ⟨fun _ => List.mem_map_of_mem (mem_of_lookup hsome), fun _ => ?_⟩
    simp only [htype]
    rfl

/-- A field without a name has no problem if its type refers to declared classes only. A field without a
type never has one. -/
theorem Field.typeProblems_eq_nil (fs : List Field) :
    (∀ f ∈ fs.filter (! ·.isComplete), f.typeProblems env = []) ↔
      ∀ x ∈ (fs.filter (·.name.isNone)).flatMap (fun f => f.type.elim [] Ty.classNames),
        (env.class? x).isSome = true := by
  have hfield (f : Field) (hf : f.isComplete = false) (hname : f.name.isNone = false) : f.type = none := by
    rw [Field.isComplete] at hf
    cases hn : f.name <;> cases ht : f.type <;> simp_all
  have htype (f : Field) : f.typeProblems env = [] ↔
      ∀ x ∈ f.type.elim [] Ty.classNames, (env.class? x).isSome = true := by
    rw [Field.typeProblems]
    cases f.type with
    | none => simp
    | some t => exact t.problems_eq_nil
  simp only [List.mem_flatMap, List.mem_filter]
  constructor
  · rintro h x ⟨f, ⟨hf, hname⟩, hx⟩
    have hloose : (! f.isComplete) = true := by simp [Field.isComplete, Option.isNone_iff_eq_none.1 hname]
    exact (htype f).1 (h f ⟨hf, hloose⟩) x hx
  · rintro h f ⟨hf, hloose⟩
    refine (htype f).2 fun x hx => ?_
    cases hname : f.name.isNone with
    | true => exact h x ⟨f, ⟨hf, hname⟩, hx⟩
    | false =>
      rw [hfield f (by simpa using hloose) hname] at hx
      cases hx

end Names

/-! ## Resolving classes -/

/-- Only complete members have an offset. -/
structure Class.Tidy (c : Class) : Prop where
  fields : ∀ f ∈ c.fields, f.isComplete = false → f.offset = none
  methods : ∀ d ∈ c.methods, d.function.isComplete = false → d.offset = none

/-- Two lists that are shortened stay the same together only if both do. -/
theorem append_eq_append_iff_of_sublist {α : Type} {a a' b b' : List α} (ha : a'.Sublist a)
    (hb : b'.Sublist b) :
    a' ++ b' = a ++ b ↔ a' = a ∧ b' = b := by
  refine ⟨fun heq => ?_, fun ⟨ha, hb⟩ => by rw [ha, hb]⟩
  have hlength := congrArg List.length heq
  simp only [List.length_append] at hlength
  have hla := ha.length_le
  have hlb := hb.length_le
  exact ⟨ha.eq_of_length (by omega), hb.eq_of_length (by omega)⟩

theorem Method.erase_annotate (env : Env) (d : Method) : (d.annotate env).erase = d.erase.annotate env := by
  obtain ⟨f, offset⟩ := d
  cases offset with
  | none => rfl
  | some o => exact congrArg (Method.mk · (some o)) (f.erase_annotate env.scopes)

theorem Method.isComplete_annotate (env : Env) (d : Method) :
    (d.annotate env).function.isComplete = d.function.isComplete := by
  unfold Method.annotate
  split
  · rw [← Function.declared?_isSome, Function.declared?_annotate, Function.declared?_isSome]
  · rfl

theorem Method.eraseAll_annotate (env : Env) (ds : List Method) :
    Method.eraseAll (ds.map (·.annotate env)) = (Method.eraseAll ds).map (·.annotate env) := by
  have hcomplete : (fun d : Method => d.function.isComplete) ∘ (Method.annotate env) =
      fun d => d.function.isComplete :=
    funext (Method.isComplete_annotate env)
  rw [Method.eraseAll, Method.eraseAll, List.filter_map, hcomplete, List.map_map, List.map_map]
  exact List.map_congr_left fun d _ => d.erase_annotate env

theorem Method.nameProblems_erase (env : Env) (d : Method) :
    d.erase.nameProblems env = d.nameProblems env := by
  obtain ⟨⟨name, params, ret, locals, body, span⟩, offset⟩ := d
  unfold Method.nameProblems Method.erase
  rw [Function.nameProblems_erase]
  rfl

theorem Method.flatMap_eraseAll {β : Type} {f : Method → List β} {ds : List Method}
    (herase : ∀ d, f d.erase = f d) (hskip : ∀ d ∈ ds, d.function.isComplete = false → f d = []) :
    (Method.eraseAll ds).flatMap f = ds.flatMap f := by
  have hfilter : (ds.filter (·.function.isComplete)).flatMap f = ds.flatMap f := by
    refine flatMap_filter_eq_iff.2 fun d hd => ?_
    obtain ⟨hd, hloose⟩ := List.mem_filter.1 hd
    exact hskip d hd (by simpa using hloose)
  rw [Method.eraseAll, List.flatMap_map, ← hfilter]
  exact List.flatMap_congr fun d _ => herase d

section Resolving
variable {env : Env} {c : Class} {name : Name}

def PlacedMembers.erase (p : PlacedMembers) : PlacedMembers :=
  { p with fields := p.fields.filter Field.isComplete, methods := Method.eraseAll p.methods }

/-- The incomplete members are those of the class. -/
structure PlacedMembers.LeavesOut (c : Class) (p : PlacedMembers) : Prop where
  fields : p.fields.filter (! ·.isComplete) = c.fields.filter (! ·.isComplete)
  methods : p.methods.filter (! ·.function.isComplete) = c.methods.filter (! ·.function.isComplete)

theorem Class.place_erase {p : PlacedMembers} (h : c.place env = .ok p) :
    c.erase.place env = .ok p.erase ∧ p.LeavesOut c := by
  simp only [Class.place, bind_eq_ok, pure_eq_ok] at h
  obtain ⟨⟨fs, m, r⟩, hfields, ⟨ds, m', r'⟩, hmethods, rfl⟩ := h
  obtain ⟨hplace, hloose⟩ := Members.placeFields_erase hfields
  obtain ⟨hplace', hloose'⟩ := Members.placeMethods_erase hmethods
  refine ⟨?_, hloose, hloose'⟩
  have hinherited : c.erase.inherited env = c.inherited env := rfl
  rw [Class.place, hinherited, show c.erase.fields = c.fields.filter Field.isComplete from rfl,
    hplace, ok_bind]
  simp only [show c.erase.methods = Method.eraseAll c.methods from rfl, hplace', ok_bind]
  rfl

/-- Annotations are empty at first, so members that are left out have no offset. -/
theorem PlacedMembers.LeavesOut.tidy {p : PlacedMembers} (h : p.LeavesOut c) (hb : Bare c.notes) :
    (∀ f ∈ p.fields, f.isComplete = false → f.offset = none) ∧
      ∀ d ∈ p.methods, d.function.isComplete = false → d.offset = none := by
  obtain ⟨-, hfields, hmethods⟩ := Class.bare_iff.1 hb
  refine ⟨fun f hf hloose => ?_, fun d hd hloose => ?_⟩
  · have hmem : f ∈ p.fields.filter (! ·.isComplete) := List.mem_filter.2 ⟨hf, by simp [hloose]⟩
    exact hfields f (List.mem_filter.1 (h.fields ▸ hmem)).1
  · have hmem : d ∈ p.methods.filter (! ·.function.isComplete) := List.mem_filter.2 ⟨hd, by simp [hloose]⟩
    exact (hmethods d (List.mem_filter.1 (h.methods ▸ hmem)).1).1

theorem Class.tidy_of_leavesOut {p : PlacedMembers} (h : p.LeavesOut c) (hb : Bare c.notes) :
    (c.resolvePlaced env name p).tree.Tidy where
  fields := (h.tidy hb).1
  methods d hd hloose := by
    obtain ⟨d, hmem, rfl⟩ := List.mem_map.1 hd
    rw [Method.isComplete_annotate] at hloose
    rw [Method.offset_annotate, (h.tidy hb).2 d hmem hloose]

/-- What is left of a resolved class is the same as what is resolved of the class that is left. Only the
types of fields may be reported in the one and not in the other. -/
theorem Class.resolvePlaced_erase (env : Env) (name : Name) {p : PlacedMembers} (h : p.LeavesOut c)
    (hb : Bare c.notes) :
    (c.erase.resolvePlaced env name p.erase).tree = (c.resolvePlaced env name p).tree.erase ∧
      (c.erase.resolvePlaced env name p.erase).env = (c.resolvePlaced env name p).env ∧
      (c.erase.resolvePlaced env name p.erase).reports.Sublist (c.resolvePlaced env name p).reports ∧
      ((c.erase.resolvePlaced env name p.erase).reports = (c.resolvePlaced env name p).reports ↔
        ∀ f ∈ c.fields.filter (! ·.isComplete),
          f.typeProblems (env.declareClass name.text p.members) = []) := by
  have hmethods (inner : Env) : p.erase.methods.flatMap (·.nameProblems inner) =
      p.methods.flatMap (·.nameProblems inner) := by
    refine Method.flatMap_eraseAll (Method.nameProblems_erase inner) fun d hd hloose => ?_
    rw [Method.nameProblems, (h.tidy hb).2 d hd hloose]
    rfl
  have hsub (outer : Env) : (p.erase.fields.flatMap (·.typeProblems outer)).Sublist
      (p.fields.flatMap (·.typeProblems outer)) :=
    List.filter_sublist.flatMap _
  refine ⟨?_, rfl, ?_, ?_⟩
  · simp only [Class.resolvePlaced, Class.erase, Method.eraseAll_annotate]
    rfl
  · simp only [Class.resolvePlaced, hmethods]
    exact (List.Sublist.refl _).append
      ((((List.Sublist.refl _).append (hsub _)).append (List.Sublist.refl _)).map _)
  · rw [← h.fields, ← flatMap_filter_eq_iff]
    have hinj : ∀ x y : Problem, Diagnostic.mk .error x = ⟨.error, y⟩ → x = y :=
      fun x y hxy => congrArg Diagnostic.problem hxy
    simp only [Class.resolvePlaced, hmethods, Diagnostic.errors]
    -- everything but the types of fields is reported in both and cancels
    rw [show c.erase.superclassProblems env = c.superclassProblems env from rfl,
      show p.erase.reports = p.reports from rfl,
      show p.erase.members = p.members from rfl, List.append_cancel_left_eq, List.map_inj_right hinj,
      List.append_cancel_right_eq, List.append_cancel_left_eq]
    rfl

/-- A class with a name is resolved. -/
theorem Class.resolve_erase {classes : List (String × Shape)} {r : ResolvedClass}
    (hd : env.Declares classes) (hb : Bare c.notes) (ht : Written c.types) (hname : c.name = some name)
    (h : c.resolve env = .ok r) :
    r.tree.name = c.name ∧ r.tree.Tidy ∧ ∃ r', c.erase.resolve env = .ok r' ∧ r'.tree = r.tree.erase ∧
      r'.env = r.env ∧ r'.reports.Sublist r.reports ∧
      (r'.reports = r.reports ↔ c.looseNames.all (· ∈ classes.map Prod.fst ++ [name.text]) = true) := by
  have hdeclares := (Class.resolve_declares hd hb ht h).1
  simp only [Class.resolve, hname, bind_eq_ok, pure_eq_ok] at h
  obtain ⟨p, hp, rfl⟩ := h
  obtain ⟨hplace, hloose⟩ := Class.place_erase hp
  obtain ⟨htree, henv, hsub, hiff⟩ := Class.resolvePlaced_erase env name hloose hb
  refine ⟨rfl, Class.tidy_of_leavesOut hloose hb, _, ?_, htree, henv, hsub, ?_⟩
  · rw [Class.resolve, show c.erase.name = some name from hname]
    simp only [hplace, ok_bind]
    rfl
  · rw [hiff, Field.typeProblems_eq_nil, List.all_eq_true]
    have hkeys : (c.declareShape classes).map Prod.fst = classes.map Prod.fst ++ [name.text] := by
      rw [Class.declareShape, hname, List.map_append]
      rfl
    refine forall₂_congr fun x _ => ?_
    rw [decide_eq_true_iff, ← hkeys]
    exact hdeclares.class?_isSome x

end Resolving

theorem Class.eraseAll_cons_some {c : Class} {name : Name} (h : c.name = some name) (cs : List Class) :
    Class.eraseAll (c :: cs) = c.erase :: Class.eraseAll cs := by
  rw [Class.eraseAll, List.filter_cons_of_pos (by simp [h]), List.map_cons, Class.eraseAll]

theorem Class.eraseAll_cons_none {c : Class} (h : c.name = none) (cs : List Class) :
    Class.eraseAll (c :: cs) = Class.eraseAll cs := by
  rw [Class.eraseAll, List.filter_cons_of_neg (by simp [h]), Class.eraseAll]

/-- Classes are resolved one after the other. -/
theorem Class.resolveAll_erase {env : Env} {classes : List (String × Shape)} {cs : List Class}
    {r : ResolvedClasses} (hd : env.Declares classes) (hb : Bare (cs.flatMap Class.notes))
    (ht : Written (cs.flatMap Class.types)) (h : Class.resolveAll env cs = .ok r) :
    (∀ c ∈ r.trees, c.name.isSome → c.Tidy) ∧ ∃ r', Class.resolveAll env (Class.eraseAll cs) = .ok r' ∧
      r'.trees = Class.eraseAll r.trees ∧ r'.env = r.env ∧ r'.reports.Sublist r.reports ∧
      (r'.reports = r.reports ↔ Class.looseNamesDeclared (classes.map Prod.fst) cs = true) := by
  induction cs generalizing env classes r with
  | nil =>
    obtain rfl := Except.ok.inj h
    exact ⟨fun c hc => (nomatch hc), _, rfl, rfl, rfl, List.Sublist.refl _, iff_of_true rfl rfl⟩
  | cons c cs ih =>
    rw [List.flatMap_cons, bare_append] at hb
    rw [List.flatMap_cons, written_append] at ht
    simp only [Class.resolveAll, bind_eq_ok, pure_eq_ok] at h
    obtain ⟨first, hfirst, rest, hrest, rfl⟩ := h
    have hdeclares := (Class.resolve_declares hd hb.1 ht.1 hfirst).1
    obtain ⟨htidy, rest', hrest', htrees, henv, hsub, hiff⟩ := ih (r := rest) hdeclares hb.2 ht.2 hrest
    cases hname : c.name with
    | none =>
      simp only [Class.resolve, hname] at hfirst
      obtain rfl := Except.ok.inj hfirst
      simp only [Class.declareShape, hname] at hiff
      rw [Class.eraseAll_cons_none hname, Class.eraseAll_cons_none hname, Class.looseNamesDeclared, hname]
      refine ⟨List.forall_mem_cons.2 ⟨fun hsome => ?_, htidy⟩, rest', hrest', htrees, henv, hsub, hiff⟩
      rw [hname] at hsome
      cases hsome
    | some name =>
      obtain ⟨hkept, htidy', first', hfirst', htree, henv', hsub', hiff'⟩ :=
        Class.resolve_erase hd hb.1 ht.1 hname hfirst
      rw [← henv'] at hrest'
      simp only [Class.declareShape, hname, List.map_append, List.map_cons, List.map_nil] at hiff
      rw [Class.eraseAll_cons_some hname, Class.eraseAll_cons_some (hkept.trans hname),
        Class.looseNamesDeclared, hname]
      refine ⟨List.forall_mem_cons.2 ⟨fun _ => htidy', htidy⟩,
        ⟨first'.tree :: rest'.trees, rest'.env, first'.reports ++ rest'.reports⟩, ?_, ?_, henv,
        hsub'.append hsub, ?_⟩
      · simp only [Class.resolveAll, hfirst', ok_bind, hrest']
        rfl
      · rw [htree, htrees]
      · -- reports only get lost, so all of them are there if none is lost in either part
        rw [Bool.and_eq_true, ← hiff', ← hiff]
        exact append_eq_append_iff_of_sublist hsub' hsub

/-! ## Checking classes -/

section Checking
variable {h : Hierarchy} {c : Class}

theorem mapM_filter {ε α β : Type} {p : α → Bool} {f : α → Except ε (List β)} {l : List α}
    {bs : List (List β)} (hskip : ∀ a ∈ l, p a = false → f a = .ok []) (h : l.mapM f = .ok bs) :
    ∃ bs', (l.filter p).mapM f = .ok bs' ∧ bs'.flatten = bs.flatten := by
  induction l generalizing bs with
  | nil => exact ⟨bs, h, rfl⟩
  | cons a l ih =>
    obtain ⟨hfirst, hrest⟩ := List.forall_mem_cons.1 hskip
    simp only [List.mapM_cons, bind_eq_ok, pure_eq_ok] at h
    obtain ⟨b, hb, rest, hl, rfl⟩ := h
    obtain ⟨rest', hl', hflat⟩ := ih hrest hl
    cases ha : p a with
    | true =>
      refine ⟨b :: rest', ?_, by rw [List.flatten_cons, List.flatten_cons, hflat]⟩
      simp only [List.filter_cons_of_pos ha, List.mapM_cons, hb, hl', ok_bind]
      rfl
    | false =>
      obtain rfl := Except.ok.inj ((hfirst ha).symm.trans hb)
      refine ⟨rest', ?_, by rw [hflat, List.flatten_cons, List.nil_append]⟩
      rw [List.filter_cons_of_neg (by simp [ha]), hl']

theorem Method.overrideReports_erase (own inherited : List Signature) (d : Method) :
    d.erase.overrideReports h own inherited = d.overrideReports h own inherited := by
  obtain ⟨⟨name, params, ret, locals, body, span⟩, offset⟩ := d
  rfl

theorem Field.overrideReports_eq_nil {f : Field} (hf : f.offset = none) {own inherited : List Ty} :
    f.overrideReports h own inherited = .ok [] := by
  rw [Field.overrideReports, hf]
  cases f.name <;> rfl

theorem Method.overrideReports_eq_nil {d : Method} (hd : d.offset = none) {own inherited : List Signature} :
    d.overrideReports h own inherited = .ok [] := by
  rw [Method.overrideReports, hd]
  cases d.function.name <;> rfl

theorem Class.overrideReports_erase {reports : List Diagnostic} (hc : c.Tidy)
    (hr : c.overrideReports h = .ok reports) :
    c.erase.overrideReports h = .ok reports := by
  unfold Class.overrideReports at hr ⊢
  rw [show c.erase.entry = c.entry from rfl, show c.erase.superEntry = c.superEntry from rfl]
  split at hr
  · next fields methods inheritedFields inheritedMethods _ _ =>
    simp only [bind_eq_ok, pure_eq_ok] at hr
    obtain ⟨fieldReports, hfields, methodReports, hmethods, rfl⟩ := hr
    obtain ⟨fieldReports', hfields', hflat⟩ := mapM_filter (p := Field.isComplete)
      (fun f hf hloose => Field.overrideReports_eq_nil (hc.fields f hf hloose)) hfields
    obtain ⟨methodReports', hmethods', hflat'⟩ := mapM_filter (p := fun d : Method => d.function.isComplete)
      (fun d hd hloose => Method.overrideReports_eq_nil (hc.methods d hd hloose)) hmethods
    have herase : c.erase.methods.mapM (·.overrideReports h methods inheritedMethods) =
        .ok methodReports' := by
      rw [Class.erase, Method.eraseAll, List.mapM_map, ← hmethods']
      exact congrArg (List.mapM · _) (funext (Method.overrideReports_erase methods inheritedMethods))
    simp only [herase, ok_bind, show c.erase.fields = c.fields.filter Field.isComplete from rfl, hfields']
    rw [hflat, hflat']
    rfl
  · exact hr

theorem Class.typeReports_erase {reports : List Diagnostic} (hc : c.Tidy)
    (hr : c.typeReports h = .ok reports) :
    c.erase.typeReports h = .ok reports := by
  unfold Class.typeReports at hr ⊢
  rw [show c.erase.name = c.name from rfl]
  split at hr
  · exact hr
  · simp only [bind_eq_ok, pure_eq_ok] at hr
    obtain ⟨overriding, hoverriding, rfl⟩ := hr
    have hmethods : c.erase.methods.flatMap (·.typeReports h) = c.methods.flatMap (·.typeReports h) := by
      refine Method.flatMap_eraseAll (fun d => ?_) fun d hd hloose => ?_
      · rw [Method.typeReports, Method.typeReports, Method.erase, Function.typeReports_erase]
      · rw [Method.typeReports, hc.methods d hd hloose]
        rfl
    simp only [Class.overrideReports_erase hc hoverriding, ok_bind, hmethods]
    rfl

theorem Class.checkAll_erase {cs : List Class} {result : Hierarchy × List Diagnostic}
    (hcs : ∀ c ∈ cs, c.name.isSome → c.Tidy) (hr : Class.checkAll h cs = .ok result) :
    Class.checkAll h (Class.eraseAll cs) = .ok result := by
  induction cs generalizing h result with
  | nil => exact hr
  | cons c cs ih =>
    obtain ⟨hc, hrest⟩ := List.forall_mem_cons.1 hcs
    simp only [Class.checkAll, bind_eq_ok, pure_eq_ok] at hr
    obtain ⟨reports, hreports, ⟨last, rest⟩, hlast, rfl⟩ := hr
    have hlast' := ih hrest hlast
    cases hname : c.name with
    | none =>
      have hsame : c.extendHierarchy h = h := by simp only [Class.extendHierarchy, hname]
      rw [Class.typeReports, hname] at hreports
      obtain rfl := Except.ok.inj hreports
      rw [hsame] at hlast'
      rw [Class.eraseAll_cons_none hname, hlast', List.nil_append]
    | some name =>
      rw [Class.eraseAll_cons_some hname]
      have hsame : c.erase.extendHierarchy h = c.extendHierarchy h := rfl
      have hreports' := Class.typeReports_erase (hc (by rw [hname]; rfl)) hreports
      simp only [Class.checkAll, hsame, hreports', hlast', ok_bind]
      rfl

end Checking

/-! ## Code of classes -/

section Generation
variable {memory : Word}

theorem Class.methodCode_eraseAll {cls : String} {span : Span} {ds : List Method}
    (hds : ∀ d ∈ ds, d.function.isComplete = false → d.offset = none) (table : DispatchTable) (s : Supply) :
    Class.methodCode memory cls span (Method.eraseAll ds) table s =
      Class.methodCode memory cls span ds table s := by
  induction ds generalizing table s with
  | nil => rfl
  | cons d ds ih =>
    obtain ⟨hd, hrest⟩ := List.forall_mem_cons.1 hds
    rw [Method.eraseAll, Class.methodCode]
    cases hcomplete : d.function.isComplete with
    | false =>
      rw [List.filter_cons_of_neg (by simp [hcomplete]), hd hcomplete]
      exact ih hrest table s
    | true =>
      have hoffset : d.erase.offset = d.offset := rfl
      have hcode : d.erase.function.code memory s = d.function.code memory s := d.function.code_erase s
      rw [List.filter_cons, if_pos hcomplete, List.map_cons, Class.methodCode, hoffset, hcode]
      cases d.offset with
      | none => exact ih hrest table s
      | some o =>
        have htail := ih hrest
        simp only [Method.eraseAll] at htail
        simp only [htail]

theorem Class.code_erase {c : Class} (hc : c.Tidy) (tables : List DispatchTable) (s : Supply) :
    c.erase.code memory tables s = c.code memory tables s := by
  unfold Class.code
  rw [show c.erase.name = c.name from rfl, show c.erase.entry = c.entry from rfl]
  split
  · next name entry _ _ =>
    have hinherited : c.erase.inheritedTable name.text tables = c.inheritedTable name.text tables := rfl
    simp only [hinherited, show c.erase.methods = Method.eraseAll c.methods from rfl,
      Class.methodCode_eraseAll hc.methods, show c.erase.span = c.span from rfl]
  · rfl

theorem Class.codeAll_eraseAll {cs : List Class} (hcs : ∀ c ∈ cs, c.name.isSome → c.Tidy)
    (tables : List DispatchTable) (s : Supply) :
    Class.codeAll memory (Class.eraseAll cs) tables s = Class.codeAll memory cs tables s := by
  induction cs generalizing tables s with
  | nil => rfl
  | cons c cs ih =>
    obtain ⟨hc, hrest⟩ := List.forall_mem_cons.1 hcs
    cases hname : c.name with
    | none =>
      have hcode : c.code memory tables s = .ok (⟨[], [], s⟩, tables) := by rw [Class.code, hname]
      simp only [Class.eraseAll_cons_none hname, ih hrest, Class.codeAll, hcode, ok_bind]
      exact (bind_pure _).symm
    | some name =>
      simp only [Class.eraseAll_cons_some hname, Class.codeAll,
        Class.code_erase (hc (by rw [hname]; rfl)), ih hrest]

end Generation

/-! ## Programs -/

/-- Resolving the program that is left. -/
theorem Program.resolve_erase {p : Program} {r : Resolved} (hb : Bare p.notes) (ht : Written p.types)
    (h : p.resolve = .ok r) :
    (∀ c ∈ r.tree.classes, c.name.isSome → c.Tidy) ∧ ∃ r', p.erase.resolve = .ok r' ∧
      r'.tree = r.tree.erase ∧
      r'.reports.Sublist r.reports ∧ (r'.reports = r.reports ↔ p.looseNamesDeclared = true) := by
  cases p with
  | letIn classes decls body span =>
    simp only [Program.notes, Program.classes, bare_append] at hb
    simp only [Program.types, Program.classes, written_append] at ht
    simp only [Program.resolve, bind_eq_ok, pure_eq_ok] at h
    obtain ⟨resolved, hresolved, rfl⟩ := h
    obtain ⟨htidy, resolved', hresolved', htrees, henv, hsub, hiff⟩ :=
      Class.resolveAll_erase Env.declares_initial hb.1.1 ht.1 hresolved
    refine ⟨htidy, _, by simp only [Program.erase, Program.resolve, hresolved', ok_bind]; rfl, ?_, ?_, ?_⟩
    · simp only [Program.erase, htrees, henv, Decl.eraseAll_annotateAll, Decl.bindAll_eraseAll]
    · simp only [henv, Decl.allNameProblems_eraseAll, Decl.bindAll_eraseAll]
      exact hsub.append (List.Sublist.refl _)
    · simp only [henv, Decl.allNameProblems_eraseAll, Decl.bindAll_eraseAll, List.append_cancel_right_eq]
      exact hiff
  | expr body span =>
    obtain rfl := Except.ok.inj h
    exact ⟨List.forall_mem_nil _, _, rfl, rfl, List.Sublist.refl _, iff_of_true rfl rfl⟩

section Programs
variable {p : Program}

theorem Program.check_erase {h : Hierarchy} {checked : Checked}
    (hp : ∀ c ∈ p.classes, c.name.isSome → c.Tidy) (hc : p.check h = .ok checked) :
    p.erase.check h = .ok checked := by
  cases p with
  | letIn classes decls body span =>
    simp only [Program.check, Program.erase, Program.classes, Program.decls, Program.body,
      bind_eq_ok] at hc ⊢
    obtain ⟨result, hresult, hc⟩ := hc
    refine ⟨result, Class.checkAll_erase hp hresult, ?_⟩
    simp only [Decl.allTypeReports_eraseAll]
    exact hc
  | expr body span => exact hc

theorem Program.generate_erase (hp : ∀ c ∈ p.classes, c.name.isSome → c.Tidy) (memory : Word) :
    p.erase.generate memory = p.generate memory := by
  cases p with
  | letIn classes decls body span =>
    have hclasses (s : Supply) : Class.codeAll memory (Class.eraseAll classes) [] s =
        Class.codeAll memory classes [] s :=
      Class.codeAll_eraseAll hp [] s
    simp only [Program.erase, Program.generate, hclasses, Decl.codeAll_eraseAll]
  | expr body span => rfl

end Programs

/-! ## Compiling -/

/-- What compilation leaves, with the incomplete declarations removed from the tree. -/
def Compilation.erase (c : Compilation) : Compilation := { c with tree := c.tree.erase }

section Compiling
variable (options : Options) {p : Program} {r r' : Resolved} {checked : Checked}

/-- Two programs are compiled alike if resolution leaves the same of both. -/
theorem Options.compile_erase (h : p.resolve = .ok r) (h' : p.erase.resolve = .ok r')
    (htree : r'.tree = r.tree.erase) (hreports : r'.reports = r.reports)
    (hc : r.tree.check .empty = .ok checked) (hp : ∀ c ∈ r.tree.classes, c.name.isSome → c.Tidy) :
    options.compile p.erase = (options.compile p).map Compilation.erase := by
  obtain ⟨type, reports, hierarchy⟩ := checked
  simp only [Options.compile, h, h', htree, hreports, ok_bind, Program.check_erase hp hc, hc]
  split
  · rfl
  · split
    · split
      · rfl
      · simp only [Options.finish, Program.generate_erase hp]
        split <;> rfl
    · rfl

/-- The number of problems with names that the result gives. -/
def Compilation.scopeErrors (c : Compilation) : Nat :=
  match c.result with
  | .error (.scope n) => n
  | _ => 0

/-- From what is compiled one can tell how much resolution reported. Compilation is abandoned only after a
resolution without reports. -/
theorem Options.compile_reports (h : p.resolve = .ok r) (hc : r.tree.check .empty = .ok checked) :
    ((∃ a, options.compile p = .error a) ∧ r.reports = []) ∨
      ∃ c, options.compile p = .ok c ∧
        if options.stopAfterScopeErrors then c.scopeErrors = r.reports.length
        else c.reports.length = r.reports.length + checked.reports.length := by
  obtain ⟨type, reports, hierarchy⟩ := checked
  simp only [Options.compile, h, ok_bind, hc]
  split
  · next hstop =>
    refine .inr ⟨_, rfl, ?_⟩
    rw [if_pos hstop.2]
    rfl
  · next hgo =>
    have hzero (hstop : options.stopAfterScopeErrors = true) : r.reports.length = 0 := by
      have := mt (fun hpos => ⟨hpos, hstop⟩) hgo
      omega
    split
    · split
      · next hpos =>
        refine .inr ⟨_, rfl, ?_⟩
        rw [if_neg fun hstop => absurd (hzero hstop) (by omega), List.length_append]
      · next hnone =>
        have hnil : r.reports = [] := List.length_eq_zero_iff.1 (by omega)
        simp only [Options.finish, hnil]
        split
        · exact .inr ⟨_, rfl, by split <;> rfl⟩
        · next a _ => exact .inl ⟨⟨a, rfl⟩, trivial⟩
        · exact .inr ⟨_, rfl, by split <;> rfl⟩
    · refine .inr ⟨_, rfl, ?_⟩
      split
      · next hstop => rw [hzero hstop]; rfl
      · rw [List.length_append]

/-- The same is compiled only if the same was resolved. -/
theorem Options.reports_eq_of_compile (h : p.resolve = .ok r) (h' : p.erase.resolve = .ok r')
    (htree : r'.tree = r.tree.erase) (hsub : r'.reports.Sublist r.reports)
    (hc : r.tree.check .empty = .ok checked) (hp : ∀ c ∈ r.tree.classes, c.name.isSome → c.Tidy)
    {options : Options} (heq : options.compile p.erase = (options.compile p).map Compilation.erase) :
    r'.reports = r.reports := by
  have hc' : r'.tree.check .empty = .ok checked := htree ▸ Program.check_erase hp hc
  rcases Options.compile_reports options h hc with ⟨-, hnil⟩ | ⟨c, hok, hlength⟩
  · rw [hnil] at hsub ⊢
    exact List.sublist_nil.1 hsub
  · rw [hok] at heq
    rcases Options.compile_reports options h' hc' with ⟨⟨a, herror⟩, -⟩ | ⟨c', hok', hlength'⟩
    · rw [herror] at heq
      cases heq
    · obtain rfl : c' = c.erase := Except.ok.inj (hok'.symm.trans heq)
      refine hsub.eq_of_length ?_
      split at hlength
      · next hstop =>
        rw [if_pos hstop] at hlength'
        exact hlength'.symm.trans hlength
      · next hgo =>
        rw [if_neg hgo] at hlength'
        have hsame : c.erase.reports.length = c.reports.length := rfl
        omega

/-- Compiling a program and compiling what is left of it without its incomplete declarations come to the
same, in result, reports and annotations, exactly if the fields without a name refer to declared classes
only. -/
theorem Compiler.compile_erase_iff (compiler : Compiler) (hb : Bare p.notes) (ht : Written p.types) :
    compiler.compile p.erase = (compiler.compile p).map (fun (c, after) => (c.erase, after)) ↔
    p.looseNamesDeclared = true := by
  obtain ⟨r, hr, hfits⟩ := Program.resolve_fits hb ht
  obtain ⟨checked, hchecked⟩ := Program.check_succeeds (h := .empty) hfits
  obtain ⟨htidy, r', hr', htree, hsub, hiff⟩ := Program.resolve_erase hb ht hr
  have hcompile : compiler.compile p.erase = (compiler.compile p).map (fun (c, after) => (c.erase, after)) ↔
      compiler.options.compile p.erase = (compiler.options.compile p).map Compilation.erase := by
    -- the compiler keeps the reports only, which erasing leaves as they are
    unfold Compiler.compile
    cases compiler.options.compile p.erase with
    | error a =>
      cases compiler.options.compile p with
      | error b =>
        exact ⟨fun h => congrArg Except.error (Except.error.inj h),
          fun h => congrArg Except.error (Except.error.inj h)⟩
      | ok c => exact ⟨fun h => (nomatch h), fun h => (nomatch h)⟩
    | ok c' =>
      cases compiler.options.compile p with
      | error b => exact ⟨fun h => (nomatch h), fun h => (nomatch h)⟩
      | ok c =>
        refine ⟨fun h => congrArg Except.ok (Prod.mk.inj (Except.ok.inj h)).1, fun h => ?_⟩
        obtain rfl : c' = c.erase := Except.ok.inj h
        rfl
  rw [hcompile, ← hiff]
  exact ⟨Options.reports_eq_of_compile hr hr' htree hsub hchecked htidy,
    fun hreports => Options.compile_erase compiler.options hr hr' htree hreports hchecked htidy⟩

/-- A class with a complete field, one without a name and one without a type, a method without a result
type, a class without a name, and a function whose local variable has no type. -/
def patchy : Program :=
  .letIn
    [⟨some (.plain "A"), none, [⟨some (.plain "x"), some .int, .synthetic, none⟩,
      ⟨none, some (.ref "A"), .synthetic, none⟩, ⟨some (.plain "y"), none, .synthetic, none⟩],
      [⟨⟨some (.plain "m"), [], none, [], .variable "z", .synthetic⟩, none⟩], .synthetic, none, none⟩,
    ⟨none, none, [⟨none, some (.ref "Z"), .synthetic, none⟩], [], .synthetic, none, none⟩]
    [.function ⟨some (.plain "f"), [], some .int,
      [.var ⟨some (.plain "v"), none, .variable "w", .synthetic⟩], .number 3, .synthetic⟩]
    (.apply "f" []) .synthetic

theorem patchy_compile_erase : Bare patchy.notes ∧ Written patchy.types ∧ patchy.looseNamesDeclared = true ∧
    Compiler.compile ⟨{}, []⟩ patchy.erase =
      (Compiler.compile ⟨{}, []⟩ patchy).map (fun (c, after) => (c.erase, after)) :=
  ⟨by decide, by decide, by decide,
    (Compiler.compile_erase_iff ⟨{}, []⟩ (by decide) (by decide)).2 (by decide)⟩

/-- A field without a name whose type refers to no class. -/
def strayField : Program :=
  .letIn [⟨some (.plain "A"), none, [⟨none, some (.ref "B"), .synthetic, none⟩], [], .synthetic, none,
    none⟩] [] (.number 0)
    .synthetic

/-- What was reported. -/
def Compiler.causes (compiler : Compiler) (p : Program) : Option (List Cause) :=
  (compiler.compile p).toOption.map fun (c, _) => c.reports.map (·.problem.cause)

theorem strayField_reported : Bare strayField.notes ∧ Written strayField.types ∧
    Compiler.causes ⟨{}, []⟩ strayField = some [.undeclaredClass "B"] ∧
    Compiler.causes ⟨{}, []⟩ strayField.erase = some [] ∧
    Compiler.compile ⟨{}, []⟩ strayField.erase ≠
      (Compiler.compile ⟨{}, []⟩ strayField).map (fun (c, after) => (c.erase, after)) := by
  refine ⟨by decide, by decide, by decide, by decide, fun heq => ?_⟩
  have hreports := congrArg (fun x => x.toOption.map fun (c, _) => c.reports.length) heq
  exact absurd hreports (by decide)

end Compiling

end Classlet
