import Classlet.Resolution.Program
import Classlet.Proofs.Scopes
import Classlet.Proofs.Trees
/-!
# Offsets in range

The offsets that resolution writes into the annotations of expressions and declarations are no further from
0 than the number of nodes of the program (`NotesFit`), provided those that the scopes bind are.
-/

namespace Classlet

/-! ## Entries -/

/-- The offset is in the range of a program with `n` nodes, and a class is where classes are. -/
structure Entry.Fits (n : Nat) (e : Entry) : Prop where
  lower : -2 - (n : Int) ≤ e.offset
  upper : e.offset ≤ 1 + (n : Int)
  cls : e.type.members?.isSome = true → e.offset ≤ Layout.firstLocalOffset

/-- The offset is that of a member of a class. -/
structure Entry.IsMember (n : Nat) (e : Entry) : Prop where
  method : e.type.isMethod = true → 0 ≤ e.offset ∧ e.offset ≤ n
  field : e.type.isMethod = false → -1 - (n : Int) ≤ e.offset ∧ e.offset ≤ -1
  members : e.type.members? = none

section Entries
variable {n m : Nat} {e : Entry}

theorem Entry.Fits.mono (h : e.Fits n) (hnm : n ≤ m) : e.Fits m := by
  obtain ⟨hlower, hupper, hcls⟩ := h
  exact ⟨by omega, by omega, hcls⟩

theorem Entry.IsMember.mono (h : e.IsMember n) (hnm : n ≤ m) : e.IsMember m := by
  obtain ⟨hmethod, hfield, hmembers⟩ := h
  refine ⟨fun hm => ?_, fun hm => ?_, hmembers⟩
  · obtain ⟨h0, hn⟩ := hmethod hm
    omega
  · obtain ⟨hlower, hupper⟩ := hfield hm
    omega

theorem Entry.IsMember.fits (h : e.IsMember n) : e.Fits n := by
  have hmembers : e.type.members?.isSome = true → e.offset ≤ Layout.firstLocalOffset := by
    rw [h.members]
    intro hsome
    cases hsome
  cases hm : e.type.isMethod with
  | true =>
    obtain ⟨h0, hn⟩ := h.method hm
    exact ⟨by omega, by omega, hmembers⟩
  | false =>
    obtain ⟨hlower, hupper⟩ := h.field hm
    exact ⟨by omega, by omega, hmembers⟩

end Entries

theorem Ty.members?_of_isWritten {t : Ty} (h : t.isWritten = true) : t.members? = none := by
  cases t with
  | cls fields methods => simp [Ty.isWritten] at h
  | _ => rfl

/-! ## Annotations -/

/-- The offsets in an annotation are in range, and have the sign that belongs to their role. -/
def Note.Fits (n : Nat) : Note → Prop
  | cls _ entry superEntry => (∀ e ∈ entry, e.Fits n) ∧ ∀ e ∈ superEntry, e.Fits n
  | field _ offset => ∀ o ∈ offset, -1 - (n : Int) ≤ o ∧ o ≤ -1
  | method _ offset => ∀ o ∈ offset, 0 ≤ o ∧ o ≤ (n : Int)
  | ident _ target | call _ target => ∀ r ∈ target, r.entry.Fits n
  | methodCall _ receiver _ target => (∀ r ∈ receiver, r.entry.Fits n) ∧ ∀ e ∈ target, e.Fits n
  | new _ target => ∀ e ∈ target, e.Fits n

def NotesFit (n : Nat) (notes : List Note) : Prop := ∀ note ∈ notes, note.Fits n

theorem notesFit_append {n : Nat} {a b : List Note} : NotesFit n (a ++ b) ↔ NotesFit n a ∧ NotesFit n b :=
  List.forall_mem_append

theorem notesFit_cons {n : Nat} {note : Note} {a : List Note} :
    NotesFit n (note :: a) ↔ note.Fits n ∧ NotesFit n a :=
  List.forall_mem_cons

theorem Note.fits_of_isEmpty {n : Nat} {note : Note} (h : note.isEmpty = true) : note.Fits n := by
  cases note <;> simp_all [Note.isEmpty, Note.Fits]

theorem Note.Fits.mono {n m : Nat} {note : Note} (h : note.Fits n) (hnm : n ≤ m) : note.Fits m := by
  cases note with
  | cls _ entry superEntry => exact ⟨fun e he => (h.1 e he).mono hnm, fun e he => (h.2 e he).mono hnm⟩
  | field _ offset =>
    intro o ho
    have := h o ho
    omega
  | method _ offset =>
    intro o ho
    have := h o ho
    omega
  | ident _ target | call _ target => exact fun r hr => (h r hr).mono hnm
  | methodCall _ receiver _ target =>
    exact ⟨fun r hr => (h.1 r hr).mono hnm, fun e he => (h.2 e he).mono hnm⟩
  | new _ target => exact fun e he => (h e he).mono hnm

theorem NotesFit.mono {n m : Nat} {notes : List Note} (h : NotesFit n notes) (hnm : n ≤ m) :
    NotesFit m notes :=
  fun note hnote => (h note hnote).mono hnm

theorem notesFit_of_bare {n : Nat} {notes : List Note} (h : Bare notes) : NotesFit n notes :=
  fun note hnote => Note.fits_of_isEmpty (h note hnote)

/-- All offsets in an annotation. -/
def Note.offsets : Note → List Int
  | cls _ entry superEntry => (entry.toList ++ superEntry.toList).map Entry.offset
  | field _ offset | method _ offset => offset.toList
  | ident _ target | call _ target => target.toList.map (·.entry.offset)
  | methodCall _ receiver _ target => receiver.toList.map (·.entry.offset) ++ target.toList.map Entry.offset
  | new _ target => target.toList.map Entry.offset

theorem Note.Fits.offset {n : Nat} {note : Note} (h : note.Fits n) {o : Int} (ho : o ∈ note.offsets) :
    -2 - (n : Int) ≤ o ∧ o ≤ 1 + (n : Int) := by
  have hentry {e : Entry} (he : e.Fits n) : -2 - (n : Int) ≤ e.offset ∧ e.offset ≤ 1 + (n : Int) :=
    ⟨he.lower, he.upper⟩
  cases note with
  | cls _ entry superEntry =>
    obtain ⟨e, he, rfl⟩ := List.mem_map.1 ho
    rcases List.mem_append.1 he with he | he
    · exact hentry (h.1 e (Option.mem_toList.1 he))
    · exact hentry (h.2 e (Option.mem_toList.1 he))
  | field _ offset =>
    have := h o (Option.mem_toList.1 ho)
    omega
  | method _ offset =>
    have := h o (Option.mem_toList.1 ho)
    omega
  | ident _ target | call _ target =>
    obtain ⟨r, hr, rfl⟩ := List.mem_map.1 ho
    exact hentry (h r (Option.mem_toList.1 hr))
  | methodCall _ receiver _ target =>
    rcases List.mem_append.1 ho with ho | ho
    · obtain ⟨r, hr, rfl⟩ := List.mem_map.1 ho
      exact hentry (h.1 r (Option.mem_toList.1 hr))
    · obtain ⟨e, he, rfl⟩ := List.mem_map.1 ho
      exact hentry (h.2 e (Option.mem_toList.1 he))
  | new _ target =>
    obtain ⟨e, he, rfl⟩ := List.mem_map.1 ho
    exact hentry (h e (Option.mem_toList.1 he))

/-! ## Scopes -/

/-- All that can be looked up is in range. -/
def Scopes.Fits (n : Nat) (s : Scopes) : Prop := ∀ x e, s.lookup? x = some e → e.Fits n

/-- The members of classes are in range. -/
def TablesFit (n : Nat) (classes : Table VirtualTable) : Prop :=
  ∀ cls table x e, classes.get? cls = some table → table.get? x = some e → e.IsMember n

namespace Scopes.Fits

variable {n m : Nat} {s : Scopes} {x : String}

theorem mono (h : s.Fits n) (hnm : n ≤ m) : s.Fits m := fun x e he => (h x e he).mono hnm

theorem bind (h : s.Fits n) {e : Entry} (he : e.Fits n) : (s.bind x e).Fits n := by
  intro y e' hy
  rcases lookup?_bind_cases hy with rfl | hy
  · exact he
  · exact h y e' hy

theorem takeOffset (h : s.Fits n) : s.takeOffset.Fits n := by
  intro y e hy
  rw [lookup?_takeOffset] at hy
  exact h y e hy

theorem declareLocal (h : s.Fits n) {t : Ty} (ht : t.members? = none)
    (hlower : -2 - (n : Int) ≤ s.nextOffset) (hupper : s.nextOffset ≤ -2) :
    (s.declareLocal x t).Fits n := by
  refine h.takeOffset.bind ⟨hlower, ?_, ?_⟩
  · simp only
    omega
  · simp [ht]

theorem bindParams (h : s.Fits n) {i : Nat} {ps : List Param} (ht : Written (ps.filterMap Param.type))
    (hn : i + ps.length ≤ n) : (s.bindParams i ps).Fits n := by
  refine bindParams_preserves h fun s k name t _ hlt hmem hs => hs.bind ⟨?_, ?_, ?_⟩
  · simp only [Layout.paramOffset]
    omega
  · simp only [Layout.paramOffset]
    omega
  · simp [Ty.members?_of_isWritten (ht t hmem)]

theorem enter (h : s.Fits n) {ps : List Param} (ht : Written (ps.filterMap Param.type))
    (hn : ps.length ≤ n) :
    (s.enter ps).Fits n := by
  refine bindParams (fun x e hx => ?_) ht (by omega)
  rw [lookup?_push_empty] at hx
  exact h x e hx

end Scopes.Fits

/-! ## Expressions -/

section Expressions
variable {n : Nat} {env : Env}

theorem Env.resolve?_fits (hs : env.scopes.Fits n) {x : String} {r : Resolution}
    (h : env.resolve? x = some r) :
    r.entry.Fits n := by
  obtain ⟨e, he, rfl⟩ := Option.map_eq_some_iff.1 h
  exact hs x e he

theorem Env.receiverMethod?_fits (hc : TablesFit n env.classes) {object method : String} {e : Entry}
    (h : env.receiverMethod? object method = some e) : e.Fits n := by
  unfold Env.receiverMethod? at h
  split at h
  · next cls _ =>
    unfold Env.method? at h
    split at h
    · next e' he' =>
      obtain ⟨table, htable, he⟩ := Option.bind_eq_some_iff.1 he'
      split at h
      · obtain rfl := Option.some.inj h
        exact (hc cls table method e' htable he).fits
      · cases h
    · cases h
  · cases h

mutual
theorem Expr.annotate_fits (hs : env.scopes.Fits n) (hc : TablesFit n env.classes) :
    ∀ e : Expr, Bare e.notes → NotesFit n (e.annotate env).notes
  | .int .., _ | .bool .., _ | .null _, _ => by
    intro note hnote
    cases hnote
  | .ident name target, hb => by
    obtain rfl : target = none := Option.isNone_iff_eq_none.1 (bare_cons.1 hb).1
    refine notesFit_cons.2 ⟨fun r hr => Env.resolve?_fits hs hr, fun note hnote => ?_⟩
    cases hnote
  | .call callee args span target, hb => by
    obtain ⟨ht, hargs⟩ := bare_cons.1 hb
    obtain rfl : target = none := Option.isNone_iff_eq_none.1 ht
    exact notesFit_cons.2 ⟨fun r hr => Env.resolve?_fits hs hr, Expr.annotateAll_fits hs hc args hargs⟩
  | .methodCall object method args span receiver target, hb => by
    obtain ⟨ht, hargs⟩ := bare_cons.1 hb
    rw [Note.isEmpty, Bool.and_eq_true, Option.isNone_iff_eq_none, Option.isNone_iff_eq_none] at ht
    obtain ⟨rfl, rfl⟩ := ht
    exact notesFit_cons.2 ⟨⟨fun r hr => Env.resolve?_fits hs hr,
      fun e he => Env.receiverMethod?_fits hc he⟩, Expr.annotateAll_fits hs hc args hargs⟩
  | .new cls args span target, hb => by
    obtain ⟨ht, hargs⟩ := bare_cons.1 hb
    obtain rfl : target = none := Option.isNone_iff_eq_none.1 ht
    exact notesFit_cons.2 ⟨fun e he => hs cls.text e he, Expr.annotateAll_fits hs hc args hargs⟩
  | .ite c t e _, hb => by
    rw [Expr.notes, bare_append, bare_append] at hb
    rw [Expr.annotate, Expr.notes, notesFit_append, notesFit_append]
    exact ⟨⟨c.annotate_fits hs hc hb.1.1, t.annotate_fits hs hc hb.1.2⟩, e.annotate_fits hs hc hb.2⟩
  | .binary _ l r _, hb => by
    rw [Expr.notes, bare_append] at hb
    rw [Expr.annotate, Expr.notes, notesFit_append]
    exact ⟨l.annotate_fits hs hc hb.1, r.annotate_fits hs hc hb.2⟩
  | .not e _, hb => e.annotate_fits hs hc hb
  | .print e _, hb => e.annotate_fits hs hc hb

theorem Expr.annotateAll_fits (hs : env.scopes.Fits n) (hc : TablesFit n env.classes) :
    ∀ es : List Expr, Bare (Expr.listNotes es) → NotesFit n (Expr.listNotes (Expr.annotateAll env es))
  | [], _ => by
    intro note hnote
    cases hnote
  | e :: es, hb => by
    rw [Expr.listNotes, bare_append] at hb
    rw [Expr.annotateAll, Expr.listNotes, notesFit_append]
    exact ⟨e.annotate_fits hs hc hb.1, Expr.annotateAll_fits hs hc es hb.2⟩
end

end Expressions

/-! ## Declarations -/

section Declarations
variable {n : Nat}

theorem Decl.bind_fits {s : Scopes} (hs : s.Fits n) {d : Decl} (ht : Written d.types)
    (hlower : -2 - (n : Int) ≤ s.nextOffset) (hupper : s.nextOffset ≤ -2) : (d.bind s).Fits n := by
  unfold Decl.bind
  split
  · next name t hd =>
      exact hs.declareLocal (Ty.members?_of_isWritten (Decl.isWritten_of_declared? ht hd)) hlower hupper
  · exact hs

theorem Decl.bindAll_fits {ds : List Decl} {s : Scopes} (hs : s.Fits n) (ht : Written (Decl.listTypes ds))
    (hlower : -2 - (n : Int) + ds.length ≤ s.nextOffset) (hupper : s.nextOffset ≤ -2) :
    (Decl.bindAll s ds).Fits n := by
  induction ds generalizing s with
  | nil => exact hs
  | cons d ds ih =>
    rw [Decl.listTypes, written_append] at ht
    rw [List.length_cons] at hlower
    have hnext := Decl.nextOffset_bind s d
    refine ih (Decl.bind_fits hs ht.1 (by omega) hupper) ht.2 ?_ ?_
    · split at hnext <;> omega
    · split at hnext <;> omega

mutual
theorem Decl.annotate_fits {classes : Table VirtualTable} (hc : TablesFit n classes) :
    ∀ (d : Decl) {s : Scopes}, s.Fits n → Bare d.notes → Written d.types → d.nodes ≤ n →
      -2 - (n : Int) ≤ s.nextOffset → s.nextOffset ≤ -2 → NotesFit n (d.annotate classes s).notes
  | .var v, s, hs, hb, _, _, _, _ => by
    rw [Decl.annotate]
    split
    · exact v.init.annotate_fits hs hc hb
    · exact notesFit_of_bare hb
  | .function f, s, hs, hb, ht, hn, hlower, hupper => by
    rw [Decl.annotate]
    split
    · exact f.annotate_fits hc (hs.declareLocal rfl hlower hupper) hb ht hn
    · exact notesFit_of_bare hb

theorem Function.annotate_fits {classes : Table VirtualTable} (hc : TablesFit n classes) :
    ∀ (f : Function) {s : Scopes}, s.Fits n → Bare f.notes → Written f.types → f.nodes ≤ n →
      NotesFit n (f.annotate classes s).notes
  | ⟨name, params, ret, locals, body, span⟩, s, hs, hb, ht, hn => by
    rw [Function.notes, bare_append] at hb
    rw [Function.types, written_append, written_append] at ht
    rw [Function.nodes] at hn
    have hlength := Decl.length_le_listNodes locals
    have hnext := Scopes.nextOffset_enter s params
    rw [Layout.firstLocalOffset] at hnext
    have henter := hs.enter ht.1.1 (by omega)
    rw [Function.annotate, Function.notes, notesFit_append]
    exact ⟨Decl.annotateAll_fits hc locals henter hb.1 ht.2 (by omega) (by omega) (by omega),
      body.annotate_fits (Decl.bindAll_fits henter ht.2 (by omega) (by omega)) hc hb.2⟩

theorem Decl.annotateAll_fits {classes : Table VirtualTable} (hc : TablesFit n classes) :
    ∀ (ds : List Decl) {s : Scopes}, s.Fits n → Bare (Decl.listNotes ds) → Written (Decl.listTypes ds) →
      Decl.listNodes ds ≤ n → -2 - (n : Int) + ds.length ≤ s.nextOffset → s.nextOffset ≤ -2 →
      NotesFit n (Decl.listNotes (Decl.annotateAll classes s ds))
  | [], _, _, _, _, _, _, _ => by
    intro note hnote
    cases hnote
  | d :: ds, s, hs, hb, ht, hn, hlower, hupper => by
    rw [Decl.listNotes, bare_append] at hb
    rw [Decl.listTypes, written_append] at ht
    rw [Decl.listNodes] at hn
    rw [List.length_cons] at hlower
    have hnext := Decl.nextOffset_bind s d
    rw [Decl.annotateAll, Decl.listNotes, notesFit_append]
    refine ⟨d.annotate_fits hc hs hb.1 ht.1 (by omega) (by omega) hupper,
      Decl.annotateAll_fits hc ds (Decl.bind_fits hs ht.1 (by omega) hupper) hb.2 ht.2 (by omega) ?_ ?_⟩
    · split at hnext <;> omega
    · split at hnext <;> omega
end

end Declarations

end Classlet
