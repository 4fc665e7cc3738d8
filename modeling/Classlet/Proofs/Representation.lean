import Classlet.Resolution.Members
import Classlet.Proofs.Basic
import Classlet.Proofs.Conformance
import Classlet.Proofs.Sequences
import Mathlib.Algebra.GroupWithZero.Nat
import Mathlib.Data.List.Forall2
/-!
# Values and objects in memory

The heap holds the dispatch tables of all classes and after them the objects, in the order in which they
were made: the fields from the last to the first and then the address of the dispatch table of the class.
The address of an object is that of its last word. It follows from the objects made before it, so it does
not depend on the size of memory.

`Linkage` collects what a compiled program fixes once and for all, and `Linkage.Represents` relates the
world of an evaluation to the heap and the output of the machine.
-/

namespace Classlet

open Machine

/-! ## Addresses of objects -/

/-- The words of an object. -/
def Object.size (o : Object) : Nat := o.fields.length + 1

/-- The first word of the object at position `id`, where objects start at address `start`. -/
def firstWord (start : Nat) (store : List Object) (id : Nat) : Nat :=
  start + ((store.take id).map Object.size).sum

/-- The address of the object at position `id`. -/
def address (start : Nat) (store : List Object) (id : Nat) : Nat :=
  firstWord start store id + (store[id]?.elim 0 (·.fields.length))

section Addresses
variable {id id' : Nat} {store store' : List Object} {o : Object} (start : Nat)

theorem address_eq (h : store[id]? = some o) :
    address start store id = firstWord start store id + o.fields.length := by
  rw [address, h]
  rfl

theorem firstWord_succ (h : store[id]? = some o) :
    firstWord start store (id + 1) = address start store id + 1 := by
  rw [address_eq start h, firstWord, firstWord, List.take_add_one, h]
  simp [Object.size]
  omega

theorem firstWord_le (store : List Object) (h : id ≤ id') :
    firstWord start store id ≤ firstWord start store id' := by
  obtain ⟨k, rfl⟩ := Nat.exists_eq_add_of_le h
  rw [firstWord, firstWord, List.take_add, List.map_append, List.sum_append]
  omega

theorem firstWord_length (store : List Object) :
    firstWord start store store.length = start + (store.map Object.size).sum := by
  rw [firstWord, List.take_length]

theorem address_lt (h : id < id') (hid : id < store.length) :
    address start store id < address start store id' := by
  have hs := firstWord_succ start (List.getElem?_eq_getElem hid)
  have hle := firstWord_le start store (Nat.succ_le_of_lt h)
  have : firstWord start store id' ≤ address start store id' := Nat.le_add_right _ _
  rw [Nat.succ_eq_add_one] at hle
  omega

/-- Different objects have different addresses. -/
theorem address_inj (hid : id < store.length) (hid' : id' < store.length)
    (h : address start store id = address start store id') : id = id' := by
  rcases Nat.lt_trichotomy id id' with hlt | rfl | hlt
  · exact absurd h (Nat.ne_of_lt (address_lt start hlt hid))
  · rfl
  · exact absurd h.symm (Nat.ne_of_lt (address_lt start hlt hid'))

theorem address_bound (hid : id < store.length) :
    address start store id < start + (store.map Object.size).sum := by
  have hs := firstWord_succ start (List.getElem?_eq_getElem hid)
  have hle := firstWord_le start store (Nat.succ_le_of_lt hid)
  rw [firstWord_length, Nat.succ_eq_add_one] at hle
  omega

theorem address_mono (hs : store <+: store') (hid : id < store.length) :
    address start store' id = address start store id := by
  obtain ⟨new, rfl⟩ := hs
  rw [address, address, firstWord, firstWord, List.take_append_of_le_length (Nat.le_of_lt hid),
    List.getElem?_append_left hid]

end Addresses

/-! ## Words of values -/

/-- The word that stands for a value. An object that was not made yet has none. -/
def Value.word? (start : Nat) (store : List Object) : Value → Option Word
  | int w => some w
  | bool b => some (.ofBool b)
  | null => some (.ofInt Layout.nullAddress)
  | object id => if id < store.length then some (.ofInt (address start store id)) else none

namespace Value

variable {start : Nat} {store store' : List Object} {v a b : Value} {x y : Word}

theorem word?_mono (hs : store <+: store') (h : v.word? start store = some x) :
    v.word? start store' = some x := by
  cases v with
  | object id =>
    rw [word?] at h
    split at h
    · next hid => rw [word?, if_pos (Nat.lt_of_lt_of_le hid hs.length_le), address_mono start hs hid, h]
    · cases h
  | _ => exact h

theorem word?_of_number (h : v.number? = some x) : v.word? start store = some x := by
  cases v with
  | int _ | bool _ => exact h
  | null | object _ => cases h

theorem word?_object {id : Nat} (hid : id < store.length) :
    (object id).word? start store = some (.ofInt (address start store id)) := if_pos hid

/-- Words are equal when values are: numbers as such, and `null` and objects by where they are. -/
theorem equals?_eq_some {r : Bool} (hbound : start + (store.map Object.size).sum < 9223372036854775808)
    (ha : a.word? start store = some x) (hb : b.word? start store = some y) (h : a.equals? b = some r) :
    (x = y) ↔ r = true := by
  have hobject {id : Nat} {z : Word} (hz : (object id).word? start store = some z) :
      id < store.length ∧ z.val = address start store id := by
    rw [word?] at hz
    split at hz
    · next hid =>
      have := address_bound start hid
      rw [← Option.some.inj hz]
      exact ⟨hid, Word.val_ofInt (by omega) (by omega)⟩
    · cases hz
  have hnull {z : Word} (hz : null.word? start store = some z) : z.val = -1 := by
    rw [← Option.some.inj hz]
    decide
  cases a <;> cases b <;> simp only [equals?, number?, reduceCtorEq] at h
  case int.int | int.bool | bool.int | bool.bool =>
    obtain rfl := Option.some.inj ha
    obtain rfl := Option.some.inj hb
    rw [← Option.some.inj h, decide_eq_true_iff]
  case null.null =>
    rw [← Option.some.inj h, ← Option.some.inj ha, ← Option.some.inj hb]
    simp
  case null.object id =>
    obtain ⟨-, hid⟩ := hobject hb
    have hn := hnull ha
    rw [← Option.some.inj h]
    refine iff_of_false (fun hxy => ?_) Bool.false_ne_true
    rw [hxy] at hn
    omega
  case object.null id =>
    obtain ⟨-, hid⟩ := hobject ha
    have hn := hnull hb
    rw [← Option.some.inj h]
    refine iff_of_false (fun hxy => ?_) Bool.false_ne_true
    rw [← hxy] at hn
    omega
  case object.object id id' =>
    obtain ⟨hlt, hid⟩ := hobject ha
    obtain ⟨hlt', hid'⟩ := hobject hb
    rw [← Option.some.inj h, decide_eq_true_iff]
    constructor
    · rintro rfl
      exact address_inj start hlt hlt' (by omega)
    · rintro rfl
      exact Option.some.inj (ha.symm.trans hb)

end Value

/-! ## Compiled programs -/

/-- What is fixed for a class: its place in the outermost frame, its members in layout order with their
names, and the address of its dispatch table. -/
structure ClassInfo where
  offset : Int
  members : Members
  fieldNames : List String
  methodNames : List String
  start : Nat

def ClassInfo.entry (r : ClassInfo) : Entry := ⟨0, r.members.type, r.offset⟩

/-- What is fixed for a compiled program: its classes, latest first, the code and the memory it is for, the
dispatch tables at the bottom of the heap and the words at the bottom of the stack. -/
structure Linkage where
  classes : List Class
  code : Code
  memory : Word
  info? : String → Option ClassInfo
  tables : List Word
  base : List Word

namespace Linkage

def size (L : Linkage) : Nat := L.memory.val.toNat

/-- Where the objects start. -/
def start (L : Linkage) : Nat := L.tables.length

theorem size_lt (L : Linkage) : (L.size : Int) < 9223372036854775808 := by
  have := L.memory.upper
  rw [size]
  omega

/-- The words of the object at position `id`. The field at position `i` is `i + 1` words below the
address. -/
structure HasObject (L : Linkage) (store : List Object) (heap : List Word) (id : Nat) (o : Object)
    (r : ClassInfo) : Prop where
  info : L.info? o.cls = some r
  names : o.fields.map Prod.fst = r.fieldNames
  pointer : heap[address L.start store id]? = some (.ofInt r.start)
  field (i : Nat) (x : String) (v : Value) : o.fields[i]? = some (x, v) →
    ∃ t y k, r.members.fields[i]? = some t ∧ v.HasType L.classes store t ∧ v.word? L.start store = some y ∧
      heap[k]? = some y ∧ k + i + 1 = address L.start store id

/-- The heap and the output of the machine show the objects and the output of an evaluation. -/
structure Represents (L : Linkage) (w : World) (heap out : List Word) : Prop where
  tables : L.tables <+: heap
  length : heap.length = L.start + (w.store.map Object.size).sum
  objects (id : Nat) (o : Object) : w.store[id]? = some o → ∃ r, L.HasObject w.store heap id o r
  printed : List.Forall₂ (fun v x => v.word? L.start w.store = some x) w.printed out

section Represents
variable {L : Linkage} {w : World} {heap out : List Word}

theorem HasObject.mono {store store' : List Object} {heap' : List Word} {id : Nat} {o : Object}
    {r : ClassInfo} (h : L.HasObject store heap id o r) (hid : id < store.length) (hs : store <+: store')
    (hheap : heap <+: heap') :
    L.HasObject store' heap' id o r where
  info := h.info
  names := h.names
  pointer := by
    rw [address_mono _ hs hid]
    exact prefix_getElem? hheap h.pointer
  field i x v hv := by
    obtain ⟨t, y, k, ht, hty, hy, hk, ha⟩ := h.field i x v hv
    exact ⟨t, y, k, ht, hty.mono hs, Value.word?_mono hs hy,
      prefix_getElem? hheap hk, by rw [ha, address_mono _ hs hid]⟩

/-- A new object comes after the others. Its fields are stored from the last to the first. -/
theorem Represents.construct (h : L.Represents w heap out) {cls : String} {r : ClassInfo}
    (hr : L.info? cls = some r) {vs : List Value} {ys : List Word}
    (hlen : r.fieldNames.length = r.members.fields.length)
    (htypes : List.Forall₂ (·.HasType L.classes w.store ·) vs r.members.fields)
    (hwords : List.Forall₂ (·.word? L.start w.store = some ·) vs ys) :
    L.Represents { w with store := w.store ++ [⟨cls, r.fieldNames.zip vs⟩] }
        (heap ++ ys.reverse ++ [.ofInt r.start]) out ∧
      address L.start (w.store ++ [⟨cls, r.fieldNames.zip vs⟩]) w.store.length =
        heap.length + ys.length := by
  have hvs : vs.length = r.fieldNames.length := by rw [hlen, htypes.length_eq]
  have hys : ys.length = vs.length := hwords.length_eq.symm
  have hfields : (r.fieldNames.zip vs).length = ys.length := by rw [List.length_zip]; omega
  have hs : w.store <+: w.store ++ [⟨cls, r.fieldNames.zip vs⟩] := List.prefix_append _ _
  have hheap : heap <+: heap ++ ys.reverse ++ [.ofInt r.start] := by
    rw [List.append_assoc]
    exact List.prefix_append _ _
  have hnew : (w.store ++ [(⟨cls, r.fieldNames.zip vs⟩ : Object)])[w.store.length]? =
      some ⟨cls, r.fieldNames.zip vs⟩ :=
    List.getElem?_concat_length
  have haddress : address L.start (w.store ++ [⟨cls, r.fieldNames.zip vs⟩]) w.store.length =
      heap.length + ys.length := by
    rw [address_eq _ hnew, firstWord, List.take_left, h.length, hfields]
  refine ⟨⟨h.tables.trans hheap, ?_, ?_, ?_⟩, haddress⟩
  · rw [List.map_append, List.sum_append, ← Nat.add_assoc, ← h.length]
    simp [Object.size]
    omega
  · intro id o ho
    simp only at ho ⊢
    rcases Nat.lt_or_ge id w.store.length with hid | hid
    · rw [List.getElem?_append_left hid] at ho
      obtain ⟨r', hobject⟩ := h.objects id o ho
      exact ⟨r', hobject.mono hid hs hheap⟩
    · obtain rfl : id = w.store.length := by
        have := (List.getElem?_eq_some_iff.1 ho).1
        rw [List.length_append, List.length_singleton] at this
        omega
      obtain rfl := Option.some.inj (hnew.symm.trans ho)
      refine ⟨r, hr, ?_, ?_, ?_⟩
      · exact List.map_fst_zip (Nat.le_of_eq hvs.symm)
      · rw [haddress]
        simp
      · intro i x v hv
        have hi : vs[i]? = some v := by
          rw [List.getElem?_zip_eq_some] at hv
          exact hv.2
        obtain ⟨t, ht, hty⟩ := getElem?_of_forall₂ htypes hi
        obtain ⟨y, hy, hword⟩ := getElem?_of_forall₂ hwords hi
        have hlt := (List.getElem?_eq_some_iff.1 hy).1
        refine ⟨t, y, heap.length + (ys.length - 1 - i), ht, hty.mono hs, Value.word?_mono hs hword,
          ?_, by omega⟩
        rw [List.append_assoc, List.getElem?_append_right (by omega),
          List.getElem?_append_left (by simp; omega), List.getElem?_reverse (by omega), ← hy]
        congr 1
        omega
  · exact h.printed.imp fun _ _ hv => Value.word?_mono hs hv

theorem Represents.print (h : L.Represents w heap out) {v : Value} {x : Word}
    (hx : v.word? L.start w.store = some x) :
    L.Represents { w with printed := w.printed ++ [v] } heap (out ++ [x]) :=
  ⟨h.tables, h.length, h.objects, List.rel_append h.printed (.cons hx .nil)⟩

theorem represents_initial (L : Linkage) : L.Represents .initial L.tables [] where
  tables := List.prefix_refl _
  length := by simp [World.initial, start]
  objects id o ho := by simp [World.initial] at ho
  printed := .nil

end Represents

end Linkage

end Classlet
