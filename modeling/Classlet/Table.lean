/-!
# Tables keyed by name

A table holds at most one value per name. `set` replaces or adds, and `get?_set` says what a look-up sees
afterwards; the number of names is `size`.
-/

namespace Classlet

namespace Table

variable {α : Type}

/-- Replaces the value at `key`, or adds it at the end. -/
def assign (key : String) (value : α) : List (String × α) → List (String × α)
  | [] => [(key, value)]
  | (k, v) :: rest => if k = key then (key, value) :: rest else (k, v) :: assign key value rest

/-- The value at the first occurrence of `key`. -/
def find (key : String) : List (String × α) → Option α
  | [] => none
  | (k, v) :: rest => if k = key then some v else find key rest

theorem find_assign (key k : String) (value : α) (l : List (String × α)) :
    find k (assign key value l) = if key = k then some value else find k l := by
  induction l with
  | nil => rfl
  | cons p rest ih =>
    obtain ⟨k', v⟩ := p
    by_cases h : k' = key
    · subst h
      by_cases hk : k' = k <;> simp [assign, find, hk]
    · by_cases hk : k' = k
      · subst hk
        simp [assign, find, h, Ne.symm h]
      · simp [assign, find, h, hk, ih]

theorem mem_keys_assign {key k : String} {value : α} {l : List (String × α)} :
    k ∈ (assign key value l).map Prod.fst ↔ k = key ∨ k ∈ l.map Prod.fst := by
  induction l with
  | nil => simp [assign]
  | cons p rest ih =>
    obtain ⟨k', v⟩ := p
    by_cases h : k' = key
    · simp [assign, h]
    · simp only [assign, h, if_false, List.map_cons, List.mem_cons, ih]
      exact or_left_comm

theorem nodup_keys_assign (key : String) (value : α) {l : List (String × α)}
    (h : (l.map Prod.fst).Nodup) : ((assign key value l).map Prod.fst).Nodup := by
  induction l with
  | nil => simp [assign]
  | cons p rest ih =>
    obtain ⟨k, v⟩ := p
    rw [List.map_cons, List.nodup_cons] at h
    by_cases hk : k = key
    · subst hk
      simpa [assign] using h
    · rw [assign, if_neg hk, List.map_cons, List.nodup_cons, mem_keys_assign]
      exact ⟨not_or.2 ⟨hk, h.1⟩, ih h.2⟩

end Table

/-- A finite map from names. -/
structure Table (α : Type) where
  entries : List (String × α)
  nodup : (entries.map Prod.fst).Nodup

namespace Table

variable {α : Type}

def empty : Table α := ⟨[], List.nodup_nil⟩

def get? (t : Table α) (key : String) : Option α := find key t.entries

def contains (t : Table α) (key : String) : Bool := (t.get? key).isSome

def size (t : Table α) : Nat := t.entries.length

/-- The table in which `key` has `value` and all else is as before. -/
def set (t : Table α) (key : String) (value : α) : Table α :=
  ⟨assign key value t.entries, nodup_keys_assign key value t.nodup⟩

/-- Of two pairs with the same name the later one counts. -/
def ofList (l : List (String × α)) : Table α := l.foldl (fun t p => t.set p.1 p.2) empty

@[simp] theorem get?_empty (key : String) : (empty : Table α).get? key = none := rfl

theorem get?_set (t : Table α) (key k : String) (value : α) :
    (t.set key value).get? k = if key = k then some value else t.get? k :=
  find_assign key k value t.entries

end Table

end Classlet
