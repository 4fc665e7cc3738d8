/-!
# Types

Besides the types a program writes (`int`, `bool`, class references and function types) there are the
type of `null`, the type of a method and the type of a class name, which lists the class's fields and
methods in layout order. Equality of types is structural and decidable.
-/

namespace Classlet

mutual
inductive Ty where
  | int
  | bool
  | arrow (signature : Signature)
  | ref (className : String)
  | cls (fields : List Ty) (methods : List Signature)
  | method (signature : Signature)
  | empty

/-- Parameter types and return type of a function or method. -/
structure Signature where
  params : List Ty
  ret : Ty
end

/-! ## Text -/

mutual
def Ty.text : Ty → String
  | .int => "int"
  | .bool => "bool"
  | .arrow s => s.text
  | .ref c => c
  | .cls fields methods =>
    "class(" ++ toString fields.length ++ " fields, " ++ toString methods.length ++ " methods)"
  | .method s => "method " ++ s.text
  | .empty => "null"

def Signature.text : Signature → String
  | ⟨params, ret⟩ => "(" ++ ", ".intercalate (Ty.texts params) ++ ") -> " ++ ret.text

def Ty.texts : List Ty → List String
  | [] => []
  | t :: ts => t.text :: Ty.texts ts
end

/-! ## Forms -/

namespace Ty

/-- The signature of what can be called: functions and methods. -/
def callable? : Ty → Option Signature
  | arrow s | method s => some s
  | _ => none

/-- Fields and methods of a class name's type. -/
def members? : Ty → Option (List Ty × List Signature)
  | cls fields methods => some (fields, methods)
  | _ => none

def ref? : Ty → Option String
  | ref c => some c
  | _ => none

def isMethod : Ty → Bool
  | method _ => true
  | _ => false

end Ty

/-! ## Equality -/

mutual
def Ty.same : Ty → Ty → Bool
  | .int, .int => true
  | .bool, .bool => true
  | .empty, .empty => true
  | .arrow s, .arrow s' => s.same s'
  | .method s, .method s' => s.same s'
  | .ref c, .ref c' => c == c'
  | .cls fs ms, .cls fs' ms' => Ty.sameAll fs fs' && Signature.sameAll ms ms'
  | _, _ => false

def Signature.same : Signature → Signature → Bool
  | ⟨ps, r⟩, ⟨ps', r'⟩ => Ty.sameAll ps ps' && r.same r'

def Ty.sameAll : List Ty → List Ty → Bool
  | [], [] => true
  | t :: ts, t' :: ts' => t.same t' && Ty.sameAll ts ts'
  | _, _ => false

def Signature.sameAll : List Signature → List Signature → Bool
  | [], [] => true
  | s :: ss, s' :: ss' => s.same s' && Signature.sameAll ss ss'
  | _, _ => false
end

mutual
theorem Ty.same_iff : ∀ a b : Ty, a.same b = true ↔ a = b
  | .int, b | .bool, b | .empty, b => by cases b <;> simp [Ty.same]
  | .ref c, b => by cases b <;> simp [Ty.same]
  | .arrow s, b => by cases b <;> simp [Ty.same, Signature.same_iff s]
  | .method s, b => by cases b <;> simp [Ty.same, Signature.same_iff s]
  | .cls fs ms, b => by cases b <;> simp [Ty.same, Ty.sameAll_iff fs, Signature.sameAll_iff ms]

theorem Signature.same_iff : ∀ a b : Signature, a.same b = true ↔ a = b
  | ⟨ps, r⟩, ⟨ps', r'⟩ => by simp [Signature.same, Ty.sameAll_iff ps, Ty.same_iff r]

theorem Ty.sameAll_iff : ∀ as bs : List Ty, Ty.sameAll as bs = true ↔ as = bs
  | [], bs => by cases bs <;> simp [Ty.sameAll]
  | a :: as, bs => by cases bs <;> simp [Ty.sameAll, Ty.same_iff a, Ty.sameAll_iff as]

theorem Signature.sameAll_iff : ∀ as bs : List Signature, Signature.sameAll as bs = true ↔ as = bs
  | [], bs => by cases bs <;> simp [Signature.sameAll]
  | a :: as, bs => by cases bs <;> simp [Signature.sameAll, Signature.same_iff a, Signature.sameAll_iff as]
end

instance : DecidableEq Ty := fun a b => decidable_of_iff _ (Ty.same_iff a b)

instance : DecidableEq Signature := fun a b => decidable_of_iff _ (Signature.same_iff a b)

end Classlet
