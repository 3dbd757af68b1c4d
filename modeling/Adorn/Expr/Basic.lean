/-!
# Expressions

The fragments of source text that decorators are made of: literals,
identifiers, arrays, objects, calls, property accesses and functions.
Numbers, function bodies and raw text are kept as written and never
looked into.

Equality is decided by `Expr.beq`, one comparison per kind, and
`Expr.beq_iff` says that it is equality.
-/

namespace Adorn

mutual

inductive Expr where
  | string (value : String)
  | number (value : String)
  | boolean (value : Bool)
  | null
  | template (quasi : String)
  | identifier (name : String)
  | array (elements : List Expr)
  | object (properties : List Property)
  | call (callee : Expr) (arguments : List Expr)
  | access (target : Expr) (property : String)
  | function (name : Option String) (params : List String) (body : String)
  | arrow (params : List String) (body : String)
  | raw (text : String)

/-- A key with its value in an object. -/
inductive Property where
  | mk (key : Key) (value : Expr)

inductive Key where
  | identifier (name : String)
  | string (value : String)
  | computed (expr : Expr)

end

instance : Inhabited Expr := ⟨.null⟩

namespace Expr

/-- Whether an expression is a literal. A last argument that is none is the body of the member and not
an argument of its decorator. -/
def isLiteral : Expr → Bool
  | .string _ | .number _ | .boolean _ | .null | .template _ => true
  | _ => false

/-- The elements of an array. -/
def elements? : Expr → Option (List Expr)
  | .array es => some es
  | _ => none

end Expr

/-! ## Equality -/

mutual

def Expr.beq : Expr → Expr → Bool
  | .string a, .string b => a == b
  | .number a, .number b => a == b
  | .boolean a, .boolean b => a == b
  | .null, .null => true
  | .template a, .template b => a == b
  | .identifier a, .identifier b => a == b
  | .array as, .array bs => Expr.beqList as bs
  | .object as, .object bs => Expr.beqProperties as bs
  | .call a as, .call b bs => a.beq b && Expr.beqList as bs
  | .access a p, .access b q => a.beq b && p == q
  | .function m ps a, .function n qs b => m == n && ps == qs && a == b
  | .arrow ps a, .arrow qs b => ps == qs && a == b
  | .raw a, .raw b => a == b
  | _, _ => false

def Expr.beqList : List Expr → List Expr → Bool
  | [], [] => true
  | a :: as, b :: bs => a.beq b && Expr.beqList as bs
  | _, _ => false

def Property.beq : Property → Property → Bool
  | .mk j a, .mk k b => j.beq k && a.beq b

def Expr.beqProperties : List Property → List Property → Bool
  | [], [] => true
  | a :: as, b :: bs => a.beq b && Expr.beqProperties as bs
  | _, _ => false

def Key.beq : Key → Key → Bool
  | .identifier a, .identifier b => a == b
  | .string a, .string b => a == b
  | .computed a, .computed b => a.beq b
  | _, _ => false

end

mutual

theorem Expr.eq_of_beq : (a b : Expr) → a.beq b = true → a = b
  | .string _, b, h => by cases b <;> simp_all [Expr.beq]
  | .number _, b, h => by cases b <;> simp_all [Expr.beq]
  | .boolean _, b, h => by cases b <;> simp_all [Expr.beq]
  | .null, b, h => by cases b <;> simp_all [Expr.beq]
  | .template _, b, h => by cases b <;> simp_all [Expr.beq]
  | .identifier _, b, h => by cases b <;> simp_all [Expr.beq]
  | .array as, b, h => by
      cases b <;> simp only [Expr.beq, Bool.false_eq_true] at h
      rw [Expr.eq_of_beqList as _ h]
  | .object as, b, h => by
      cases b <;> simp only [Expr.beq, Bool.false_eq_true] at h
      rw [Expr.eq_of_beqProperties as _ h]
  | .call a as, b, h => by
      cases b <;> simp only [Expr.beq, Bool.false_eq_true, Bool.and_eq_true] at h
      rw [Expr.eq_of_beq a _ h.1, Expr.eq_of_beqList as _ h.2]
  | .access a _, b, h => by
      cases b <;> simp only [Expr.beq, Bool.false_eq_true, Bool.and_eq_true, beq_iff_eq] at h
      rw [Expr.eq_of_beq a _ h.1, h.2]
  | .function _ _ _, b, h => by cases b <;> simp_all [Expr.beq]
  | .arrow _ _, b, h => by cases b <;> simp_all [Expr.beq]
  | .raw _, b, h => by cases b <;> simp_all [Expr.beq]

theorem Expr.eq_of_beqList : (as bs : List Expr) → Expr.beqList as bs = true → as = bs
  | [], bs, h => by cases bs <;> simp_all [Expr.beqList]
  | a :: as, bs, h => by
      cases bs <;> simp only [Expr.beqList, Bool.false_eq_true, Bool.and_eq_true] at h
      rw [Expr.eq_of_beq a _ h.1, Expr.eq_of_beqList as _ h.2]

theorem Property.eq_of_beq : (a b : Property) → a.beq b = true → a = b
  | .mk j a, .mk k b, h => by
      simp only [Property.beq, Bool.and_eq_true] at h
      rw [Key.eq_of_beq j k h.1, Expr.eq_of_beq a b h.2]

theorem Expr.eq_of_beqProperties :
    (as bs : List Property) → Expr.beqProperties as bs = true → as = bs
  | [], bs, h => by cases bs <;> simp_all [Expr.beqProperties]
  | a :: as, bs, h => by
      cases bs <;> simp only [Expr.beqProperties, Bool.false_eq_true, Bool.and_eq_true] at h
      rw [Property.eq_of_beq a _ h.1, Expr.eq_of_beqProperties as _ h.2]

theorem Key.eq_of_beq : (a b : Key) → a.beq b = true → a = b
  | .identifier _, b, h => by cases b <;> simp_all [Key.beq]
  | .string _, b, h => by cases b <;> simp_all [Key.beq]
  | .computed a, b, h => by
      cases b <;> simp only [Key.beq, Bool.false_eq_true] at h
      rw [Expr.eq_of_beq a _ h]

end

mutual

theorem Expr.beq_self : (a : Expr) → a.beq a = true
  | .string _ | .number _ | .boolean _ | .null | .template _ | .identifier _
  | .function _ _ _ | .arrow _ _ | .raw _ => by simp [Expr.beq]
  | .array as => by simp only [Expr.beq, Expr.beqList_self as]
  | .object as => by simp only [Expr.beq, Expr.beqProperties_self as]
  | .call a as => by simp only [Expr.beq, Expr.beq_self a, Expr.beqList_self as, Bool.and_self]
  | .access a _ => by simp only [Expr.beq, Expr.beq_self a, beq_self_eq_true, Bool.and_self]

theorem Expr.beqList_self : (as : List Expr) → Expr.beqList as as = true
  | [] => by simp [Expr.beqList]
  | a :: as => by
      simp only [Expr.beqList, Expr.beq_self a, Expr.beqList_self as, Bool.and_self]

theorem Property.beq_self : (a : Property) → a.beq a = true
  | .mk k a => by simp only [Property.beq, Key.beq_self k, Expr.beq_self a, Bool.and_self]

theorem Expr.beqProperties_self : (as : List Property) → Expr.beqProperties as as = true
  | [] => by simp [Expr.beqProperties]
  | a :: as => by
      simp only [Expr.beqProperties, Property.beq_self a, Expr.beqProperties_self as,
        Bool.and_self]

theorem Key.beq_self : (a : Key) → a.beq a = true
  | .identifier _ | .string _ => by simp [Key.beq]
  | .computed a => by simp only [Key.beq, Expr.beq_self a]

end

theorem Expr.beq_iff {a b : Expr} : a.beq b = true ↔ a = b :=
  ⟨Expr.eq_of_beq a b, fun h => h ▸ Expr.beq_self a⟩

instance : DecidableEq Expr := fun a b =>
  if h : a.beq b = true then isTrue (Expr.beq_iff.mp h)
  else isFalse fun e => h (Expr.beq_iff.mpr e)

end Adorn
