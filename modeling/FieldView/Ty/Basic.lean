import FieldView.Text.Comma

/-!
# Types

The types of the field language: scalars, fields over named dimensions, tuples, functions, offsets
and dimensions. A type can be deferred, which stands for one that is not known yet; a deferred type
may be constrained to one kind of type.

Types nest through lists, so their equality is decided by a recursion of its own (`Ty.beq`), proved
to be equality in `Ty.beq_iff`.
-/

set_option autoImplicit false

namespace FieldView

/-- The kinds of numbers and truth values. -/
inductive ScalarKind
  | bool | int32 | int64 | float32 | float64
deriving DecidableEq, Repr

namespace ScalarKind

/-- The name of the kind, as it is written in types. -/
def name : ScalarKind → String
  | bool => "bool"
  | int32 => "int32"
  | int64 => "int64"
  | float32 => "float32"
  | float64 => "float64"

/-- Everything but truth values can be calculated with. -/
def isNumeric : ScalarKind → Bool
  | bool => false
  | _ => true

end ScalarKind

/-- The type of a single element: its kind and, for a small array, its shape. -/
structure ScalarTy where
  kind : ScalarKind
  shape : Option (List Nat) := none
deriving DecidableEq, Repr

/-- The dimensions of a field. -/
inductive Dims
  /-- Any dimensions in any number, written `...`. -/
  | any
  | known (names : List String)
deriving DecidableEq, Repr

/-- What a deferred type can be constrained to. -/
inductive Constraint
  /-- Scalars, fields and tuples. -/
  | data
  | scalar | field | tuple | function | offset | dimension
deriving DecidableEq, Repr

/-- The type of a symbol or an expression. -/
inductive Ty
  /-- Not known yet. -/
  | deferred (constraint : Option Constraint)
  | scalar (scalar : ScalarTy)
  | field (dims : Dims) (dtype : ScalarTy)
  | tuple (types : List Ty)
  /-- The keyword parameters are listed by ascending name. -/
  | function (args : List Ty) (kwargs : List (String × Ty)) (returns : Ty)
  /-- Shifting a field along an offset replaces its source by its targets. -/
  | offset (source : String) (target : List String)
  | dimension (name : String)
deriving Repr

/-- A function type taken apart: what a callable promises about its calls. -/
structure Signature where
  args : List Ty := []
  kwargs : List (String × Ty) := []
  returns : Ty

/-- The signature as a type. -/
def Signature.toTy (s : Signature) : Ty := .function s.args s.kwargs s.returns

/-! ## Equality -/

namespace Ty

mutual

/-- Whether two types are the same. -/
def beq : Ty → Ty → Bool
  | deferred c, deferred d => c == d
  | scalar s, scalar t => s == t
  | field d s, field e t => d == e && s == t
  | tuple ts, tuple us => beqAll ts us
  | function as ks r, function bs ls q => beqAll as bs && beqNamed ks ls && beq r q
  | offset s ts, offset t us => s == t && ts == us
  | dimension a, dimension b => a == b
  | _, _ => false

/-- Whether two lists of types are the same. -/
def beqAll : List Ty → List Ty → Bool
  | [], [] => true
  | a :: as, b :: bs => beq a b && beqAll as bs
  | _, _ => false

/-- Whether two lists of named types are the same. -/
def beqNamed : List (String × Ty) → List (String × Ty) → Bool
  | [], [] => true
  | (x, a) :: as, (y, b) :: bs => x == y && beq a b && beqNamed as bs
  | _, _ => false

end

mutual

theorem beq_iff : (a b : Ty) → (a.beq b = true ↔ a = b)
  | deferred c, b => by cases b <;> simp [beq]
  | scalar s, b => by cases b <;> simp [beq]
  | field d s, b => by cases b <;> simp [beq]
  | tuple ts, b => by
    cases b with
    | tuple us => simp [beq, beqAll_iff ts us]
    | _ => simp [beq]
  | function as ks r, b => by
    cases b with
    | function bs ls q =>
      simp [beq, beqAll_iff as bs, beqNamed_iff ks ls, beq_iff r q, and_assoc]
    | _ => simp [beq]
  | offset s ts, b => by cases b <;> simp [beq]
  | dimension n, b => by cases b <;> simp [beq]

theorem beqAll_iff : (as bs : List Ty) → (beqAll as bs = true ↔ as = bs)
  | [], bs => by cases bs <;> simp [beqAll]
  | a :: as, bs => by
    cases bs with
    | nil => simp [beqAll]
    | cons b bs => simp [beqAll, beq_iff a b, beqAll_iff as bs]

theorem beqNamed_iff : (as bs : List (String × Ty)) → (beqNamed as bs = true ↔ as = bs)
  | [], bs => by cases bs <;> simp [beqNamed]
  | (x, a) :: as, bs => by
    cases bs with
    | nil => simp [beqNamed]
    | cons b bs => obtain ⟨y, b⟩ := b; simp [beqNamed, beq_iff a b, beqNamed_iff as bs]

end

instance : DecidableEq Ty := fun a b => decidable_of_iff (a.beq b = true) (beq_iff a b)

end Ty

/-! ## Constraints -/

namespace Constraint

/-- The name of the constraint, as it is written in types. -/
def name : Constraint → String
  | data => "Data"
  | scalar => "Scalar"
  | field => "Field"
  | tuple => "Tuple"
  | function => "Function"
  | offset => "Offset"
  | dimension => "Dimension"

/-- The constraints, in the order in which they are listed. -/
def all : List Constraint := [data, scalar, field, tuple, function, offset, dimension]

/-- The kind of a type; of a deferred one, the constraint that it carries. -/
def of? : Ty → Option Constraint
  | .deferred c => c
  | .scalar _ => some scalar
  | .field _ _ => some field
  | .tuple _ => some tuple
  | .function _ _ _ => some function
  | .offset _ _ => some offset
  | .dimension _ => some dimension

/-- Whether the second constraint is at least as narrow as the first. -/
def admitsConstraint : Constraint → Constraint → Bool
  | data, data => true
  | data, scalar => true
  | data, field => true
  | data, tuple => true
  | c, d => c == d

end Constraint

/-- Whether the type stands for one that is not known yet. -/
def Ty.isDeferred : Ty → Bool
  | deferred _ => true
  | _ => false

/-- Whether a type that is known meets the constraint. A deferred type never does. -/
def Constraint.admits (c : Constraint) (t : Ty) : Bool :=
  !t.isDeferred && (Constraint.of? t).any c.admitsConstraint

/-! ## Printed form -/

/-- `...`, or the names in square brackets. -/
def Dims.render : Dims → String
  | any => "..."
  | known names => "[" ++ Text.commaList names ++ "]"

namespace Ty

mutual

/-- The printed form of a type. Shapes and keyword parameters are left out. -/
def render : Ty → String
  | deferred none => "Deferred"
  | deferred (some c) => "Deferred[" ++ c.name ++ "]"
  | scalar s => s.kind.name
  | field dims dtype => "Field[" ++ dims.render ++ ", " ++ dtype.kind.name ++ "]"
  | tuple types => "tuple[" ++ Text.commaList (renderAll types) ++ "]"
  | function args _ returns =>
    "(" ++ Text.commaList (renderAll args) ++ ") -> " ++ returns.render
  | offset source target => "Offset[" ++ source ++ " -> " ++ Text.commaList target ++ "]"
  | dimension name => "Dimension[" ++ name ++ "]"

/-- The printed forms of several types. -/
def renderAll : List Ty → List String
  | [] => []
  | t :: ts => t.render :: renderAll ts

end

theorem renderAll_eq_map (ts : List Ty) : renderAll ts = ts.map render := by
  induction ts with
  | nil => rfl
  | cons t ts ih => simp [renderAll, ih]

end Ty

end FieldView
