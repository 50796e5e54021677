/-!
# Fresh names

A supply of numbered names. Each name is given once; names that are taken are passed over.
-/

set_option autoImplicit false

namespace FieldView.Text

/-- A supply of the names `stem_k`, from a number on. -/
structure NameSupply where
  stem : String
  next : Nat := 0
deriving DecidableEq, Repr

namespace NameSupply

/-- The name with a number. -/
def nameAt (s : NameSupply) (k : Nat) : String := s.stem ++ "_" ++ toString k

/-- The first number from `k` on whose name is not taken. A taken name is crossed off before the
next is tried, so the search ends. -/
def firstFree (s : NameSupply) (taken : List String) (k : Nat) : Nat :=
  if h : s.nameAt k ∈ taken then s.firstFree (taken.erase (s.nameAt k)) (k + 1) else k
termination_by taken.length
decreasing_by
  rw [List.length_erase_of_mem h]
  have := List.length_pos_of_mem h
  omega

/-- The next name that is not taken, and the supply after it. -/
def freshUnless (s : NameSupply) (taken : List String) : String × NameSupply :=
  let k := s.firstFree taken s.next
  (s.nameAt k, { s with next := k + 1 })

/-- The next name, and the supply after it. -/
def fresh (s : NameSupply) : String × NameSupply := s.freshUnless []

/-- Several names that are not taken, and the supply after them. -/
def freshMany (s : NameSupply) (taken : List String) : Nat → List String × NameSupply
  | 0 => ([], s)
  | n + 1 =>
    let (name, s) := s.freshUnless taken
    let (names, s) := s.freshMany taken n
    (name :: names, s)

end NameSupply

end FieldView.Text
