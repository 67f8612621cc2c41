/-!
# Identifiers and types

Classes, methods and fields are named by their position in the program, locals by their position
in a body.

* `ClassId`, `MethodId`, `FieldId` and `LocalId` are those positions;
* `Ty` is the type of a value, and `Ty.isReference` tells the types that the analysis follows.
-/

namespace PointsTo

/-- A class or interface, by its position in the program. -/
structure ClassId where
  num : Nat
deriving DecidableEq, Inhabited

/-- A method, by its position in the program. -/
structure MethodId where
  num : Nat
deriving DecidableEq, Inhabited

/-- A field, by its position in the program. -/
structure FieldId where
  num : Nat
deriving DecidableEq, Inhabited

/-- A local of a body, by its position there. -/
structure LocalId where
  num : Nat
deriving DecidableEq, Inhabited

/-- The types of values. -/
inductive Ty where
  | boolean
  | byte
  | char
  | short
  | int
  | long
  | float
  | double
  /-- A class or interface. -/
  | cls (c : ClassId)
  /-- An array of elements of one type. -/
  | array (elem : Ty)
  /-- The type of the null literal. -/
  | null
deriving DecidableEq, Inhabited

/-- Only values of class, array and null type are followed by the analysis. -/
def Ty.isReference : Ty → Bool
  | .cls _ | .array _ | .null => true
  | _ => false

end PointsTo
