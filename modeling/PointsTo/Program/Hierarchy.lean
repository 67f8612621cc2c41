import PointsTo.Program.Basic
import PointsTo.Search

/-!
# The class hierarchy

* `Program.supertypes` are the direct supertypes of a class, `Program.isSubtype` follows them any
  number of times, and so does `Search.seek`, which stops as soon as the supertype comes up;
* `Program.superChain` is a class with its superclasses, `Program.superInterfaces` lists the
  interfaces of that chain breadth first;
* `Program.implementation?` is the first method in this order that implements a subsignature, and
  `Program.dispatch?` finds it for a type;
* `Program.resolve?` finds the method that a signature names.
-/

namespace PointsTo

namespace Search

variable {α : Type} [DecidableEq α]

/-- Looks for `goal`. The nodes in `queue` are taken up one after the other; one that was seen
before is passed over, and what another one leads to is put at the end of the queue. The answer is
given when `goal` comes up or the queue is empty, if that is within `n` steps. -/
def seek (next : α → List α) (goal : α) : (n : Nat) → (queue seen : List α) → Option Bool
  | 0, _, _ => none
  | _ + 1, [], _ => some false
  | n + 1, a :: queue, seen =>
    if a = goal then some true
    else if a ∈ seen then seek next goal n queue seen
    else seek next goal n (queue ++ next a) (a :: seen)

end Search

namespace Program

/-- The direct supertypes of a class: its superclass and its interfaces. -/
def supertypes (p : Program) (c : ClassId) : List ClassId :=
  (p.cls c).superclass.toList ++ (p.cls c).interfaces

/-- How often a class is named as a supertype. No search over supertypes discovers more classes
than this besides those at which it starts. -/
def supertypeCount (p : Program) : Nat :=
  (p.classIds.flatMap p.supertypes).length

/-- Whether `sup` is `sub` or is reached from it through superclasses and interfaces. This is what
`Search.seek` answers, when it starts with `sub` in the queue. -/
def isSubtype (p : Program) (sub sup : ClassId) : Bool :=
  sup ∈ Search.breadthFirst p.supertypes (1 + p.supertypeCount) [sub]

/-- The first `n` classes of the superclass chain of `c`, which starts with `c` itself. -/
def chainFrom (p : Program) : (n : Nat) → (c : ClassId) → List ClassId
  | 0, _ => []
  | n + 1, c =>
    c :: match (p.cls c).superclass with
      | none => []
      | some d => p.chainFrom n d

/-- A class and its superclasses, from the most derived one up. A chain without cycle has at most
one class more than the program declares. -/
def superChain (p : Program) (c : ClassId) : List ClassId :=
  p.chainFrom (p.classes.length + 1) c

/-- The interfaces of a class and of its superclasses with all their super-interfaces, breadth
first. -/
def superInterfaces (p : Program) (c : ClassId) : List ClassId :=
  let starts := (p.superChain c).flatMap fun d => (p.cls d).interfaces
  Search.breadthFirst (fun i => (p.cls i).interfaces) (starts.length + p.supertypeCount) starts

/-- The first method of a class that implements a subsignature: neither abstract nor static. -/
def declared? (p : Program) (sub : String) (c : ClassId) : Option MethodId :=
  (p.methodsOf c).find? fun m =>
    !(p.method m).isAbstract && !(p.method m).isStatic && p.subsignature m = sub

/-- The implementation of a subsignature for the objects of a class: the one of the nearest
superclass that has one, else the one of the first interface that has one. -/
def implementation? (p : Program) (c : ClassId) (sub : String) : Option MethodId :=
  (p.superChain c ++ p.superInterfaces c).findSome? (p.declared? sub)

/-- The class whose methods the objects of a type have. -/
def dispatchClass? (p : Program) : Ty → Option ClassId
  | .cls c => some c
  | .array _ => p.classNamed? "java.lang.Object"
  | _ => none

/-- The implementation of a subsignature for the objects of a type. -/
def dispatch? (p : Program) (t : Ty) (sub : String) : Option MethodId :=
  (p.dispatchClass? t).bind fun c => p.implementation? c sub

/-- The first method with a signature, in the class that owns the name. -/
def resolve? (p : Program) (s : Signature) : Option MethodId :=
  (p.classNamed? s.owner).bind fun c =>
    (p.methodsOf c).find? fun m => p.subsignature m = s.sub

end Program

end PointsTo
