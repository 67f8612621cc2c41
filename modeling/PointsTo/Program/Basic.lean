import PointsTo.Program.Value
import PointsTo.Signature

/-!
# Programs

A program is three lists of declarations: classes, fields and methods, the methods with their
bodies. A declaration is named by its position, and a position outside a list stands for an empty
declaration.

* `Program.cls`, `Program.field` and `Program.method` look declarations up;
* `Program.methodsOf` and `Program.fieldsOf` are the members of a class in order of declaration;
* `Program.classNamed?` finds a class by its name;
* `Program.signature` is the signature of a method.
-/

namespace PointsTo

/-- A local variable of a body. -/
structure LocalDecl where
  name : String
  ty : Ty
deriving DecidableEq, Inhabited

/-- The body of a method. -/
structure Body where
  /-- The local that holds the receiver. -/
  thisLocal : Option LocalId := none
  /-- The locals that hold the arguments. -/
  paramLocals : List LocalId := []
  locals : List LocalDecl := []
  instructions : List Instruction := []
deriving Inhabited

/-- The declaration of a class or interface. It has no lists of the fields and methods of the class:
these are found by their owners (`Program.fieldsOf`, `Program.methodsOf`). -/
structure ClassDecl where
  name : String
  superclass : Option ClassId := none
  interfaces : List ClassId := []
  isInterface : Bool := false
  isAbstract : Bool := false
deriving DecidableEq, Inhabited

/-- An interface: it has no superclass, and is abstract. -/
def ClassDecl.interface (name : String) (interfaces : List ClassId) : ClassDecl :=
  { name, interfaces, isInterface := true, isAbstract := true }

/-- The declaration of a field. -/
structure FieldDecl where
  owner : ClassId
  name : String
  ty : Ty
  isStatic : Bool := false
deriving DecidableEq, Inhabited

/-- The declaration of a method. -/
structure MethodDecl where
  owner : ClassId
  name : String
  params : List Ty := []
  /-- The type of the result, if there is one. -/
  result : Option Ty := none
  isStatic : Bool := false
  isNative : Bool := false
  isAbstract : Bool := false
  isPrivate : Bool := false
  body : Option Body := none
deriving Inhabited

namespace MethodDecl

/-- Whether the method makes new objects ready for use. -/
def isConstructor (d : MethodDecl) : Bool := d.name == "<init>"

/-- Native and abstract methods have no body, even if one is given. -/
def hasBody (d : MethodDecl) : Bool := !d.isNative && !d.isAbstract

/-- Whether the method returns a reference. -/
def returnsReference (d : MethodDecl) : Bool := d.result.any Ty.isReference

/-- The locals that every body starts with: the receiver and the arguments. -/
def frameLocals (d : MethodDecl) : List LocalDecl :=
  (if d.isStatic then [] else [⟨"this", .cls d.owner⟩]) ++
    d.params.mapIdx fun i ty => ⟨"arg" ++ Text.decimal i, ty⟩

/-- A body that binds the receiver and the arguments to its first locals, before the given
instructions. The given locals come after them. -/
def framedBody (d : MethodDecl) (locals : List LocalDecl) (instructions : List Instruction) :
    Body :=
  let frame := (List.range d.frameLocals.length).map LocalId.mk
  { thisLocal := if d.isStatic then none else some ⟨0⟩
    paramLocals := if d.isStatic then frame else frame.drop 1
    locals := d.frameLocals ++ locals
    instructions := frame.map .identity ++ instructions }

end MethodDecl

/-- A program. -/
structure Program where
  classes : List ClassDecl := []
  fields : List FieldDecl := []
  methods : List MethodDecl := []
deriving Inhabited

namespace Program

/-- The declaration of a class. -/
def cls (p : Program) (c : ClassId) : ClassDecl := p.classes.getD c.num default

/-- The declaration of a field. -/
def field (p : Program) (f : FieldId) : FieldDecl := p.fields.getD f.num default

/-- The declaration of a method. -/
def method (p : Program) (m : MethodId) : MethodDecl := p.methods.getD m.num default

/-- All classes in order of declaration. -/
def classIds (p : Program) : List ClassId := (List.range p.classes.length).map ClassId.mk

/-- The methods of a class in order of declaration. They are found by their owners. A list that is
kept with the class has the same members in the same order, if each method is put at the end of the
list of its owner when it is declared. Which method is the first one with a subsignature
(`Program.IsFirst`) depends on that. -/
def methodsOf (p : Program) (c : ClassId) : List MethodId :=
  ((List.range p.methods.length).map MethodId.mk).filter fun m => (p.method m).owner = c

theorem mem_methodsOf {p : Program} {c : ClassId} {m : MethodId} :
    m ∈ p.methodsOf c ↔ m.num < p.methods.length ∧ (p.method m).owner = c := by
  simp only [methodsOf, List.mem_filter, List.mem_map, List.mem_range, decide_eq_true_iff]
  constructor
  · rintro ⟨⟨n, hn, rfl⟩, howner⟩
    exact ⟨hn, howner⟩
  · rintro ⟨hn, howner⟩
    exact ⟨⟨m.num, hn, rfl⟩, howner⟩

/-- The fields of a class in order of declaration. -/
def fieldsOf (p : Program) (c : ClassId) : List FieldId :=
  ((List.range p.fields.length).map FieldId.mk).filter fun f => (p.field f).owner = c

/-- The class that owns a name: the last one declared with it. -/
def classNamed? (p : Program) (name : String) : Option ClassId :=
  (p.classIds.filter fun c => (p.cls c).name = name).getLast?

/-- The body of a method, if it can have one and has one. -/
def body? (p : Program) (m : MethodId) : Option Body :=
  if (p.method m).hasBody then (p.method m).body else none

/-- The name of a type. -/
def typeName (p : Program) : Ty → String
  | .boolean => "boolean"
  | .byte => "byte"
  | .char => "char"
  | .short => "short"
  | .int => "int"
  | .long => "long"
  | .float => "float"
  | .double => "double"
  | .cls c => (p.cls c).name
  | .array elem => p.typeName elem ++ "[]"
  | .null => "null_type"

/-- The signature of a method. -/
def signatureOf (p : Program) (m : MethodId) : Signature :=
  let d := p.method m
  { owner := (p.cls d.owner).name
    result := (d.result.map p.typeName).getD "void"
    name := d.name
    params := d.params.map p.typeName }

/-- The text of the signature of a method. -/
def signature (p : Program) (m : MethodId) : String := (p.signatureOf m).text

/-- The text of the subsignature of a method. -/
def subsignature (p : Program) (m : MethodId) : String := (p.signatureOf m).sub

end Program

end PointsTo
