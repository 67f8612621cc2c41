import PointsTo.Decimal.Binary64
import PointsTo.Program.Type
import PointsTo.Text.Quoted

/-!
# Values and instructions

The operands and the instructions of a method body.

* `Value` is an operand, `Invocation` a call with its receiver and arguments;
* `Value.describe` and `Invocation.describe` are the short texts used in messages;
* `Instruction` is one step of a body.
-/

namespace PointsTo

/-- A call of `method` with the instruction `opcode`. -/
structure Invocation (ν : Type) where
  opcode : UInt8
  method : MethodId
  receiver : Option ν
  args : List ν

/-- An operand. -/
inductive Value where
  | local (l : LocalId)
  | null
  | int (i : Int)
  | long (i : Int)
  /-- A binary64 constant, by its bits. -/
  | double (bits : UInt64)
  | string (s : String)
  /-- A class literal. -/
  | classConst (c : ClassId)
  /-- A new object of a class. -/
  | new (c : ClassId)
  | newArray (elem : Ty) (size : Value)
  /-- A field of the object that a local refers to. -/
  | field (base : LocalId) (f : FieldId)
  | staticField (f : FieldId)
  /-- An element of the array that a local refers to. -/
  | element (base : LocalId) (index : Value)
  | invoke (call : Invocation Value)
  | cast (ty : Ty) (v : Value)
  | binop (op : String) (lhs rhs : Value)

instance : Inhabited Value := ⟨.null⟩

open Text in
/-- The short text of an operand. -/
def Value.describe : Value → String
  | .local l => "local#" ++ decimal l.num
  | .null => "null"
  | .int i => signed i
  | .long i => signed i ++ "L"
  | .double bits => Decimal.binary64 bits
  | .string s => quoted s
  | .classConst c => "class#" ++ decimal c.num
  | .new c => "new class#" ++ decimal c.num
  | .newArray _ _ => "newarray"
  | .field base f => "local#" ++ decimal base.num ++ ".field#" ++ decimal f.num
  | .staticField f => "static field#" ++ decimal f.num
  | .element base _ => "local#" ++ decimal base.num ++ "[..]"
  | .invoke ⟨opcode, method, some receiver, _⟩ =>
    "invoke[" ++ byte opcode ++ "] method#" ++ decimal method.num ++ " on " ++ receiver.describe
  | .invoke ⟨opcode, method, none, _⟩ =>
    "invoke[" ++ byte opcode ++ "] method#" ++ decimal method.num
  | .cast _ v => "(cast) " ++ v.describe
  | .binop op lhs rhs => lhs.describe ++ " " ++ op ++ " " ++ rhs.describe

/-- The short text of an invocation. -/
def Invocation.describe (call : Invocation Value) : String :=
  (Value.invoke call).describe

/-- One instruction of a method body. -/
inductive Instruction where
  | assign (lhs rhs : Value)
  /-- Binds the receiver, a parameter or a caught exception to a local. -/
  | identity (l : LocalId)
  | invoke (call : Invocation Value)
  /-- Ends the method, with a value or without one. -/
  | leave (v : Option Value)
  | throw (v : Value)
  | goto (target : Nat)
  | branch (cond : Value) (target : Nat)
  | nop

end PointsTo
