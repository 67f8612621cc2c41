/-!
# Kinds of calls

The opcode of an invocation alone decides its kind (`CallKind.ofOpcode?`), and the kind decides
how the callee is found: static and special calls go to the method they name, virtual and
interface calls are dispatched on the receiver object, dynamic calls are left unresolved.
-/

namespace PointsTo

/-- How a call finds its callee. -/
inductive CallKind where
  /-- A call of a static method, without receiver. -/
  | static
  /-- A private, superclass or constructor call, bound to the method it names. -/
  | special
  /-- A call dispatched on the class of the receiver. -/
  | virtual
  /-- A dispatched call through an interface. -/
  | interface
  /-- A call whose target is chosen outside the analysis. -/
  | dynamic
deriving DecidableEq, Inhabited

namespace CallKind

/-- The kind of an invocation with the given opcode. -/
def ofOpcode? (opcode : UInt8) : Option CallKind :=
  if opcode = 0xb6 then some .virtual
  else if opcode = 0xb7 then some .special
  else if opcode = 0xb8 then some .static
  else if opcode = 0xb9 then some .interface
  else if opcode = 0xba then some .dynamic
  else none

/-- The name of the instruction that makes such calls. -/
def mnemonic : CallKind → String
  | .static => "invokestatic"
  | .special => "invokespecial"
  | .virtual => "invokevirtual"
  | .interface => "invokeinterface"
  | .dynamic => "invokedynamic"

/-- Whether the callee depends on the receiver object. -/
def isDispatched : CallKind → Bool
  | .virtual | .interface => true
  | _ => false

end CallKind

end PointsTo
