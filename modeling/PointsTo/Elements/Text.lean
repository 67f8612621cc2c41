import PointsTo.Elements.Basic

/-!
# Texts of statements and call sites

* `Elements.stmtText` writes a statement with the names of its variables;
* `Elements.siteText` tells a call site by its method, the index of its call and the call itself.
-/

namespace PointsTo.Elements

/-- The name of a variable. -/
def varName (e : Elements) (v : VarId) : String := (e.var v).name

/-- A field with its class and its type. -/
def fieldText (e : Elements) (f : FieldId) : String :=
  let d := e.program.field f
  "<" ++ (e.program.cls d.owner).name ++ ": " ++ e.program.typeName d.ty ++ " " ++ d.name ++ ">"

/-- A call at a call site. -/
def callText (e : Elements) (s : SiteId) (lhs : Option VarId) : String :=
  let site := e.site s
  let result := (lhs.map fun v => e.varName v ++ " = ").getD ""
  let receiver := (site.receiver.map fun v => e.varName v ++ ".").getD ""
  let args := site.args.map fun a => (a.map e.varName).getD "_"
  result ++ site.kind.mnemonic ++ " " ++ receiver ++ e.program.signature site.target ++
    "(" ++ Text.joined ", " args ++ ")"

/-- The text of a statement. -/
def stmtText (e : Elements) (s : StmtId) : String :=
  match (e.stmt s).stmt with
  | .alloc lhs ty => e.varName lhs ++ " = new " ++ e.program.typeName ty
  | .assign lhs rhs => e.varName lhs ++ " = " ++ e.varName rhs
  | .load lhs base f => e.varName lhs ++ " = " ++ e.varName base ++ "." ++ e.fieldText f
  | .store base f rhs => e.varName base ++ "." ++ e.fieldText f ++ " = " ++ e.varName rhs
  | .call site lhs => e.callText site lhs

/-- The index of the call that owns a call site. -/
def siteIndex (e : Elements) (s : SiteId) : Nat :=
  ((e.site s).call.map fun c => (e.stmt c).index).getD 0

/-- The text of a call site. -/
def siteText (e : Elements) (s : SiteId) : String :=
  e.program.signature s.method ++ "[" ++ Text.decimal (e.siteIndex s) ++ "]" ++
    ((e.site s).call.map e.stmtText).getD ""

end PointsTo.Elements
