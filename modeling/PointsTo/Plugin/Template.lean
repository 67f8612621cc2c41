import PointsTo.Elements.Request

/-!
# Statement templates

A template describes statements for a method, in terms of the call that gave rise to them and of
variables of the method. `Template.expand` makes the statements; one whose variables do not exist is
left out.
-/

namespace PointsTo

/-- How a template names a variable. -/
inductive VarRef where
  /-- The result of the call. -/
  | result
  /-- The receiver of the call. -/
  | receiver
  /-- An argument of the call. -/
  | arg (i : Nat)
  /-- The receiver of the method. -/
  | this
  /-- A parameter of the method. -/
  | param (i : Nat)
  /-- A variable that the method returns. -/
  | return (i : Nat)
  /-- A temporary that the template has made. -/
  | bound (name : String)
  /-- The variable of the method with a name. -/
  | named (name : String)
deriving DecidableEq

/-- Reads the name of a variable in a template. -/
def VarRef.read? (s : String) : Option VarRef :=
  match s.toList with
  | '$' :: name => some (.bound (String.ofList name))
  | '=' :: name => some (.named (String.ofList name))
  | cs =>
    let numbered (word : String) : Option Nat := (Text.after? word.toList cs).bind Text.number?
    match s, numbered "arg", numbered "param", numbered "ret" with
    | "lhs", _, _, _ => some .result
    | "recv", _, _, _ => some .receiver
    | "this", _, _, _ => some .this
    | _, some i, _, _ => some (.arg i)
    | _, _, some i, _ => some (.param i)
    | _, _, _, some i => some (.return i)
    | _, _, _, _ => none

/-- One item of a template. A variable may be left open. -/
inductive TemplateItem where
  /-- Makes a temporary. -/
  | temp (name base : String) (ty : Ty)
  | alloc (lhs : Option VarRef) (ty : Ty)
  | assign (lhs rhs : Option VarRef)
  | load (lhs base : Option VarRef) (f : FieldId)
  | store (base : Option VarRef) (f : FieldId) (rhs : Option VarRef)
  /-- A call with a call site of its own. -/
  | call (kind : CallKind) (target : MethodId) (receiver : Option VarRef)
      (args : List (Option VarRef)) (lhs : Option VarRef)
  /-- Another call on the call site that gave rise to the statements. -/
  | callAgain (lhs : Option VarRef)

/-- A template. -/
abbrev Template := List TemplateItem

/-- The temporaries that a template has made, the last one first. -/
abbrev Bindings := List (String × VarId)

namespace Template

/-- The variable that a template names, in a method and for a call. -/
def resolve (e : Elements) (m : MethodId) (site : Option SiteId) (bindings : Bindings) :
    VarRef → Option VarId
  | .result => site.bind e.result?
  | .receiver => site.bind fun s => (e.site s).receiver
  | .arg i => site.bind fun s => ((e.site s).args[i]?).join
  | .this => (e.code m).this
  | .param i => ((e.code m).params[i]?).join
  | .return i => (e.code m).returns[i]?
  | .bound name => bindings.lookup name
  | .named name => e.varNamed? m name

/-- The statements of one item, and the temporaries after it. -/
def expandItem (m : MethodId) (site : Option SiteId) (bindings : Bindings) (item : TemplateItem) :
    Script (List Stmt × Bindings) := do
  let e ← Script.elements
  let var (r : Option VarRef) : Option VarId := r.bind (resolve e m site bindings)
  match item with
  | .temp name base ty =>
    let v ← Script.request (.temp m base ty)
    return ([], (name, v) :: bindings)
  | .alloc lhs ty =>
    match var lhs with
    | some lhs =>
      Script.request (.type ty)
      return ([.alloc lhs ty], bindings)
    | none => return ([], bindings)
  | .assign lhs rhs =>
    match var lhs, var rhs with
    | some lhs, some rhs => return ([.assign lhs rhs], bindings)
    | _, _ => return ([], bindings)
  | .load lhs base f =>
    match var lhs, var base with
    | some lhs, some base =>
      Script.request (.field f)
      return ([.load lhs base f], bindings)
    | _, _ => return ([], bindings)
  | .store base f rhs =>
    match var base, var rhs with
    | some base, some rhs =>
      Script.request (.field f)
      return ([.store base f rhs], bindings)
    | _, _ => return ([], bindings)
  | .call kind target receiver args lhs =>
    let s ← Script.request (.newSite m kind target (var receiver) (args.map var))
    return ([.call s (var lhs)], bindings)
  | .callAgain lhs => return ((site.map fun s => .call s (var lhs)).toList, bindings)

/-- The statements of a template, in order. -/
def expand (m : MethodId) (site : Option SiteId) : Bindings → Template → Script (List Stmt)
  | _, [] => return []
  | bindings, item :: rest => do
    let (stmts, bindings) ← expandItem m site bindings item
    return stmts ++ (← expand m site bindings rest)

end Template

/-- Adds statements to a method that are not part of its body. -/
def addSynthetic (m : MethodId) (stmts : List Stmt) : Script (List StmtId) :=
  stmts.mapM fun s => Script.request (.addStmt m s true)

end PointsTo
