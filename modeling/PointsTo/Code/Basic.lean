import PointsTo.CallKind
import PointsTo.Program.Type

/-!
# Code of methods

The code of a method is what the analysis works on: variables of reference type, and five forms of
statements over them. Everything in it is named by its method and by its position (`slot`) there.

* `VarId`, `StmtId` and `SiteId` name variables, statements and call sites;
* `Stmt` is a statement, `PlacedStmt` a statement with its index in the method;
* `Var` keeps the statements that depend on the objects a variable refers to;
* `Code` is the code of one method, and `Code.addStmt` extends it by a statement.
-/

namespace PointsTo

/-- A variable of a method. -/
structure VarId where
  method : MethodId
  slot : Nat
deriving DecidableEq, Inhabited

/-- A statement of a method. An allocation is also the identity of the objects it makes. -/
structure StmtId where
  method : MethodId
  slot : Nat
deriving DecidableEq, Inhabited

/-- A call site of a method. -/
structure SiteId where
  method : MethodId
  slot : Nat
deriving DecidableEq, Inhabited

/-- A statement. -/
inductive Stmt where
  /-- `lhs` refers to a new object of type `ty`. -/
  | alloc (lhs : VarId) (ty : Ty)
  /-- `lhs = rhs` -/
  | assign (lhs rhs : VarId)
  /-- `lhs = base.f` -/
  | load (lhs base : VarId) (f : FieldId)
  /-- `base.f = rhs` -/
  | store (base : VarId) (f : FieldId) (rhs : VarId)
  /-- A call, whose result goes to `lhs`. -/
  | call (site : SiteId) (lhs : Option VarId)
deriving DecidableEq, Inhabited

/-- How a statement depends on a variable. -/
inductive Role where
  /-- It loads a field of the objects. -/
  | load
  /-- It stores into a field of the objects. -/
  | store
  /-- It calls a method on the objects. -/
  | call
deriving DecidableEq

/-- A variable. -/
structure Var where
  name : String
  ty : Ty
  /-- The local it stands for; none for a variable that was made up. -/
  source : Option LocalId := none
  /-- The loads with this base. -/
  loads : List StmtId := []
  /-- The stores with this base. -/
  stores : List StmtId := []
  /-- The calls with this receiver. -/
  calls : List StmtId := []
deriving DecidableEq, Inhabited

/-- A statement in its place. -/
structure PlacedStmt where
  stmt : Stmt
  /-- The position in the body; synthetic statements are counted after the body. -/
  index : Nat
  /-- Whether the statement was added to the method and is not part of its body. -/
  synthetic : Bool
deriving DecidableEq, Inhabited

/-- A call site. -/
structure CallSite where
  kind : CallKind
  /-- The method that the call names, which need not be the one it reaches. -/
  target : MethodId
  receiver : Option VarId
  /-- One slot for each argument; none for an argument that is no reference. -/
  args : List (Option VarId)
  /-- The statement that owns the call site: the first call on it. -/
  call : Option StmtId := none
deriving DecidableEq, Inhabited

/-- The code of a method. -/
structure Code where
  /-- The variable of the receiver. -/
  this : Option VarId := none
  /-- One slot for each parameter; none for a parameter that is no reference. -/
  params : List (Option VarId) := []
  /-- The variables that the method returns. -/
  returns : List VarId := []
  vars : List Var := []
  stmts : List PlacedStmt := []
  /-- The statements that are not synthetic. -/
  body : List StmtId := []
  sites : List CallSite := []
  /-- The call sites of the body. -/
  bodySites : List SiteId := []
  /-- How many temporaries were named. -/
  temps : Nat := 0
  /-- Whether the body was lowered. -/
  built : Bool := false
deriving DecidableEq, Inhabited

/-- The variable with one more dependent statement. -/
def Var.register (v : Var) (role : Role) (s : StmtId) : Var :=
  match role with
  | .load => { v with loads := v.loads ++ [s] }
  | .store => { v with stores := v.stores ++ [s] }
  | .call => { v with calls := v.calls ++ [s] }

/-- The statements that depend on a variable: loads, stores, then calls. -/
def Var.dependents (v : Var) : List StmtId :=
  v.loads ++ v.stores ++ v.calls

namespace Code

/-- The slot of the variable that stands for a local. -/
def localSlot? (c : Code) (l : LocalId) : Option Nat :=
  c.vars.findIdx? fun v => v.source = some l

/-- The code with one more variable. -/
def pushVar (c : Code) (v : Var) : Code :=
  { c with vars := c.vars ++ [v] }

/-- The code with one more call site. -/
def pushSite (c : Code) (s : CallSite) : Code :=
  { c with sites := c.sites ++ [s] }

/-- The index of the next statement: body statements count the body, synthetic ones count on from
its end. -/
def nextIndex (c : Code) (synthetic : Bool) : Nat :=
  c.body.length + if synthetic then (c.stmts.filter PlacedStmt.synthetic).length else 0

/-- The code of `m` with one more statement in place. -/
def pushStmt (c : Code) (m : MethodId) (s : Stmt) (synthetic : Bool) : Code :=
  { c with
    stmts := c.stmts ++ [⟨s, c.nextIndex synthetic, synthetic⟩]
    body := if synthetic then c.body else c.body ++ [⟨m, c.stmts.length⟩] }

/-- The code in which the statement `s` owns a call site, unless another one does. -/
def bindSite (c : Code) (slot : Nat) (s : StmtId) : Code :=
  { c with sites := c.sites.modify slot fun site =>
      { site with call := site.call <|> some s } }

/-- The code in which the statement `s` depends on a variable. -/
def register (c : Code) (slot : Nat) (role : Role) (s : StmtId) : Code :=
  { c with vars := c.vars.modify slot (·.register role s) }

/-- The receiver of a call site. -/
def receiver? (c : Code) (slot : Nat) : Option VarId :=
  c.sites[slot]?.bind CallSite.receiver

/-- The variable that a statement of this code depends on. -/
def anchor? (c : Code) : Stmt → Option (VarId × Role)
  | .load _ base _ => some (base, .load)
  | .store base _ _ => some (base, .store)
  | .call site _ => (c.receiver? site.slot).map (·, .call)
  | .alloc _ _ | .assign _ _ => none

/-- The code of `m` with one more statement of its body, all parts of which belong to `m`. -/
def addStmt (c : Code) (m : MethodId) (s : Stmt) : Code :=
  let id : StmtId := ⟨m, c.stmts.length⟩
  let bound := match s with
    | .call site _ => c.bindSite site.slot id
    | _ => c
  let known := match bound.anchor? s with
    | some (v, role) => bound.register v.slot role id
    | none => bound
  known.pushStmt m s false

end Code

end PointsTo
