import PointsTo.Code.Basic
import PointsTo.Error
import PointsTo.Log
import PointsTo.Program.Basic

/-!
# Lowering of bodies

The body of a method is lowered to code in one pass: first the receiver and the parameters get
their variables, then each instruction yields at most one statement. Instructions that the
analysis does not follow are skipped; a value in a place where it makes no sense stops the pass,
and what was made up to then stays.

Lowering only touches the code of its own method. What it needs from the tables of the analysis
it mentions (`Mention`), in order, and what it has to tell goes to the log.

* `Draft` is the code in the making, `Drafting` and `Lower` are the steps that work on it, the
  latter with errors;
* `Drafting.localVar`, `Drafting.temp` and `Drafting.addCall` make variables and calls;
* `Lower.instruction` lowers one instruction, `Lower.method` a whole method.
-/

namespace PointsTo

/-- An entity of the program that the code refers to. -/
inductive Mention where
  | type (t : Ty)
  | method (m : MethodId)
  | field (f : FieldId)
deriving DecidableEq

/-- What a statement refers to besides variables and its call site. -/
def Stmt.mentions : Stmt → List Mention
  | .alloc _ ty => [.type ty]
  | .load _ _ f | .store _ f _ => [.field f]
  | .assign _ _ | .call _ _ => []

/-- The code of a method in the making. -/
structure Draft where
  code : Code
  /-- What the code refers to, in order. -/
  mentions : List Mention := []
  /-- What there is to tell, in order. -/
  messages : Log := []

/-- A step in the making of code. -/
abbrev Drafting := StateM Draft

/-- A step that may fail; what was made before the failure stays. -/
abbrev Lower := ExceptT Error Drafting

namespace Drafting

/-- Refers to an entity of the program. -/
def mention (x : Mention) : Drafting Unit :=
  modify fun d => { d with mentions := d.mentions ++ [x] }

/-- Writes to the log. -/
def tell (level : Level) (text : String) : Drafting Unit :=
  modify fun d => { d with messages := d.messages ++ [⟨level, text⟩] }

/-- Changes the code. -/
def edit (f : Code → Code) : Drafting Unit :=
  modify fun d => { d with code := f d.code }

variable (m : MethodId)

/-- A new variable of `m`. -/
def newVar (name : String) (ty : Ty) (source : Option LocalId) : Drafting VarId := do
  mention (.type ty)
  let slot := (← get).code.vars.length
  edit (·.pushVar { name, ty, source })
  return ⟨m, slot⟩

/-- A new temporary of `m`, named by `base` and a number that grows with each of them. -/
def temp (base : String) (ty : Ty) : Drafting VarId := do
  edit fun c => { c with temps := c.temps + 1 }
  newVar m (base ++ Text.decimal (← get).code.temps) ty none

/-- The variable for a local; none if the local holds no reference. -/
def localVar (l : LocalId) (decl : LocalDecl) : Drafting (Option VarId) := do
  if decl.ty.isReference then
    match (← get).code.localSlot? l with
    | some slot => return some ⟨m, slot⟩
    | none => return some (← newVar m decl.name decl.ty (some l))
  else return none

/-- A new call site of `m`. -/
def newSite (kind : CallKind) (target : MethodId) (receiver : Option VarId)
    (args : List (Option VarId)) : Drafting SiteId := do
  mention (.method target)
  let slot := (← get).code.sites.length
  edit (·.pushSite { kind, target, receiver, args })
  return ⟨m, slot⟩

/-- Adds a statement to the body of `m`. -/
def addStmt (s : Stmt) : Drafting Unit := do
  s.mentions.forM mention
  edit (·.addStmt m s)

/-- Adds a call to the body of `m`, with a call site of its own. -/
def addCall (kind : CallKind) (target : MethodId) (receiver : Option VarId)
    (args : List (Option VarId)) (lhs : Option VarId) : Drafting Unit := do
  let site ← newSite m kind target receiver args
  addStmt m (.call site lhs)
  edit fun c => { c with bodySites := c.bodySites ++ [site] }

end Drafting

namespace Lower

open Drafting

variable (p : Program) (m : MethodId) (b : Body)

/-- The error for a value in a place where it cannot be handled. -/
def reject {α : Type} (v : Value) : Lower α :=
  throw (.lowering v.describe (p.signature m))

/-- Passes over a value that the analysis does not follow. -/
def skip (v : Value) : Lower Unit :=
  tell .trace ("unsupported value " ++ v.describe ++ " in " ++ p.signature m ++ ", skipped")

/-- The variable of a local of the body. -/
def localVar (l : LocalId) : Lower (Option VarId) :=
  match b.locals[l.num]? with
  | some decl => Drafting.localVar m l decl
  | none => reject p m (.local l)

/-- The variable of a local that must hold a reference. -/
def base (l : LocalId) : Lower VarId := do
  match ← localVar p m b l with
  | some v => return v
  | none => reject p m (.local l)

/-- The variable of an operand. The null literal gets a temporary; numbers, strings and class
literals have no variable. -/
def operand (v : Value) : Lower (Option VarId) :=
  match v with
  | .local l => localVar p m b l
  | .null => do return some (← temp m "null$" .null)
  | .int _ | .long _ | .double _ => return none
  | .string _ | .classConst _ => do
    tell .trace ("skipping constant operand " ++ v.describe)
    return none
  | _ => reject p m v

/-- Lowers an invocation whose result goes to `lhs`. -/
def call (i : Invocation Value) (lhs : Option VarId) : Lower Unit := do
  match CallKind.ofOpcode? i.opcode with
  | none => throw (.classification i.describe i.opcode (p.signature m))
  | some kind =>
    mention (.method i.method)
    let receiver ← match i.receiver with
      | some v => operand p m b v
      | none => pure none
    let args ← i.args.mapM (operand p m b)
    addCall m kind i.method receiver args lhs

/-- Lowers an assignment of `rhs` to the local `l`. -/
def assignLocal (l : LocalId) (rhs : Value) : Lower Unit := do
  let lhs ← localVar p m b l
  match rhs with
  | .new c =>
    if let some lhs := lhs then
      addStmt m (.alloc lhs (.cls c))
  | .local r =>
    let rhs ← localVar p m b r
    if let (some lhs, some rhs) := (lhs, rhs) then
      addStmt m (.assign lhs rhs)
  | .field r f =>
    let base ← base p m b r
    if let some lhs := lhs then
      addStmt m (.load lhs base f)
  | .invoke i => call p m b i lhs
  | _ => skip p m rhs

/-- Lowers an assignment of `rhs` to a field of the objects of a local. -/
def assignField (l : LocalId) (f : FieldId) (rhs : Value) : Lower Unit := do
  let base ← base p m b l
  if let some rhs := ← operand p m b rhs then
    addStmt m (.store base f rhs)

/-- Lowers a return: each returned variable is listed once. -/
def leave (v : Value) : Lower Unit := do
  if (p.method m).returnsReference then
    if let some v := ← operand p m b v then
      edit fun c => { c with returns := if v ∈ c.returns then c.returns else c.returns ++ [v] }

/-- Lowers one instruction. -/
def instruction : Instruction → Lower Unit
  | .assign (.local l) rhs => assignLocal p m b l rhs
  | .assign (.field l f) rhs => assignField p m b l f rhs
  | .assign lhs@(.staticField _) _ | .assign lhs@(.element _ _) _ => skip p m lhs
  | .assign lhs _ => reject p m lhs
  | .invoke i => call p m b i none
  | .leave (some v) => leave p m b v
  | .leave none | .identity _ | .throw _ | .goto _ | .branch _ _ | .nop => return

/-- Lowers a body. -/
def body : Lower Unit := do
  if let some l := b.thisLocal then
    let this ← localVar p m b l
    edit fun c => { c with this }
  let params ← b.paramLocals.mapM (localVar p m b)
  edit fun c => { c with params }
  b.instructions.forM (instruction p m b)

/-- Makes up the variables of a method without body: the receiver, the parameters and the result,
as far as they are references. -/
def bodiless : Lower Unit := do
  let d := p.method m
  if !d.isStatic then
    let this ← newVar m "@this" (.cls d.owner) none
    edit fun c => { c with this := some this }
  let params ← (d.params.mapIdx fun i ty => (i, ty)).mapM fun (i, ty) => do
    if ty.isReference then
      return some (← newVar m ("@parameter" ++ Text.decimal i) ty none)
    else return none
  edit fun c => { c with params }
  if let some ty := d.result then
    if ty.isReference then
      let result ← newVar m "@return" ty none
      edit fun c => { c with returns := c.returns ++ [result] }

/-- Lowers a method. -/
def method : Lower Unit := do
  match p.body? m with
  | some b => body p m b
  | none =>
    if (p.method m).hasBody then
      tell .warn ("no body available for " ++ p.signature m ++ ", treating it as opaque")
    bodiless p m

end Lower

end PointsTo
