import PointsTo.Code.Lowering
import PointsTo.OrderedSet
import PointsTo.Program.Hierarchy
import PointsTo.Table

/-!
# Element tables

The tables of one analysis: the types, methods and fields of the program that it has come across,
with the code of each method. Entries are only ever added, and each table numbers its entries in
order of creation.

* `Elements.addType`, `Elements.addMethod` and `Elements.addField` enter an entity once;
* `Elements.draft` runs a step on the code of a method and enters what it mentions; variables,
  temporaries and call sites are made with it;
* `Elements.addStmt` adds a statement, and `Elements.place` notes it with the variable that it
  depends on;
* `Elements.lower` lowers the body of a method when it is first asked for;
* `Elements.resolve` and `Elements.dispatch` find methods and enter them, the latter with a memo.
-/

namespace PointsTo

/-- The tables of one analysis. -/
structure Elements where
  program : Program
  types : OrderedSet Ty := ∅
  /-- The methods with their code. -/
  methods : Table MethodId Code := ∅
  fields : OrderedSet FieldId := ∅
  /-- The variables of all methods in order of creation. -/
  vars : List VarId := []
  /-- The statements of all methods in order of creation. -/
  stmts : List StmtId := []
  /-- The call sites of all methods in order of creation. -/
  sites : List SiteId := []
  /-- The answers that `Elements.dispatch` gave. -/
  dispatched : Table (Ty × String) (Option MethodId) := ∅
  /-- The log of the analysis. -/
  log : Log := []

namespace Elements

/-! ### Looking up -/

/-- The code of a method. -/
def code (e : Elements) (m : MethodId) : Code := e.methods.get m

/-- A variable. -/
def var (e : Elements) (v : VarId) : Var := (e.code v.method).vars.getD v.slot default

/-- A statement in its place, if there is one of that name. -/
def stmt? (e : Elements) (s : StmtId) : Option PlacedStmt := (e.code s.method).stmts[s.slot]?

/-- A statement in its place. -/
def stmt (e : Elements) (s : StmtId) : PlacedStmt := (e.stmt? s).getD default

/-- A call site, if there is one of that name. -/
def site? (e : Elements) (s : SiteId) : Option CallSite := (e.code s.method).sites[s.slot]?

/-- A call site. -/
def site (e : Elements) (s : SiteId) : CallSite := (e.code s.method).sites.getD s.slot default

/-- Whether the body of a method was lowered. -/
def isBuilt (e : Elements) (m : MethodId) : Bool := (e.code m).built

/-- The variable that receives the result of the calls at a call site. -/
def result? (e : Elements) (s : SiteId) : Option VarId :=
  match (e.site s).call.map fun c => (e.stmt c).stmt with
  | some (.call _ lhs) => lhs
  | _ => none

/-- The first variable of a method with a name. -/
def varNamed? (e : Elements) (m : MethodId) (name : String) : Option VarId :=
  ((e.code m).vars.findIdx? fun v => v.name = name).map fun slot => ⟨m, slot⟩

/-- The first method in the tables with a signature. -/
def methodWith? (e : Elements) (signature : String) : Option MethodId :=
  e.methods.keys.find? fun m => e.program.signature m = signature

/-! ### Entering entities of the program -/

/-- Enters a type. -/
def addType (e : Elements) (t : Ty) : Elements :=
  { e with types := e.types.insert t }

/-- Enters a method, after the type of its class. -/
def addMethod (e : Elements) (m : MethodId) : Elements :=
  if e.methods.contains m then e
  else
    let e := e.addType (.cls (e.program.method m).owner)
    { e with methods := e.methods.insert m {} }

/-- Enters a field, after the type of its class and its own type. -/
def addField (e : Elements) (f : FieldId) : Elements :=
  if f ∈ e.fields then e
  else
    let d := e.program.field f
    let e := (e.addType (.cls d.owner)).addType d.ty
    { e with fields := e.fields.insert f }

/-- Enters what code refers to. -/
def mention (e : Elements) : Mention → Elements
  | .type t => e.addType t
  | .method m => e.addMethod m
  | .field f => e.addField f

/-! ### Code -/

/-- Changes the code of a method. -/
def modifyCode (e : Elements) (m : MethodId) (f : Code → Code) : Elements :=
  { e with methods := e.methods.modify m f }

/-- The slots from `lo` up to `hi`. -/
def slots (lo hi : Nat) : List Nat := (List.range (hi - lo)).map (lo + ·)

/-- The tables after the code of a method was replaced by a draft that extends it. -/
def install (e : Elements) (m : MethodId) (d : Draft) : Elements :=
  let old := e.code m
  let e := (d.mentions.foldl mention e).modifyCode m fun _ => d.code
  { e with
    vars := e.vars ++ (slots old.vars.length d.code.vars.length).map (VarId.mk m)
    stmts := e.stmts ++ (slots old.stmts.length d.code.stmts.length).map (StmtId.mk m)
    sites := e.sites ++ (slots old.sites.length d.code.sites.length).map (SiteId.mk m)
    log := e.log ++ d.messages }

/-- Runs a step on the code of a method, which is entered first. -/
def draft {α : Type} (e : Elements) (m : MethodId) (x : Drafting α) : α × Elements :=
  let e := e.addMethod m
  let r := x { code := e.code m }
  (r.1, e.install m r.2)

/-- The variable of `m` for a local; none if the local holds no reference. -/
def localVar (e : Elements) (m : MethodId) (l : LocalId) (decl : LocalDecl) :
    Option VarId × Elements :=
  e.draft m (Drafting.localVar m l decl)

/-- A new variable of `m`. -/
def newVar (e : Elements) (m : MethodId) (name : String) (ty : Ty) : VarId × Elements :=
  e.draft m (Drafting.newVar m name ty none)

/-- A new temporary of `m`. -/
def temp (e : Elements) (m : MethodId) (base : String) (ty : Ty) : VarId × Elements :=
  e.draft m (Drafting.temp m base ty)

/-- A new call site of `m`, without a call on it. -/
def newSite (e : Elements) (m : MethodId) (kind : CallKind) (target : MethodId)
    (receiver : Option VarId) (args : List (Option VarId)) : SiteId × Elements :=
  e.draft m (Drafting.newSite m kind target receiver args)

/-- The variable that a statement depends on. -/
def anchor? (e : Elements) : Stmt → Option (VarId × Role)
  | .load _ base _ => some (base, .load)
  | .store base _ _ => some (base, .store)
  | .call site _ => (e.site site).receiver.map (·, .call)
  | .alloc _ _ | .assign _ _ => none

/-- Whether the call site that a statement is about is there. -/
def admits (e : Elements) : Stmt → Bool
  | .call site _ => (e.site? site).isSome
  | .alloc _ _ | .assign _ _ | .load _ _ _ | .store _ _ _ => true

/-- Has the statement `s`, named `id`, own its call site if it is a call and no other one does. -/
def own (e : Elements) (s : Stmt) (id : StmtId) : Elements :=
  match s with
  | .call site _ => e.modifyCode site.method (·.bindSite site.slot id)
  | .alloc _ _ | .assign _ _ | .load _ _ _ | .store _ _ _ => e

/-- Notes the statement `s`, named `id`, with the variable that it depends on. -/
def note (e : Elements) (s : Stmt) (id : StmtId) : Elements :=
  match e.anchor? s with
  | some (v, role) => e.modifyCode v.method (·.register v.slot role id)
  | none => e

/-- Puts a statement of `m` in its place. The first call on a call site owns it. A statement of the
body is noted with the variable that it depends on; a synthetic one is not. -/
def place (e : Elements) (m : MethodId) (s : Stmt) (synthetic : Bool) : Elements :=
  let id : StmtId := ⟨m, (e.code m).stmts.length⟩
  let owned := e.own s id
  let noted := if synthetic then owned else owned.note s id
  let placed := noted.modifyCode m (·.pushStmt m s synthetic)
  { placed with stmts := placed.stmts ++ [id] }

/-- Adds a statement to `m`. A call on a call site that is not there is left out. -/
def addStmt (e : Elements) (m : MethodId) (s : Stmt) (synthetic : Bool) : StmtId × Elements :=
  let e := s.mentions.foldl mention (e.addMethod m)
  (⟨m, (e.code m).stmts.length⟩, if e.admits s then e.place m s synthetic else e)

/-- Adds a call to `m`, with a call site of its own. -/
def addCall (e : Elements) (m : MethodId) (kind : CallKind) (target : MethodId)
    (receiver : Option VarId) (args : List (Option VarId)) (lhs : Option VarId)
    (synthetic : Bool) : StmtId × Elements :=
  let site := e.newSite m kind target receiver args
  let call := site.2.addStmt m (.call site.1 lhs) synthetic
  if synthetic then call
  else (call.1, call.2.modifyCode m fun c => { c with bodySites := c.bodySites ++ [site.1] })

/-- Lowers the body of a method, unless that was done before. When lowering fails, the method
counts as lowered all the same, with the code made up to then. -/
def lower (e : Elements) (m : MethodId) : Except Error Unit × Elements :=
  let e := e.addMethod m
  if e.isBuilt m then (.ok (), e)
  else
    let e := e.modifyCode m fun c => { c with built := true }
    e.draft m (Lower.method e.program m).run

/-! ### Finding methods -/

/-- The method that a signature names, which is entered. -/
def resolve (e : Elements) (signature : String) : Except Error (Option MethodId) × Elements :=
  match Signature.parse signature with
  | .error err => (.error err, e)
  | .ok s =>
    match e.program.resolve? s with
    | none => (.ok none, e)
    | some m => (.ok (some m), e.addMethod m)

/-- The implementation of a subsignature for the objects of a type; both are entered. -/
def dispatch (e : Elements) (t : Ty) (sub : String) : Option MethodId × Elements :=
  let e := e.addType t
  match e.dispatched.find? (t, sub) with
  | some answer => (answer, e)
  | none =>
    let answer := e.program.dispatch? t sub
    let e := match answer with
      | some m => e.addMethod m
      | none => e
    (answer, { e with dispatched := e.dispatched.insert (t, sub) answer })

/-- Writes to the log. -/
def tell (e : Elements) (level : Level) (text : String) : Elements :=
  { e with log := e.log ++ [⟨level, text⟩] }

end Elements

end PointsTo
