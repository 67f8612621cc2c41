import PointsTo.Labels
import PointsTo.Plugin.Basic
import PointsTo.Plugin.Template

/-!
# Models of methods

A model puts generated statements in the place of calls to library methods. The handled methods are
ignored by the solver. When a method with calls to them becomes reachable, the handlers turn each
call into statements, once; these are then injected into every context of the method.

* `Model.register` gives methods a handler;
* `Model.plugin` is the plugin.
-/

namespace PointsTo

/-- Makes the statements that model the call at a call site. -/
abbrev Handler := SiteId → Script (List Stmt)

/-- A model: a name and the methods that it stands in for. -/
structure Model where
  name : String
  /-- The handled methods with their handlers. -/
  handlers : Table MethodId Handler := ∅

/-- A call that was modelled, with the statements that were generated for it. -/
structure ModelledCall where
  call : StmtId
  /-- The method that makes the call. -/
  container : MethodId
  generated : List StmtId

namespace Model

/-- Gives the methods that signatures name a handler. Signatures of no method of the program are
passed over. The first signature that is malformed, or names a method with a handler, is an error;
the methods before it keep the handler. -/
def register (m : Model) (h : Handler) :
    List String → Elements → Except Error Unit × Model × Elements
  | [], e => (.ok (), m, e)
  | s :: rest, e =>
    match e.resolve s with
    | (.error err, e) => (.error err, m, e)
    | (.ok none, e) =>
      m.register h rest (e.tell .debug (m.name ++ ": " ++ s ++ " is not in the program, skip it"))
    | (.ok (some method), e) =>
      if m.handlers.contains method then (.error (.duplicateHandler m.name s), m, e)
      else { m with handlers := m.handlers.insert method h }.register h rest e

/-- The handler for the call at a call site. Dynamic calls have none. -/
def handler? (m : Model) (e : Elements) (s : SiteId) : Option Handler :=
  let site := e.site s
  if site.kind = .dynamic then none else m.handlers.find? site.target

/-- The statements generated for calls in a method, in order. -/
def generatedIn (calls : List ModelledCall) (m : MethodId) : List StmtId :=
  (calls.filter fun c => c.container = m).flatMap ModelledCall.generated

/-- Models a statement, if it is a call with a handler. -/
def modelStmt (m : Model) (s : StmtId) (container : MethodId) (calls : List ModelledCall) :
    Script (List ModelledCall) := do
  let e ← Script.elements
  match (e.stmt s).stmt with
  | .call site _ =>
    match m.handler? e site with
    | some h =>
      let generated ← addSynthetic container (← h site)
      return calls ++ [⟨s, container, generated⟩]
    | none => return calls
  | _ => return calls

/-- Has the solver ignore the methods. -/
def ignoreAll {α : Type} (ms : List MethodId) (next : Hook α) : Hook α :=
  ms.foldr .ignore next

/-- What a model does on an event. -/
def react (m : Model) : Event → List ModelledCall → Hook (List ModelledCall)
  | .start, calls => ignoreAll m.handlers.keys (.done calls)
  | .newStmt s container, calls => .ofScript (m.modelStmt s container calls)
  | .newCtxMethod c, calls => .inject c (generatedIn calls c.method) (.done calls)
  | _, calls => .done calls

/-- The plugin of a model. -/
def plugin (m : Model) : Plugin := ⟨List ModelledCall, [], m.react⟩

/-- The lines that tell what was generated, methods in the order of the program. -/
def report (m : Model) (e : Elements) (calls : List ModelledCall) : List String :=
  let methods := sortedById (calls.map ModelledCall.container).eraseDups
  (methods.flatMap (generatedIn calls)).map fun s =>
    m.name ++ ": generated " ++ e.stmtLabel s ++ " " ++ e.stmtText s

/-- The plugin of a model that reports to the journal at the end. -/
def reportingPlugin (m : Model) : Plugin where
  Memory := List ModelledCall
  memory := []
  react
    | .finish, calls => .look fun v =>
      (m.report v.analysis.elements calls).foldr .note (.done calls)
    | e, calls => m.react e calls

end Model

end PointsTo
