import PointsTo.Plugin.Basic
import PointsTo.Plugin.Recorder
import PointsTo.Plugin.Template

/-!
# Ignoring methods and injecting statements

* `ignorer` has the solver ignore methods from the start;
* `Injector` injects the statements of a template whenever an event of a certain kind happens.
-/

namespace PointsTo

/-- The plugin that has the solver ignore the methods of some signatures. Signatures of no method
are passed over. -/
def ignorer (signatures : List String) : Plugin where
  Memory := Unit
  memory := ()
  react
    | .start, _ => signatures.forM fun s => do
      match ← Script.request (.resolve s) with
      | .ok (some m) => Hook.ignore m (.done ())
      | _ => return
    | _, _ => .done ()

/-- Injects statements when events of a kind happen. -/
structure Injector where
  kind : EventKind
  /-- Events in other methods are passed over. -/
  method : Option MethodId
  template : Template
  /-- Whether the statements are injected again when the same event happens again. -/
  again : Bool
  /-- Name base and type of a temporary that is made before the statements. -/
  pre : Option (String × Ty)

namespace Injector

/-- The memory of an injector. -/
structure Memory where
  /-- The statements that were made, by method and call. -/
  expanded : Table (MethodId × Option SiteId) (List StmtId) := ∅
  /-- Where statements were injected. -/
  injected : OrderedSet (CtxMethod × Option SiteId) := ∅

/-- Where an event happens: a method in a context, and the call if there is one. Of statements only
calls count. -/
def place? (i : Injector) (e : Elements) : Event → Option (CtxMethod × Option SiteId)
  | .start | .finish => i.method.map fun m => (⟨[], m⟩, none)
  | .newMethod m => some (⟨[], m⟩, none)
  | .newStmt s m =>
    match (e.stmt s).stmt with
    | .call site _ => some (⟨[], m⟩, some site)
    | _ => none
  | .newCtxMethod m => some (m, none)
  | .newPointsTo ctx v _ => some (⟨ctx, v.method⟩, none)
  | .newCallEdge x => some (⟨x.site.ctx, x.site.site.method⟩, some x.site.site)
  | .unresolvedCall s => some (⟨s.ctx, s.site.method⟩, some s.site)

/-- Makes the statements for a method and a call. -/
def expand (i : Injector) (m : MethodId) (site : Option SiteId) : Script (List StmtId) := do
  let bindings : Bindings ← match i.pre with
    | some (base, ty) =>
      let v ← Script.request (.temp m base ty)
      pure [("pre", v)]
    | none => pure []
  addSynthetic m (← Template.expand m site bindings i.template)

/-- The statements for a method and a call, which are made once. -/
def stmtsFor (i : Injector) (m : MethodId) (site : Option SiteId) (memory : Memory) :
    Script (List StmtId × Memory) := do
  match memory.expanded.find? (m, site) with
  | some stmts => return (stmts, memory)
  | none =>
    let stmts ← i.expand m site
    return (stmts, { memory with expanded := memory.expanded.insert (m, site) stmts })

/-- What an injector does on an event. -/
def react (i : Injector) (e : Event) (memory : Memory) : Hook Memory := do
  if e.kind ≠ i.kind then return memory
  match i.place? (← Hook.view).analysis.elements e with
  | none => return memory
  | some (m, site) =>
    if i.method.any (· ≠ m.method) then return memory
    let (stmts, memory) ← Hook.ofScript (i.stmtsFor m.method site memory)
    if !i.again && (m, site) ∈ memory.injected then return memory
    Hook.inject m stmts (.done { memory with injected := memory.injected.insert (m, site) })

/-- The plugin of an injector. -/
def plugin (i : Injector) : Plugin := ⟨Memory, {}, i.react⟩

end Injector

end PointsTo
