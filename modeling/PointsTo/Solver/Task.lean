import PointsTo.Plugin.Basic
import PointsTo.Solver.Core

/-!
# Tasks of the solver

The work of the solver is cut into tasks. A task changes the state and may call for further tasks,
which are done next, or fail. Announcements to plugins are tasks, too: by themselves they change
nothing.

* `Task` are the tasks;
* `Core.perform` carries one out.
-/

namespace PointsTo

/-- A piece of work. -/
inductive Task where
  /-- Starts the run, unless it has started. -/
  | begin
  /-- Makes a method reachable in a context. -/
  | reach (m : CtxMethod)
  /-- Lists a method among the entries of the call graph. -/
  | enter (m : CtxMethod)
  /-- Adds the effects of a statement in a context. -/
  | exec (m : CtxMethod) (s : StmtId) (injected : Bool)
  /-- Applies a statement to new objects of the variable that it depends on. -/
  | react (m : CtxMethod) (s : StmtId) (os : PointsToSet)
  /-- Finds the callee of a dispatched call on a receiver object. -/
  | dispatch (caller : CtxMethod) (s : CtxSite) (receiver : Obj)
  /-- Applies all statements that depend on a variable to its new objects. -/
  | wake (ctx : Context) (v : VarId) (delta : PointsToSet)
  /-- Takes up the next item of the worklist, if there is one. -/
  | next
  /-- Takes up items until the worklist is empty. -/
  | drain
  /-- Records a call edge whose callee is reachable. -/
  | record (caller : CtxMethod) (e : CtxEdge)
  /-- Binds arguments and results along a call edge. -/
  | bind (e : CtxEdge)
  /-- Tells the plugins. -/
  | announce (e : Event)
  /-- Writes the statistics to the log. -/
  | statistics

namespace Core

/-- The outcome of a task: the state, and either an error or what is to be done next. -/
abbrev Outcome := Core × Except Error (List Task)

/-- Ends a task and calls for further ones. -/
def proceed (c : Core) (ts : List Task) : Outcome := (c, .ok ts)

/-- Lowers a method first. -/
def lowering (c : Core) (m : MethodId) (k : Core → Outcome) : Outcome :=
  match c.lower m with
  | (.ok (), c) => k c
  | (.error e, c) => (c, .error e)

/-- Starts the run: the entries become reachable one after the other. -/
def begin (c : Core) : Outcome :=
  if c.started then c.proceed []
  else
    { c with started := true }.proceed
      (.announce .start :: c.entries.flatMap fun m => [.reach ⟨[], m⟩, .enter ⟨[], m⟩])

/-- The announcements for a method that is reachable for the first time. -/
def introduction (m : MethodId) (body : List StmtId) : List Task :=
  .announce (.newMethod m) :: body.map fun s => .announce (.newStmt s m)

/-- Makes a method reachable in a context: its body is lowered and run there. The body of an ignored
method is left alone. -/
def reach (c : Core) (m : CtxMethod) : Outcome :=
  if c.analysis.calls.contains m then c.proceed []
  else
    let c := c.modifyCalls (·.addMethod m)
    let signature := c.program.signature m.method
    if m.method ∈ c.ignored then
      (c.tell .debug (signature ++ " is ignored, its body is not analyzed")).proceed []
    else
      c.lowering m.method fun c =>
        let body := (c.elements.code m.method).body
        let run := body.map fun s => Task.exec m s false
        if m.method ∈ c.seen then c.proceed (run ++ [.announce (.newCtxMethod m)])
        else
          let c := { c with seen := c.seen.insert m.method }
          (c.tell .debug ("new reachable method " ++ signature)).proceed
            (introduction m.method body ++ run ++ [.announce (.newCtxMethod m)])

/-- Has a statement wait for objects of the variable that it depends on, and applies it to those
that are there. An injected statement is noted with the pointer; the others are known to their
variable. -/
def watch (c : Core) (m : CtxMethod) (base : VarId) (s : StmtId) (injected : Bool) : Outcome :=
  let p := Pointer.var m.ctx base
  let c := c.addPointer p
  let c := if injected then { c with watchers := c.watchers.update p [] (· ++ [s]) } else c
  if (c.pointsTo p).isEmpty then c.proceed [] else c.proceed [.react m s (c.pointsTo p)]

/-- Puts a call edge on the worklist, to `callee` in the context that the policy chooses. -/
def call (c : Core) (caller : CtxMethod) (kind : CallKind) (s : CtxSite) (receiver : Option Obj)
    (callee : MethodId) : Core :=
  let ctx := c.policy.calleeContext s.ctx s.site receiver
  (c.useContext ctx).push (.edge caller ⟨kind, s, ⟨ctx, callee⟩⟩)

/-- Runs a call in a context. -/
def execCall (c : Core) (m : CtxMethod) (s : StmtId) (id : SiteId) (injected : Bool) : Outcome :=
  let site := c.elements.site id
  let here : CtxSite := ⟨m.ctx, id⟩
  let c := c.modifyCalls (·.addSite m here)
  match site.kind, site.receiver with
  | .static, _ | .special, _ => (c.call m site.kind here none site.target).proceed []
  | .virtual, some r | .interface, some r => c.watch m r s injected
  | .virtual, none | .interface, none => c.proceed []
  | .dynamic, _ =>
    (c.tell .debug ("leave dynamic call " ++ c.elements.siteText id ++ " unresolved")).proceed
      [.announce (.unresolvedCall here)]

/-- Runs a statement in a context. -/
def exec (c : Core) (m : CtxMethod) (s : StmtId) (injected : Bool) : Outcome :=
  match (c.elements.stmt? s).map PlacedStmt.stmt with
  | none => c.proceed []
  | some (.alloc lhs ty) =>
    let o : Obj := ⟨s, c.policy.heapContext m.ctx⟩
    let p := Pointer.var m.ctx lhs
    let c := ((c.useContext o.heap).addObj o ty).addPointer p
    (c.push (.objects p (.singleton o))).proceed []
  | some (.assign lhs rhs) => (c.link (.var m.ctx rhs) (.var m.ctx lhs)).proceed []
  | some (.load _ base _) | some (.store base _ _) => c.watch m base s injected
  | some (.call site _) => c.execCall m s site injected

/-- Applies a statement to objects of the variable that it depends on. They are visited in order of
insertion, which is one of the orders in which the members of a set can be visited. -/
def react (c : Core) (m : CtxMethod) (s : StmtId) (os : PointsToSet) : Outcome :=
  match (c.elements.stmt? s).map PlacedStmt.stmt with
  | some (.load lhs _ f) =>
    let p := Pointer.var m.ctx lhs
    (os.toList.foldl (fun c o => c.link (.field o f) p) (c.addPointer p)).proceed []
  | some (.store _ f rhs) =>
    let p := Pointer.var m.ctx rhs
    (os.toList.foldl (fun c o => c.link p (.field o f)) (c.addPointer p)).proceed []
  | some (.call site _) =>
    if (c.elements.site site).kind.isDispatched then
      c.proceed (os.toList.map fun o => .dispatch m ⟨m.ctx, site⟩ o)
    else c.proceed []
  | some (.alloc _ _) | some (.assign _ _) | none => c.proceed []

/-- Finds the callee of a dispatched call on an object. The object flows into the receiver of the
callee. -/
def dispatch (c : Core) (caller : CtxMethod) (s : CtxSite) (receiver : Obj) : Outcome :=
  let site := c.elements.site s.site
  let sub := c.program.subsignature site.target
  let ty := c.analysis.heap.typeOf receiver
  let found := c.elements.dispatch ty sub
  let c := c.withElements found.2
  match found.1 with
  | none =>
    (c, .error (.unresolvedCall sub (c.program.typeName ty) (c.elements.siteText s.site)))
  | some callee =>
    let c := c.call caller site.kind s (some receiver) callee
    if callee ∈ c.ignored then c.proceed []
    else
      c.lowering callee fun c =>
        match (c.elements.code callee).this with
        | none => c.proceed []
        | some this =>
          let p := Pointer.var (c.policy.calleeContext s.ctx s.site (some receiver)) this
          ((c.addPointer p).push (.objects p (.singleton receiver))).proceed []

/-- Takes up objects that flow into a pointer: the new ones are added, and flow on. The
successors of the pointer are visited in order of insertion, one of the orders that there are. -/
def takeObjects (c : Core) (p : Pointer) (os : PointsToSet) : Outcome :=
  let delta := os.diff (c.pointsTo p)
  if delta.isEmpty then c.proceed []
  else
    let c := c.extend p os
    let c := (c.flow.succsOf p).toList.foldl (fun c q => c.push (.objects q delta)) c
    match p with
    | .field _ _ => c.proceed []
    | .var ctx v =>
      let text := Text.decimal delta.size ++ " objects flow into " ++ c.elements.varName v
      (c.tell .trace text).proceed [.announce (.newPointsTo ctx v delta), .wake ctx v delta]

/-- Applies the statements that depend on a variable in a context to its new objects: those of the
body, then the injected ones. -/
def wake (c : Core) (ctx : Context) (v : VarId) (delta : PointsToSet) : Outcome :=
  let stmts := (c.elements.var v).dependents ++ c.watchers.get (.var ctx v)
  c.proceed (stmts.map fun s => .react ⟨ctx, v.method⟩ s delta)

/-- Takes up a call edge: its callee becomes reachable before the edge is recorded. -/
def takeEdge (c : Core) (caller : CtxMethod) (e : CtxEdge) : Outcome :=
  if c.analysis.calls.hasEdge e.site e.callee then c.proceed []
  else c.proceed [.reach e.callee, .record caller e]

/-- Takes up the next item of the worklist. -/
def next (c : Core) : Outcome :=
  match c.worklist.pop? with
  | none => c.proceed []
  | some (i, rest) =>
    let c := { c with worklist := rest, iterations := c.iterations + 1 }
    match i with
    | .objects p os => c.takeObjects p os
    | .edge caller e => c.takeEdge caller e

/-- Takes up items until the worklist is empty. -/
def drain (c : Core) : Outcome :=
  if c.worklist.items.isEmpty then c.proceed [] else c.proceed [.next, .drain]

/-- Records a call edge. -/
def record (c : Core) (caller : CtxMethod) (e : CtxEdge) : Outcome :=
  let c := c.modifyCalls (·.addEdge caller e)
  (c.tell .debug ("new call edge " ++ c.elements.siteText e.site.site ++ " -> " ++
    c.program.signature e.callee.method)).proceed [.announce (.newCallEdge e), .bind e]

/-- Lets the arguments of a call flow into the parameters of the callee. -/
def bindArgs (c : Core) (caller callee : Context) (args params : List (Option VarId)) : Core :=
  (args.zip params).foldl (fun c x =>
    match x with
    | (some a, some p) => c.link (.var caller a) (.var callee p)
    | _ => c) c

/-- Lets the variables that a callee returns flow into the result of a call. -/
def bindResult (c : Core) (caller callee : Context) (returns : List VarId) (result : Option VarId) :
    Core :=
  match result with
  | none => c
  | some lhs =>
    let p := Pointer.var caller lhs
    returns.foldl (fun c r => c.link (.var callee r) p) (c.addPointer p)

/-- Binds arguments, results and, for a special call, the receiver along a call edge. A dispatched
call passes each receiver object by itself. -/
def bind (c : Core) (e : CtxEdge) : Outcome :=
  if e.callee.method ∈ c.ignored then c.proceed []
  else
    c.lowering e.callee.method fun c =>
      let code := c.elements.code e.callee.method
      let site := c.elements.site e.site.site
      let c := c.bindArgs e.site.ctx e.callee.ctx site.args code.params
      let c := c.bindResult e.site.ctx e.callee.ctx code.returns (c.elements.result? e.site.site)
      match e.kind, site.receiver, code.this with
      | .special, some r, some this =>
        (c.link (.var e.site.ctx r) (.var e.callee.ctx this)).proceed []
      | _, _, _ => c.proceed []

/-- Writes the statistics to the log. -/
def statistics (c : Core) : Core :=
  let a := c.analysis
  let count (name : String) (n : Nat) (c : Core) : Core :=
    c.tell .info ("#" ++ name ++ ": " ++ Text.decimal n)
  c.tell .info "-------------- Pointer analysis statistics: --------------"
    |> count "reachable methods" a.reachableMethods.length
    |> count "cs methods" a.calls.methodCount
    |> count "call graph edges" a.calls.edgeCount
    |> count "contexts" a.contexts.size
    |> count "pointers" a.heap.pointers.size
    |> count "objects" a.heap.objs.size
    |> count "pfg edges" c.flow.edgeCount
    |> count "worklist iterations" c.iterations

/-- Carries out a task. -/
def perform (c : Core) : Task → Outcome
  | .begin => c.begin
  | .reach m => c.reach m
  | .enter m => (c.modifyCalls (·.addEntry m)).proceed []
  | .exec m s injected => c.exec m s injected
  | .react m s os => c.react m s os
  | .dispatch caller s receiver => c.dispatch caller s receiver
  | .wake ctx v delta => c.wake ctx v delta
  | .next => c.next
  | .drain => c.drain
  | .record caller e => c.record caller e
  | .bind e => c.bind e
  | .announce _ => c.proceed []
  | .statistics => c.statistics.proceed []

end Core

end PointsTo
