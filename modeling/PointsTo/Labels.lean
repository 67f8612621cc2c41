import PointsTo.Analysis
import PointsTo.Elements.Text
import PointsTo.Sorting

/-!
# Labels

Labels name the entities of an analysis by what they are and not by when they were found, so that
the results of two runs can be compared as texts.

* a method is `m` and its number in the program, a statement adds its index in brackets;
* a variable is told by its method and name; variables that share a name are counted;
* contexts, objects and pointers are built from these.
-/

namespace PointsTo

/-- Texts in order. -/
def sortedTexts (ts : List String) : List String :=
  Sorting.sort (fun a b => a ≤ b) ts

/-- Methods in the order of the program. -/
def sortedById (ms : List MethodId) : List MethodId :=
  Sorting.sort (fun a b => a.num ≤ b.num) ms

/-- The label of a method. -/
def MethodId.label (m : MethodId) : String := "m" ++ Text.decimal m.num

namespace Elements

/-- The label of a variable. The second, third, … variable of a name gets a number. -/
def varLabel (e : Elements) (v : VarId) : String :=
  let name := e.varName v
  let earlier := ((e.code v.method).vars.take v.slot).countP fun w => w.name = name
  v.method.label ++ "." ++ name ++ if earlier = 0 then "" else "'" ++ Text.decimal earlier

/-- The label of a statement. -/
def stmtLabel (e : Elements) (s : StmtId) : String :=
  s.method.label ++ "[" ++ Text.decimal (e.stmt s).index ++ "]"

/-- The label of a call site is that of the call that owns it. -/
def siteLabel (e : Elements) (s : SiteId) : String :=
  ((e.site s).call.map e.stmtLabel).getD ""

/-- The label of an element of a context. -/
def contextElementLabel (e : Elements) : ContextElement → String
  | .call s => "c:" ++ e.siteLabel s
  | .alloc s => "a:" ++ e.stmtLabel s

/-- The label of a context. -/
def contextLabel (e : Elements) (c : Context) : String :=
  "<" ++ Text.joined "," (c.map e.contextElementLabel) ++ ">"

/-- The label of a method in a context. -/
def ctxMethodLabel (e : Elements) (m : CtxMethod) : String :=
  e.contextLabel m.ctx ++ m.method.label

/-- The label of a call site in a context. -/
def ctxSiteLabel (e : Elements) (s : CtxSite) : String :=
  e.contextLabel s.ctx ++ e.siteLabel s.site

/-- The label of a call edge. -/
def edgeLabel (e : Elements) (x : CtxEdge) : String :=
  x.kind.mnemonic ++ " " ++ e.ctxSiteLabel x.site ++ " -> " ++ e.ctxMethodLabel x.callee

end Elements

namespace Analysis

/-- The label of an object. -/
def objLabel (a : Analysis) (o : Obj) : String :=
  a.elements.stmtLabel o.site ++ ":" ++ a.elements.program.typeName (a.heap.typeOf o) ++
    a.elements.contextLabel o.heap

/-- The label of a pointer. -/
def pointerLabel (a : Analysis) : Pointer → String
  | .var c v => a.elements.contextLabel c ++ a.elements.varLabel v
  | .field o f => a.objLabel o ++ ".f" ++ Text.decimal f.num

/-- The labels of objects, sorted. -/
def objLabels (a : Analysis) (os : List Obj) : List String :=
  sortedTexts (os.map a.objLabel)

end Analysis

end PointsTo
