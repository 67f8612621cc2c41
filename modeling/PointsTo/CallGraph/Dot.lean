import PointsTo.CallGraph.Basic
import PointsTo.Text.Numeral

/-!
# Call graphs in DOT format

`CallGraph.dot` draws a call graph with one node per method, numbered in order of discovery, and
one edge per call.
-/

namespace PointsTo.CallGraph

/-- How a character of a label is written. -/
def dotEscaped (c : Char) : String :=
  if c = '"' || c = '\\' then "\\" ++ String.singleton c
  else if c = '\n' then "\\l"
  else String.singleton c

variable {σ μ : Type} [DecidableEq μ]

/-- The position of a method in the graph, as a numeral. -/
def dotNode (g : CallGraph σ μ) (m : μ) : String :=
  Text.decimal ((g.position? m).getD 0)

/-- The graph in DOT format, with the given label on each method. -/
def dot (g : CallGraph σ μ) (label : μ → String) : String :=
  let node (m : μ) :=
    "    " ++ g.dotNode m ++ " [ label = \"" ++
      String.join ((label m).toList.map dotEscaped) ++ "\" ]\n"
  let edge (c : μ × CallEdge σ μ) :=
    "    " ++ g.dotNode c.1 ++ " -> " ++ g.dotNode c.2.callee ++ " [ ]\n"
  "digraph \x7b\n" ++ String.join (g.methods.toList.map node) ++
    String.join (g.calls.map edge) ++ "\x7d\n"

end PointsTo.CallGraph
