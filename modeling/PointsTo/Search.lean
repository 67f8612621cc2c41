/-!
# Breadth-first search

`Search.breadthFirst next limit starts` lists what can be reached from `starts` by repeated steps
to a node in `next a`, in order of discovery. A node is discovered once, so a search that takes up
every node of a finite graph needs no more rounds than the graph has nodes; `limit` bounds them.
-/

namespace PointsTo.Search

variable {α : Type} [DecidableEq α]

/-- The members of `xs` that are not in `seen`, each once, in order. -/
def fresh (seen xs : List α) : List α :=
  (xs.filter (· ∉ seen)).eraseDups

/-- The search after the nodes in `done` were taken up and those in `queue` were discovered: at
most `n` further nodes are taken up. -/
def explore (next : α → List α) : (n : Nat) → (done queue : List α) → List α
  | 0, done, _ => done
  | _ + 1, done, [] => done
  | n + 1, done, a :: queue =>
    explore next n (done ++ [a]) (queue ++ fresh (done ++ a :: queue) (next a))

/-- The nodes reached from `starts`, in order of discovery. -/
def breadthFirst (next : α → List α) (limit : Nat) (starts : List α) : List α :=
  explore next limit [] starts.eraseDups

end PointsTo.Search
