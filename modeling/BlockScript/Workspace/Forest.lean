import BlockScript.Sorting.Insertion
import BlockScript.Workspace.Connections

namespace BlockScript

/-- Depth-first search for a cycle below `v`. The nodes in `path` lead to `v`, the last one first;
below the nodes in `done` there is no cycle. Gives a cycle, in the order of its edges, or all
nodes that are done. The path has no repetition, so the number of nodes bounds the depth. -/
def searchCycle (successors : String → List String) :
    Nat → List String → String → List String → Except (List String) (List String)
  | 0, _, _, done => .ok done
  | depth + 1, path, v, done => do
    let below ← (successors v).foldlM (fun done w =>
      if (v :: path).contains w then
        .error (w :: ((v :: path).takeWhile (· != w)).reverse)
      else if done.contains w then .ok done
      else searchCycle successors depth (v :: path) w done) done
    return v :: below

/-- A cycle that is reached from the given nodes. -/
def findCycle? (successors : String → List String) (nodes : List String) : Option (List String) :=
  match nodes.foldlM (fun done v =>
    if done.contains v then .ok done
    else searchCycle successors nodes.length [] v done) [] with
  | .ok _ => none
  | .error cycle => some cycle

namespace Workspace

variable {n : Nat}

/-- The connections of a drawing in which no block hangs below itself and none has two parents. -/
def validate (w : Workspace n) : Except Fault (Connections n) :=
  let g := w.connections
  match findCycle? g.successors g.nodes.keys with
  | some cycle => .error (.cyclic (cycle.map (g.typeOf w.diagram)))
  | none =>
    match g.nodes.keys.filter fun id => 1 < g.inDegree id with
    | [] => .ok g
    | shared => .error (.shared (stableSort (fun a b => decide (a < b)) shared))

end Workspace

end BlockScript
