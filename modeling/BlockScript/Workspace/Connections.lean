import BlockScript.Workspace.Basic

namespace BlockScript

/-- The connections of a drawing between block ids. A node has the block that was expanded for
it; an edge has the relation of child to parent. -/
structure Connections (n : Nat) where
  nodes : Ledger String (Option (Fin n)) := {}
  edges : Ledger (String × String) String := {}

namespace Connections

variable {n : Nat}

def block? (g : Connections n) (id : String) : Option (Fin n) :=
  (g.nodes.get? id).join

def addNode (g : Connections n) (id : String) (i : Fin n) : Connections n :=
  { g with nodes := g.nodes.put id (some i) }

/-- Both ends become nodes. A repeated edge takes the new relation. -/
def addEdge (g : Connections n) (source target relation : String) : Connections n :=
  { nodes := if g.nodes.contains target then g.nodes else g.nodes.put target none
    edges := g.edges.put (source, target) relation }

/-- Adds a block with the edges to its children. -/
def addBlock (g : Connections n) (d : Diagram n) (i : Fin n) : Connections n :=
  let b := d.block i
  b.children.foldl (fun g c => g.addEdge b.id (d.block c.2).id c.1) (g.addNode b.id i)

/-- Expands the first pending block whose id has none, and puts its children in front, the last
one first; at most `count` times. -/
def expand (d : Diagram n) : Nat → List (Fin n) → Connections n → Connections n
  | 0, _, g => g
  | count + 1, pending, g =>
    match pending.dropWhile fun i => (g.block? (d.block i).id).isSome with
    | [] => g
    | i :: pending => expand d count ((d.childrenOf i).reverse ++ pending) (g.addBlock d i)

/-- The targets of the edges from a node, in order. -/
def successors (g : Connections n) (id : String) : List String :=
  (g.edges.keys.filter (·.1 == id)).map (·.2)

/-- How many nodes have an edge to this one. -/
def inDegree (g : Connections n) (id : String) : Nat :=
  (g.edges.keys.filter (·.2 == id)).length

/-- Source, target and relation of all edges, by source node. -/
def edgeList (g : Connections n) : List (String × String × String) :=
  g.nodes.keys.flatMap fun id =>
    (g.edges.entries.filter (·.1.1 == id)).map fun e => (e.1.1, e.1.2, e.2)

/-- The block type of a node. -/
def typeOf (g : Connections n) (d : Diagram n) (id : String) : String :=
  match g.block? id with
  | some i => (d.block i).type
  | none => ""

end Connections

/-- The connections below the top blocks, of which the last one is expanded first. Every step
expands another block, so there are at most as many steps as blocks. -/
def Workspace.connections {n : Nat} (w : Workspace n) : Connections n :=
  Connections.expand w.diagram n w.tops.reverse {}

end BlockScript
