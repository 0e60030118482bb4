import MetadataIndex.Contribution
import MetadataIndex.Exploration
import MetadataIndex.Total

/-! The graph of direct subtypes. Nodes are type names in the order they were first seen, the base
of an edge before the derived type; each node leads to its direct subtypes with the latest edge
first. There is one edge at most between two names, whatever its kind, and nothing is ever removed. -/
namespace MetadataIndex

structure SubtypeNode where
  name : TypeName
  direct : Distinct TypeName := ∅
  deriving DecidableEq, Repr

def SubtypeNode.latestFirst (n : SubtypeNode) : List TypeName := n.direct.toList.reverse

structure SubtypeGraph where
  nodes : OrderedSet SubtypeNode.name := ∅
  deriving DecidableEq, Repr

namespace SubtypeGraph

def names (g : SubtypeGraph) : List TypeName := g.nodes.keys

def ensureNode (g : SubtypeGraph) (name : TypeName) : SubtypeGraph := ⟨g.nodes.insert { name }⟩

def below (g : SubtypeGraph) (name : TypeName) : Distinct TypeName :=
  ((g.nodes.find? name).map SubtypeNode.direct).getD ∅

def addEdge (g : SubtypeGraph) (base derived : TypeName) : Bool × SubtypeGraph :=
  let g := (g.ensureNode base).ensureNode derived
  let below := g.below base
  if below.contains derived then (false, g)
  else (true, ⟨g.nodes.put ⟨base, below.insert derived⟩⟩)

def addEdges (g : SubtypeGraph) (edges : List Edge) : SubtypeGraph :=
  edges.foldl (fun g e => (g.addEdge e.base e.derived).2) g

def ofEdges (edges : List Edge) : SubtypeGraph := addEdges {} edges

def position? (g : SubtypeGraph) (name : TypeName) : Option Nat := g.nodes.position? name

def directSubtypes? (g : SubtypeGraph) (name : TypeName) : Option (List TypeName) :=
  (g.nodes.find? name).map SubtypeNode.latestFirst

def nodeCount (g : SubtypeGraph) : Nat := g.nodes.size

def edgeCount (g : SubtypeGraph) : Nat := total (fun n => n.direct.size) g.nodes.toList

def reached (g : SubtypeGraph) (name : TypeName) : List TypeName :=
  (g.nodes.explore SubtypeNode.latestFirst .breadthFirst ∅ [name]).keys

end SubtypeGraph
end MetadataIndex
