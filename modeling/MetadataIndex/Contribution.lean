import MetadataIndex.Definition
import MetadataIndex.Grouping
import MetadataIndex.OrderedSet

/-! The relations one module contributes, or the union of many: subtype edges, declarations marked
by an annotation type, and the types that records name. Each is a set in insertion order; an edge
from a type to itself is never kept. The edges are filed by their base as well, whatever their kind.
Merging counts the edges and marks that were new. -/
namespace MetadataIndex
variable {φ : Type}

inductive EdgeKind where
  | inherits
  | implements
  deriving DecidableEq, Repr

structure Edge where
  base : TypeName
  derived : TypeName
  kind : EdgeKind
  deriving DecidableEq, Repr

namespace Edge

def proper (e : Edge) : Bool := e.base ≠ e.derived

def implements (e : Edge) : Bool := e.kind = .implements

instance : Ord Edge := ⟨compareLex (compareOn base) (compareLex (compareOn derived) (compareOn implements))⟩

instance : Std.TransOrd Edge :=
  inferInstanceAs (Std.TransCmp
    (compareLex (compareOn base) (compareLex (compareOn derived) (compareOn implements))))

instance : Std.LawfulEqOrd Edge where
  compare_self := Std.compare_self
  eq_of_compare {a b} h := by
    obtain ⟨sameBase, h⟩ := compareLex_eq_eq.1 h
    obtain ⟨sameDerived, sameKind⟩ := compareLex_eq_eq.1 h
    obtain ⟨_, _, kind⟩ := a
    obtain ⟨_, _, kind'⟩ := b
    cases kind <;> cases kind' <;> simp_all [compareOn, implements]

end Edge

structure Mark (φ : Type := Recipe) where
  marker : TypeName
  target : Declaration φ
  deriving DecidableEq, Repr

def Mark.id (m : Mark φ) : Tag := ⟨m.marker, m.target.id⟩

abbrev SubtypeMap := Std.TreeMap TypeName (Distinct TypeName)

namespace SubtypeMap

def add (table : SubtypeMap) (e : Edge) : SubtypeMap :=
  table.alter e.base fun known => some ((known.getD ∅).insert e.derived)

def ofEdges (edges : List Edge) : SubtypeMap := edges.foldl add ∅

theorem ofEdgesSnoc (edges : List Edge) (last : Edge) : ofEdges (edges ++ [last]) = (ofEdges edges).add last := by
  simp [ofEdges]

theorem filedNothing : (∅ : SubtypeMap) = ofEdges (∅ : Distinct Edge).toList := rfl

end SubtypeMap

structure Contribution (φ : Type := Recipe) where
  modules : Distinct ModuleId := ∅
  edges : Distinct Edge := ∅
  subtypes : SubtypeMap := ∅
  marks : OrderedSet (@Mark.id φ) := ∅
  types : Distinct TypeName := ∅
  filed : subtypes = .ofEdges edges.toList := by exact SubtypeMap.filedNothing
  deriving Repr

def TypeDef.edges (d : TypeDef φ) : List Edge :=
  d.base.toList.map (⟨·.name, d.name, .inherits⟩) ++ d.interfaces.map (⟨·.name, d.name, .implements⟩)

namespace Contribution

@[ext]
theorem ext {c d : Contribution φ} (modules : c.modules = d.modules) (edges : c.edges = d.edges)
    (marks : c.marks = d.marks) (types : c.types = d.types) : c = d := by
  obtain ⟨_, _, _, _, _, filed⟩ := c
  obtain ⟨_, _, _, _, _, filed'⟩ := d
  subst modules edges marks types filed filed'
  rfl

instance [DecidableEq φ] : DecidableEq (Contribution φ) := fun c d =>
  decidable_of_iff (c.modules = d.modules ∧ c.edges = d.edges ∧ c.marks = d.marks ∧ c.types = d.types)
    ⟨fun ⟨modules, edges, marks, types⟩ => ext modules edges marks types,
      fun same => same ▸ ⟨rfl, rfl, rfl, rfl⟩⟩

def ofModule (m : ModuleId) : Contribution φ := { modules := .ofList _ [m] }

def hasType (c : Contribution φ) (name : TypeName) : Bool := c.types.contains name

def addEdge (c : Contribution φ) (e : Edge) : Bool × Contribution φ :=
  if !e.proper then (false, c)
  else if known : c.edges.contains e then (false, c)
  else
    have fresh : e ∉ c.edges.keys := fun member => known (OrderedSet.containsIff.2 member)
    (true,
      { c with
        edges := c.edges.insert e
        subtypes := c.subtypes.add e
        filed := by rw [OrderedSet.insertFresh fresh, SubtypeMap.ofEdgesSnoc, c.filed] })

def countEdge : Nat × Contribution φ → Edge → Nat × Contribution φ
  | (count, c), e =>
      let (new, c) := c.addEdge e
      (count + new.toNat, c)

def addEdges (c : Contribution φ) (edges : List Edge) : Nat × Contribution φ := edges.foldl countEdge (0, c)

def addMarks (c : Contribution φ) (marks : List (Mark φ)) : Nat × Contribution φ :=
  let kept := c.marks.insertAll marks
  (kept.size - c.marks.size, { c with marks := kept })

def addTypes (c : Contribution φ) (names : List TypeName) : Nat × Contribution φ :=
  let kept := c.types.insertAll names
  (kept.size - c.types.size, { c with types := kept })

def addModules (c : Contribution φ) (ids : List ModuleId) : Contribution φ :=
  { c with modules := c.modules.insertAll ids }

def merge (c other : Contribution φ) : Nat × Contribution φ :=
  let c := c.addModules other.modules.toList
  let (edges, c) := c.addEdges other.edges.toList
  let (marks, c) := c.addMarks other.marks.toList
  (edges + marks, (c.addTypes other.types.toList).2)

def marksByMarker (c : Contribution φ) : Std.TreeMap TypeName (List (Mark φ)) :=
  groupBy Mark.marker c.marks.toList

def directSubtypes (c : Contribution φ) (base : TypeName) : List TypeName :=
  (c.subtypes.getD base ∅).toList

def markedWith (c : Contribution φ) (marker : TypeName) : List (Declaration φ) :=
  (c.marksByMarker.getD marker []).map Mark.target

def subtypeTable (c : Contribution φ) : List (TypeName × List TypeName) :=
  c.subtypes.toList.map fun (base, derived) => (base, derived.toList)

def markTable (c : Contribution φ) : List (TypeName × List (Declaration φ)) :=
  c.marksByMarker.toList.map fun (marker, marks) => (marker, marks.map Mark.target)

def isEmpty (c : Contribution φ) : Bool := c.edges.isEmpty && c.marks.isEmpty && c.types.isEmpty

theorem memMarkedWith {c : Contribution φ} {marker : TypeName} {d : Declaration φ} :
    d ∈ c.markedWith marker ↔ ⟨marker, d⟩ ∈ c.marks.toList := by
  simp only [markedWith, marksByMarker, groupOf, List.mem_map, List.mem_filter, decide_eq_true_eq]
  constructor
  · rintro ⟨⟨_, _⟩, ⟨member, rfl⟩, rfl⟩
    exact member
  · intro member
    exact ⟨⟨marker, d⟩, ⟨member, rfl⟩, rfl⟩

end Contribution
end MetadataIndex
