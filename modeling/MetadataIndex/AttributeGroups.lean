import MetadataIndex.Materialization
import MetadataIndex.Total

/-! Every instance the index reaches, grouped by its concrete annotation type. The instances are
collected for each marker in ascending order, with the marker as key and query alike, and groups
stand in the order of their first instance. -/
namespace MetadataIndex
variable {φ : Type}

structure AttributeGroup (φ : Type := Recipe) where
  type : TypeName
  instances : List (Instance φ)
  deriving DecidableEq, Repr

structure AttributeGroups (φ : Type := Recipe) where
  groups : OrderedSet (@AttributeGroup.type φ) := ∅
  deriving DecidableEq, Repr

namespace AttributeGroups

def ofInstances (instances : List (Instance φ)) : AttributeGroups φ :=
  let byType := groupBy Instance.type instances
  let types := firstOccurrences (instances.map Instance.type)
  ⟨.ofList AttributeGroup.type (types.map fun type => ⟨type, byType.getD type []⟩)⟩

def calls (c : Contribution φ) : List (CollectCall φ) :=
  c.markTable.map fun (marker, declarations) => ⟨declarations, marker, marker⟩

def build (m : Materializer φ) (c : Contribution φ) (t : Tally) :
    Except QueryError (AttributeGroups φ) × Tally :=
  let (outcome, t) := m.collect (calls c) t
  (outcome.map ofInstances, t)

def ofType (g : AttributeGroups φ) (type : TypeName) : List (Instance φ) :=
  ((g.groups.find? type).map AttributeGroup.instances).getD []

def instances (g : AttributeGroups φ) : List (Instance φ) := g.groups.toList.flatMap AttributeGroup.instances

def size (g : AttributeGroups φ) : Nat := total (fun group => group.instances.length) g.groups.toList

def isEmpty (g : AttributeGroups φ) : Bool := g.groups.isEmpty

end AttributeGroups
end MetadataIndex
