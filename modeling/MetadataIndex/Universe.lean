import MetadataIndex.Definition
import MetadataIndex.Exploration

/-! Lookup of type definitions across loaded modules, the first of a name wins. The lineage follows
base classes alone and stops at an undefined or repeated name; the closure follows base classes and
interfaces. Both end on cyclic metadata, since each definition is visited once. -/
namespace MetadataIndex
variable {φ : Type}

structure Universe (φ : Type := Recipe) where
  defs : OrderedSet (@TypeDef.name φ) := ∅
  deriving DecidableEq, Repr

def TypeDef.baseNames (d : TypeDef φ) : List TypeName := d.base.toList.map TypeRef.name

namespace Universe

def find? (u : Universe φ) (name : TypeName) : Option (TypeDef φ) := u.defs.find? name

def extend (u : Universe φ) (defs : List (TypeDef φ)) : Universe φ := ⟨u.defs.insertAll defs⟩

def ofDefs (defs : List (TypeDef φ)) : Universe φ := extend {} defs

def withFirst (u : Universe φ) (d : TypeDef φ) : Universe φ := ⟨u.defs.put d⟩

theorem nameOfFind {u : Universe φ} {name : TypeName} {d : TypeDef φ} (found : u.find? name = some d) :
    d.name = name := (OrderedSet.findIff.1 found).2

theorem memOfFind {u : Universe φ} {name : TypeName} {d : TypeDef φ} (found : u.find? name = some d) :
    d ∈ u.defs.toList := (OrderedSet.findIff.1 found).1

theorem findWithFirst {u : Universe φ} {d : TypeDef φ} {name : TypeName} :
    (u.withFirst d).find? name = if d.name = name then some d else u.find? name := OrderedSet.findPut

theorem findExtend {u : Universe φ} {defs : List (TypeDef φ)} {name : TypeName} :
    (u.extend defs).find? name = (u.find? name).or (defs.find? fun d => d.name = name) :=
  OrderedSet.findInsertAll

theorem findOfDefs {defs : List (TypeDef φ)} {name : TypeName} :
    (ofDefs defs).find? name = defs.find? fun d => d.name = name := by
  rw [ofDefs, findExtend]
  simp [find?]

def baseLineage (u : Universe φ) (name : TypeName) : List (TypeDef φ) :=
  (u.defs.explore TypeDef.baseNames .depthFirst ∅ [name]).toList

def supertypeClosure (u : Universe φ) (name : TypeName) : List (TypeDef φ) :=
  (u.defs.explore TypeDef.supertypeNames .depthFirst ∅ [name]).toList

def isAnnotationType (u : Universe φ) (name : TypeName) : Bool :=
  (u.find? name).any fun d => d.kind = .annotationType

def isRetrievableAnnotationType (u : Universe φ) (name : TypeName) : Bool :=
  u.isAnnotationType name && (u.baseLineage name).any TypeDef.retrievable

def collectsSubtypes (u : Universe φ) (name : TypeName) : Bool :=
  (u.supertypeClosure name).any fun d => d.collects.isSome

def preservesSubtypes (u : Universe φ) (name : TypeName) : Bool :=
  (u.supertypeClosure name).any fun d => d.collects = some true

end Universe
end MetadataIndex
