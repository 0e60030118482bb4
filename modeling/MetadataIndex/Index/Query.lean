import MetadataIndex.Index.Basic

/-! The queries an index answers: subtypes of a base and annotation instances of a type, across all
modules or for one module alone, and the two flattened views. -/
namespace MetadataIndex
variable {φ : Type}

structure FlattenedView (φ : Type := Recipe) where
  types : Snapshot (List TypeName)
  attributes : Snapshot (AttributeGroups φ)
  deriving Repr

namespace Query

def subtypes (base : TypeRef) : QueryOver φ (List TypeName) := do
  read (·.checkBase base)
  let _ ← sync
  read fun ix => ix.search.subtypes ix.registry.global base

def subtypesIn (base : TypeRef) (id : ModuleId) : QueryOver φ (List TypeName) := do
  read (·.checkBase base)
  match ← contribution id with
  | none => return []
  | some c => read fun ix => ix.search.subtypes c base

def attributes (type : TypeName) : QueryOver φ (List (Instance φ)) := do
  read (·.checkAnnotationType type)
  let _ ← sync
  let view ← attributeView
  let candidates ← read (·.annotationCandidates type)
  return candidates.flatMap view.content.ofType

def attributesIn (type : TypeName) (id : ModuleId) : QueryOver φ (List (Instance φ)) := do
  read (·.checkAnnotationType type)
  match ← contribution id with
  | none => return []
  | some c => do
      let candidates ← read (·.annotationCandidates type)
      collect (c.calls candidates type)

def flattenedView : QueryOver φ (FlattenedView φ) := do
  let _ ← sync
  let types ← typeView
  let attributes ← attributeView
  return ⟨types, attributes⟩

def indexedTypes : QueryOver φ (List TypeName) := do
  let _ ← sync
  return (← typeView).content

def instances : QueryOver φ (List (Instance φ)) := do
  let _ ← sync
  return (← attributeView).content.instances

def preservedRoots [Preserving φ] : QueryOver φ (List (Declaration φ)) := do
  let view ← flattenedView
  let known := (← get).types
  let targets := (view.attributes.content.instances.filter (·.value.preserve)).map Instance.target
  let kept := (view.types.content.filter known.preservesSubtypes).filterMap known.find?
  return (OrderedSet.ofList Declaration.id (targets ++ kept.map fun d => ⟨d, none⟩)).toList

end Query

namespace Index

def load (ix : Index φ) (m : CodeModule φ) : Bool × Index φ :=
  let (new, registry) := ix.registry.load m
  (new, { ix with registry })

def commit (ix : Index φ) (c : Contribution φ) : Nat × Index φ :=
  let (added, registry) := ix.registry.commit c
  (added, { ix with registry })

def releaseViews (ix : Index φ) : Index φ :=
  { ix with typeCache := ix.typeCache.release, attributeCache := ix.attributeCache.release }

def invalidateViews (ix : Index φ) : Index φ :=
  { ix with typeCache := ix.typeCache.invalidate, attributeCache := ix.attributeCache.invalidate }

def holdView (ix : Index φ) (slot : String) (view : FlattenedView φ) : Index φ :=
  { ix with
    typeCache := ix.typeCache.hold slot view.types
    attributeCache := ix.attributeCache.hold slot view.attributes }

def dropView (ix : Index φ) (slot : String) : Index φ :=
  { ix with typeCache := ix.typeCache.drop slot, attributeCache := ix.attributeCache.drop slot }

def heldView (ix : Index φ) (slot : String) : Option (FlattenedView φ) := do
  let types ← ix.typeCache.heldIn slot
  let attributes ← ix.attributeCache.heldIn slot
  some ⟨types, attributes⟩

end Index
end MetadataIndex
