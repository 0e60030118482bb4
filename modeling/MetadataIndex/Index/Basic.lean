import MetadataIndex.AttributeGroups
import MetadataIndex.Config
import MetadataIndex.Registry
import MetadataIndex.Snapshot
import MetadataIndex.SubtypeSearch

/-! The index over a running program: its registry, its two cached views and the count of values
made. Every query brings the index up to date first, so it answers for the modules loaded by then;
a failing query leaves behind what it did before it failed. -/
namespace MetadataIndex
variable {φ : Type}

structure Index (φ : Type := Recipe) where
  config : Config
  walkLimit : Nat
  registry : Registry φ
  typeCache : SnapshotCache (List TypeName)
  attributeCache : SnapshotCache (AttributeGroups φ)
  tally : Tally := {}

abbrev QueryOver (φ : Type) := ExceptT QueryError (StateM (Index φ))

abbrev Query := QueryOver Recipe

namespace Index

def ofProgram (config : Config) (walkLimit : Nat) (program : Program φ) : Index φ :=
  { config
    walkLimit
    registry := { program }
    typeCache := { retain := config.retainViews }
    attributeCache := { retain := config.retainViews } }

def types (ix : Index φ) : Universe φ := ix.registry.program.knownTypes

def search (ix : Index φ) : SubtypeSearch φ := ⟨ix.registry.graph, ix.types, ix.walkLimit⟩

def materializer (ix : Index φ) : Materializer φ := ⟨ix.types, ix.walkLimit⟩

def isRetrievable (ix : Index φ) (type : TypeName) : Bool :=
  ix.types.isRetrievableAnnotationType type || ix.types.collectsSubtypes type

def checkBase (ix : Index φ) (base : TypeRef) : Except QueryError Unit :=
  if base.shape = .partiallyBound then .error (.unsupportedGenericQuery base)
  else if !ix.config.strict then .ok ()
  else if (ix.types.find? base.name).isNone then .error (.unknownType base.name)
  else if !ix.isRetrievable base.name then .error (.notRetrievable base.name)
  else .ok ()

def checkAnnotationType (ix : Index φ) (type : TypeName) : Except QueryError Unit :=
  match ix.types.find? type with
  | none => .error (.unknownType type)
  | some d =>
      if d.kind ≠ .annotationType then .error (.notAnAnnotationType type)
      else if ix.config.strict && !ix.types.isRetrievableAnnotationType type then
        .error (.notRetrievable type)
      else .ok ()

def annotationCandidates (ix : Index φ) (type : TypeName) : Except QueryError (List TypeName) :=
  (ix.search.descendants ix.registry.global ⟨type, []⟩).map (type :: ·)

end Index

namespace Query

def read {α : Type} (f : Index φ → Except QueryError α) : QueryOver φ α := ExceptT.mk fun ix => (f ix, ix)

def sync : QueryOver φ Nat := ExceptT.mk fun ix =>
  let (outcome, registry) := ix.registry.sync
  (outcome.mapError .ingest, { ix with registry })

def ingest (m : CodeModule φ) : QueryOver φ (Option (Contribution φ)) := ExceptT.mk fun ix =>
  let (outcome, registry) := ix.registry.ingest m
  (outcome.mapError .ingest, { ix with registry })

def collect (calls : List (CollectCall φ)) : QueryOver φ (List (Instance φ)) := ExceptT.mk fun ix =>
  let (outcome, tally) := ix.materializer.collect calls ix.tally
  (outcome, { ix with tally })

def typeView : QueryOver φ (Snapshot (List TypeName)) := ExceptT.mk fun ix =>
  let generation := ix.registry.generation
  let (outcome, typeCache, _) := ix.typeCache.getOrBuild generation
    (fun _ => (.ok (generation, ix.registry.global.types.toList), ())) ()
  (outcome.map Prod.fst, { ix with typeCache })

def attributeView : QueryOver φ (Snapshot (AttributeGroups φ)) := ExceptT.mk fun ix =>
  let generation := ix.registry.generation
  let (outcome, attributeCache, tally) := ix.attributeCache.getOrBuild generation
    (fun tally =>
      let (outcome, tally) := AttributeGroups.build ix.materializer ix.registry.global tally
      (outcome.map fun groups => (generation, groups), tally)) ix.tally
  (outcome.map Prod.fst, { ix with attributeCache, tally })

def contribution (id : ModuleId) : QueryOver φ (Option (Contribution φ)) := do
  match (← get).registry.program.module? id with
  | none => return none
  | some m =>
      if m.instrumented then
        let _ ← sync
        ingest m
      else return none

end Query
end MetadataIndex
