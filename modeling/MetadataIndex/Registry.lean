import MetadataIndex.Derivation
import MetadataIndex.SubtypeGraph

/-! Ingestion of a program's modules and the merged index over them. An instrumented module is
ingested once: its contribution is stored and merged into the global one and the graph. A failing
module leaves only its opened record table behind. The generation counts the merges that
brought in a module, an edge or a mark; recorded types alone do not move it. -/
namespace MetadataIndex
variable {φ : Type}

structure Registry (φ : Type := Recipe) where
  program : Program φ := {}
  graph : SubtypeGraph := {}
  global : Contribution φ := {}
  generation : Nat := 0
  stored : OrderedSet (Prod.fst : ModuleId × Contribution φ → ModuleId) := ∅
  deriving DecidableEq, Repr

namespace Registry

def contribution? (r : Registry φ) (id : ModuleId) : Option (Contribution φ) :=
  (r.stored.find? id).map Prod.snd

def isIngested (r : Registry φ) (id : ModuleId) : Bool := (r.contribution? id).isSome

def load (r : Registry φ) (m : CodeModule φ) : Bool × Registry φ :=
  let (new, program) := r.program.load m
  (new, { r with program })

def opened (r : Registry φ) (id : ModuleId) : Registry φ := { r with program := r.program.opened id }

def commit (r : Registry φ) (c : Contribution φ) : Nat × Registry φ :=
  let (added, global) := r.global.merge c
  let changed := 0 < added || r.global.modules.size < global.modules.size
  (added,
    { r with
      global
      graph := r.graph.addEdges c.edges.toList
      generation := if changed then r.generation + 1 else r.generation })

def ingest (r : Registry φ) (m : CodeModule φ) : Except IngestError (Option (Contribution φ)) × Registry φ :=
  if m.instrumented then
    match r.contribution? m.id with
    | some c => (.ok (some c), r)
    | none =>
        match m.derive r.program.knownTypes with
        | .error e => (.error e, r.opened m.id)
        | .ok c =>
            let (_, r) := (r.opened m.id).commit c
            (.ok (some c), { r with stored := r.stored.insert (m.id, c) })
  else (.ok none, r)

def ingestAll (r : Registry φ) : List (CodeModule φ) → Except IngestError Unit × Registry φ
  | [] => (.ok (), r)
  | m :: rest =>
      match r.ingest m with
      | (.error e, r) => (.error e, r)
      | (.ok _, r) => r.ingestAll rest

def pending (r : Registry φ) : List (CodeModule φ) :=
  r.program.modules.filter fun m => m.instrumented && !r.isIngested m.id

def sync (r : Registry φ) : Except IngestError Nat × Registry φ :=
  let pending := r.pending
  let (outcome, r) := r.ingestAll pending
  (outcome.map fun _ => pending.length, r)

end Registry
end MetadataIndex
