import MetadataIndex.Proofs.IngestionOrder

/-! What a sync comes to when everything is loaded before it: the error of the first module in load order
whose ingestion fails, or none. So two registries over alike programs are synced or stopped together,
whatever they have ingested before, and a query that syncs first has the same outcome on both. -/
namespace MetadataIndex
open Std Relation
variable {φ : Type}

theorem findSomeFilter {α β : Type} {f : α → Option β} {kept : α → Bool} {values : List α}
    (silent : ∀ a ∈ values, kept a = false → f a = none) : (values.filter kept).findSome? f = values.findSome? f := by
  induction values with
  | nil => rfl
  | cons a rest ih =>
      have others := ih fun b member => silent b (List.mem_cons_of_mem _ member)
      cases keep : kept a with
      | true => rw [List.filter_cons_of_pos keep, List.findSome?_cons, List.findSome?_cons, others]
      | false =>
          rw [List.filter_cons_of_neg (by simp [keep]), others, List.findSome?_cons,
            silent a (List.mem_cons_self ..) keep]

namespace Program
variable {p q : Program φ}

def failure? (p : Program φ) (id : ModuleId) : Option IngestError :=
  match p.ingestion id with
  | .error e => some e
  | .ok _ => none

def firstFailure? (p : Program φ) : Option IngestError := (p.modules.map CodeModule.id).findSome? p.failure?

theorem alikeFailure (alike : p.Alike q) : p.failure? = q.failure? := by
  funext id
  rw [failure?, failure?, alikeIngestion alike]

theorem alikeFirstFailure (alike : p.Alike q) : p.firstFailure? = q.firstFailure? := by
  have ids : ∀ ms : List (CodeModule φ), (ms.map CodeModule.opened).map CodeModule.id = ms.map CodeModule.id := by
    intro ms
    rw [List.map_map]
    exact List.map_congr_left fun m _ => m.openedId
  rw [firstFailure?, firstFailure?, alikeFailure alike, ← ids p.modules, alike, ids]

end Program

namespace Registry
variable {r s : Registry φ} {m n : CodeModule φ} {ms : List (CodeModule φ)}

theorem ingestAlike (same : n.opened = m.opened) : (r.ingest n).1 = (r.ingest m).1 := by
  unfold ingest
  rw [CodeModule.alikeInstrumented same, CodeModule.alikeId same, CodeModule.alikeDerive same]

theorem heldOutcome (inv : r.Coherent) (derived : r.Derived (· = r.program.knownTypes)) (held : r.program.Holds m) :
    (r.ingest m).1 = r.program.ingestion m.id := by
  obtain ⟨n, member, same⟩ := held
  rw [← ingestAlike same, ingestOutcome inv derived member, Program.ingestion, ← CodeModule.alikeId same,
    moduleKnown inv member]

theorem ingestAllOutcome (inv : r.Coherent) (derived : r.Derived (· = r.program.knownTypes))
    (held : ∀ m ∈ ms, r.program.Holds m) :
    (r.ingestAll ms).1 = match (ms.map CodeModule.id).findSome? r.program.failure? with
      | some e => .error e
      | none => .ok () := by
  induction ms generalizing r with
  | nil => rfl
  | cons m rest ih =>
      have heldHere : r.program.Holds m := held m (List.mem_cons_self ..)
      have moves : Moves r (r.ingest m).2 := ingestMoves heldHere
      have later := ih (coherentMoves inv moves) (derivedMoves derived moves) fun n member =>
        movesHold moves (held n (List.mem_cons_of_mem _ member))
      rw [Program.alikeFailure (movesAlike moves)] at later
      have here := heldOutcome inv derived heldHere
      rw [ingestAll, List.map_cons, List.findSome?_cons, Program.failure?, ← here]
      cases outcome : r.ingest m with
      | mk answer mid =>
          rw [outcome] at later
          cases answer with
          | error e => rfl
          | ok _ => exact later

-- a module that is not pending is stored or has nothing to ingest
theorem settledSilent (inv : r.Coherent) (derived : r.Derived (· = r.program.knownTypes))
    (member : m ∈ r.program.modules) (settled : (m.instrumented && !r.isIngested m.id) = false) :
    r.program.failure? m.id = none := by
  rw [Program.failure?, ← heldOutcome inv derived (Program.holdsMember member)]
  cases instrumented : m.instrumented with
  | false => rw [ingestRefused instrumented]
  | true =>
      have ingested : r.isIngested m.id = true := by simpa [instrumented] using settled
      obtain ⟨c, stored⟩ := Option.isSome_iff_exists.1 ingested
      rw [ingestStored instrumented stored]

theorem syncOutcome (inv : r.Coherent) (derived : r.Derived (· = r.program.knownTypes)) :
    r.sync.1 = match r.program.firstFailure? with
      | some e => .error e
      | none => .ok r.pending.length := by
  have silent : ∀ m ∈ r.program.modules, (m.instrumented && !r.isIngested m.id) = false →
      (r.program.failure? ∘ CodeModule.id) m = none := fun m member => settledSilent inv derived member
  have waiting : (r.pending.map CodeModule.id).findSome? r.program.failure? = r.program.firstFailure? := by
    rw [Program.firstFailure?, List.findSome?_map, List.findSome?_map, pending, findSomeFilter silent]
  have outcome := ingestAllOutcome inv derived pendingHeld
  rw [waiting] at outcome
  change (r.ingestAll r.pending).1.map _ = _
  rw [outcome]
  cases r.program.firstFailure? <;> rfl

end Registry

namespace Query
variable {α : Type}

def guarded (check : Index φ → Except QueryError Unit) (rest : QueryOver φ α) : QueryOver φ α := do
  read check
  let _ ← sync
  rest

theorem subtypesGuarded (base : TypeRef) : (Query.subtypes base : QueryOver φ _) =
    guarded (·.checkBase base) (read fun ix => ix.search.subtypes ix.registry.global base) := rfl

theorem attributesGuarded (type : TypeName) : (Query.attributes type : QueryOver φ _) =
    guarded (·.checkAnnotationType type) (do
      let view ← attributeView
      let candidates ← read (·.annotationCandidates type)
      return candidates.flatMap view.content.ofType) := rfl

end Query

namespace Index
variable {α : Type} {ix iy : Index φ} {check : Index φ → Except QueryError Unit} {rest : QueryOver φ α}

theorem guardedRefused {e : QueryError} (refused : check ix = .error e) :
    ix.answer (Query.guarded check rest) = .error e := by
  have stopped : ix.answer (Query.read check) = .error e := refused
  exact answerStopped stopped

theorem guardedPassed (passed : check ix = .ok ()) :
    ix.answer (Query.guarded check rest) = ix.answer (Query.sync >>= fun _ => rest) := by
  have next : ix.answer (Query.read check) = .ok () := passed
  exact answerNext next

structure Abreast (ix iy : Index φ) : Prop where
  strict : ix.config.strict = iy.config.strict
  limit : ix.walkLimit = iy.walkLimit
  alike : ix.registry.program.Alike iy.registry.program
  derived : ix.registry.Derived (· = ix.registry.program.knownTypes)
  derivedToo : iy.registry.Derived (· = iy.registry.program.knownTypes)
  views : ix.Views ix.types
  viewsToo : iy.Views iy.types

theorem abreastTypes (abreast : ix.Abreast iy) : ix.types = iy.types := Program.alikeTypes abreast.alike

theorem syncOutcome (inv : ix.registry.Coherent) (derived : ix.registry.Derived (· = ix.registry.program.knownTypes)) :
    ix.answer Query.sync = match ix.registry.program.firstFailure? with
      | some e => .error (.ingest e)
      | none => .ok ix.registry.pending.length := by
  change ix.registry.sync.1.mapError QueryError.ingest = _
  rw [Registry.syncOutcome inv derived]
  cases ix.registry.program.firstFailure? <;> rfl

theorem syncedFullOf {n : Nat} (views : ix.Views ix.types)
    (derived : ix.registry.Derived (· = ix.registry.program.knownTypes)) (ok : ix.answer Query.sync = .ok n) :
    ix.synced.registry.Full where
  coherent := (viewsSynced views).coherent
  derived := Registry.derivedMoves derived Registry.syncMoves
  synced := syncedOf ok

theorem syncedMatching {n k : Nat} (abreast : ix.Abreast iy) (ok : ix.answer Query.sync = .ok n)
    (okToo : iy.answer Query.sync = .ok k) : ix.synced.Matching iy.synced where
  strict := abreast.strict
  limit := abreast.limit
  alike := (Registry.movesAlike Registry.syncMoves).trans
    (abreast.alike.trans (Registry.movesAlike Registry.syncMoves).symm)
  full := syncedFullOf abreast.views abreast.derived ok
  fullToo := syncedFullOf abreast.viewsToo abreast.derivedToo okToo
  views := by
    rw [syncedTypes]
    exact viewsSynced abreast.views
  viewsToo := by
    rw [syncedTypes]
    exact viewsSynced abreast.viewsToo

theorem syncsTogether (abreast : ix.Abreast iy) :
    (∃ e, ix.answer Query.sync = .error (.ingest e) ∧ iy.answer Query.sync = .error (.ingest e)) ∨
      ∃ n k, ix.answer Query.sync = .ok n ∧ iy.answer Query.sync = .ok k ∧ ix.synced.Matching iy.synced := by
  have outcome := syncOutcome abreast.views.coherent abreast.derived
  have outcomeToo := syncOutcome abreast.viewsToo.coherent abreast.derivedToo
  rw [← Program.alikeFirstFailure abreast.alike] at outcomeToo
  cases failure : ix.registry.program.firstFailure? with
  | some e =>
      rw [failure] at outcome outcomeToo
      exact .inl ⟨e, outcome, outcomeToo⟩
  | none =>
      rw [failure] at outcome outcomeToo
      exact .inr ⟨_, _, outcome, outcomeToo, syncedMatching abreast outcome outcomeToo⟩

theorem guardedSynced {n : Nat} (same : check ix.synced = check ix) (ok : ix.answer Query.sync = .ok n) :
    ix.synced.answer (Query.guarded check rest) = ix.answer (Query.guarded check rest) := by
  obtain ⟨nothing, still⟩ := syncedAlready (syncedOf ok)
  cases outcome : check ix with
  | error e => rw [guardedRefused outcome, guardedRefused (same.trans outcome)]
  | ok _ =>
      rw [guardedPassed outcome, guardedPassed (same.trans outcome), answerNext nothing, answerNext ok, afterSync,
        afterSync, still]

theorem guardedAbreast {rest : QueryOver φ α} {kind : QueryError → QueryError → Prop} {same : α → α → Prop}
    (abreast : ix.Abreast iy) (reflexive : ∀ e, kind e e) (checks : check ix = check iy)
    (checked : check ix.synced = check ix) (checkedToo : check iy.synced = check iy)
    (matched : ix.synced.Matching iy.synced → SameOutcome kind same (ix.synced.answer (Query.guarded check rest))
      (iy.synced.answer (Query.guarded check rest))) :
    SameOutcome kind same (ix.answer (Query.guarded check rest)) (iy.answer (Query.guarded check rest)) := by
  rcases syncsTogether abreast with ⟨e, failed, failedToo⟩ | ⟨n, k, ok, okToo, matching⟩
  · refine sameBind (sameRead reflexive checks) fun _ _ _ _ _ => ?_
    rw [afterRead, afterRead, answerStopped failed, answerStopped failedToo]
    exact .fails (reflexive _)
  · rw [← guardedSynced checked ok, ← guardedSynced checkedToo okToo]
    exact matched matching

theorem subtypesAbreast (abreast : ix.Abreast iy) (base : TypeRef) :
    SameOutcome QueryError.SameKind SameMembers (ix.answer (Query.subtypes base))
      (iy.answer (Query.subtypes base)) := by
  rw [Query.subtypesGuarded]
  exact guardedAbreast abreast (fun _ => .inl rfl) (sameBaseCheck (abreastTypes abreast) abreast.strict base)
    (sameBaseCheck syncedTypes rfl base) (sameBaseCheck syncedTypes rfl base) fun matching =>
      sameWider (subtypesMatch matching base) fun _ _ => Materializer.kindOfOr

theorem attributesAbreast (abreast : ix.Abreast iy) (type : TypeName) :
    SameOutcome ix.materializer.SameFault SameTags (ix.answer (Query.attributes type))
      (iy.answer (Query.attributes type)) := by
  have same : ix.synced.materializer = ix.materializer := by
    rw [materializer, syncedTypes]
    rfl
  rw [Query.attributesGuarded]
  refine guardedAbreast abreast (fun _ => .inl (.inl rfl)) (sameTypeCheck (abreastTypes abreast) abreast.strict type)
    (sameTypeCheck syncedTypes rfl type) (sameTypeCheck syncedTypes rfl type) fun matching => ?_
  rw [← same]
  exact sameWider (attributesMatch matching type) fun _ _ => Materializer.faultOfUnless

end Index
end MetadataIndex
