import MetadataIndex.Proofs.RegistryCoherence

/-! What a registry shows after any run of loads, syncs and single ingestions, failing ones
included. The merged contribution, the map of direct subtypes, the graph and the generation all tell
the same relations, those of the stored contributions. A stored contribution stays, no module is
merged twice, and no record table is generated twice. -/
namespace MetadataIndex
open Std Relation
variable {φ : Type}

namespace Registry

structure Consistent (r : Registry φ) : Prop where
  modulesOnce : r.global.modules.toList.Nodup
  modulesStored : ∀ id, id ∈ r.global.modules.toList ↔ r.isIngested id = true
  generation : r.generation = r.global.modules.size
  edges : ∀ e, e ∈ r.global.edges.toList ↔ ∃ id c, r.contribution? id = some c ∧ e ∈ c.edges.toList
  marks : ∀ mark, mark ∈ r.global.marks.toList ↔
    ∃ id c, r.contribution? id = some c ∧ mark ∈ c.marks.toList
  types : ∀ name, name ∈ r.global.types.toList ↔
    ∃ id c, r.contribution? id = some c ∧ name ∈ c.types.toList
  filed : ∀ base derived, derived ∈ r.global.directSubtypes base ↔
    ∃ kind, ⟨base, derived, kind⟩ ∈ r.global.edges.toList
  proper : ∀ e ∈ r.global.edges.toList, e.base ≠ e.derived
  nodesOnce : r.graph.names.Nodup
  nodes : ∀ name, name ∈ r.graph.names ↔ ∃ e ∈ r.global.edges.toList, name = e.base ∨ name = e.derived
  linksOnce : r.graph.links.Nodup
  links : ∀ base derived, (base, derived) ∈ r.graph.links ↔
    ∃ kind, ⟨base, derived, kind⟩ ∈ r.global.edges.toList

def newlyMerged (r : Registry φ) (m : CodeModule φ) : List ModuleId :=
  match r.contribution? m.id, (r.ingest m).1 with
  | none, .ok (some _) => [m.id]
  | _, _ => []

def newlyMergedAll (r : Registry φ) : List (CodeModule φ) → List ModuleId
  | [] => []
  | m :: rest =>
      match r.ingest m with
      | (.error _, _) => []
      | (.ok _, after) => r.newlyMerged m ++ after.newlyMergedAll rest

def mergedBy (r : Registry φ) : Operation φ → List ModuleId
  | .load _ => []
  | .sync => r.newlyMergedAll r.pending
  | .ingest id =>
      match r.program.module? id with
      | none => []
      | some m => r.newlyMerged m

def mergeLog (r : Registry φ) : List (Operation φ) → List ModuleId
  | [] => []
  | op :: rest => r.mergedBy op ++ (r.perform op).mergeLog rest

structure Lasting (operations : List (Operation φ)) : Prop where
  stays : ∀ (more : List (Operation φ)) (id : ModuleId) (c : Contribution φ),
    (({} : Registry φ).run operations).contribution? id = some c →
      ((({} : Registry φ).run operations).run more).contribution? id = some c
  again : ∀ (m : CodeModule φ) (c : Contribution φ), m.instrumented = true →
    (({} : Registry φ).run operations).contribution? m.id = some c →
      (({} : Registry φ).run operations).ingest m = (.ok (some c), ({} : Registry φ).run operations)
  mergedOnce : ∀ id, (({} : Registry φ).mergeLog operations).count id =
    if (({} : Registry φ).run operations).isIngested id then 1 else 0
  generatedOnce : ∀ n ∈ (({} : Registry φ).run operations).program.modules,
    ∃ m, Operation.load m ∈ operations ∧ n.id = m.id ∧ n.recordList = m.recordList ∧
      n.table.runs ≤ m.table.runs + if m.table.ready then 0 else 1

section Parts
variable {r after : Registry φ} {m n : CodeModule φ} {c d : Contribution φ} {id other : ModuleId}

theorem ingestedIff : r.isIngested id = true ↔ id ∈ r.stored.keys := by
  rw [isIngested, Option.isSome_iff_ne_none, ne_eq, contributionNone, not_not]

theorem moduleUnique (inv : r.Coherent) (first : m ∈ r.program.modules) (second : n ∈ r.program.modules)
    (same : m.id = n.id) : m = n := List.inj_on_of_nodup_map inv.ids first second same

theorem moduleKnown (inv : r.Coherent) (member : m ∈ r.program.modules) : r.program.module? m.id = some m := by
  cases found : r.program.module? m.id with
  | none => exact absurd (List.mem_map.2 ⟨m, member, rfl⟩) (Program.moduleMissing found)
  | some n =>
      obtain ⟨inside, same⟩ := Program.moduleFound found
      rw [moduleUnique inv inside member same]

theorem ownedUnique (inv : r.Coherent) {d e : Declaration φ} (first : m ∈ r.program.modules)
    (second : n ∈ r.program.modules) (owned : d.owner ∈ m.types.toList) (ownedToo : e.owner ∈ n.types.toList)
    (same : d.id = e.id) : d = e := by
  have sameModule : m = n := by
    refine moduleUnique inv first second ?_
    rw [← m.owned _ owned, ← n.owned _ ownedToo]
    exact congrArg DeclarationId.owner same
  subst sameModule
  exact CodeModule.declarationUnique owned ownedToo same

theorem targetUnique (inv : r.Coherent) {mark twin : Mark φ} (found : r.contribution? id = some c)
    (foundTwin : r.contribution? other = some d) (member : mark ∈ c.marks.toList)
    (memberTwin : twin ∈ d.marks.toList) (same : mark.target.id = twin.target.id) :
    mark.target = twin.target := by
  obtain ⟨m, inside, u, _, _, _, told⟩ := storedTold inv found
  obtain ⟨n, insideTwin, v, _, _, _, toldTwin⟩ := storedTold inv foundTwin
  subst told
  subst toldTwin
  exact ownedUnique inv inside insideTwin (CodeModule.markOwner member) (CodeModule.markOwner memberTwin) same

theorem markUnique (inv : r.Coherent) {mark twin : Mark φ} (found : r.contribution? id = some c)
    (foundTwin : r.contribution? other = some d) (member : mark ∈ c.marks.toList)
    (memberTwin : twin ∈ d.marks.toList) (same : mark.id = twin.id) : mark = twin := by
  obtain ⟨sameMarker, sameId⟩ := Tag.mk.inj same
  have sameTarget := targetUnique inv found foundTwin member memberTwin sameId
  obtain ⟨marker, target⟩ := mark
  obtain ⟨markerTwin, targetTwin⟩ := twin
  rw [show marker = markerTwin from sameMarker, show target = targetTwin from sameTarget]

theorem memGlobalMarks (inv : r.Coherent) (mark : Mark φ) :
    mark ∈ r.global.marks.toList ↔ ∃ id c, r.contribution? id = some c ∧ mark ∈ c.marks.toList := by
  rw [inv.global]
  constructor
  · intro member
    obtain ⟨c, stored, inside⟩ := Contribution.memOfUnionMarks member
    obtain ⟨id, found⟩ := memContributions.1 stored
    exact ⟨id, c, found, inside⟩
  · intro ⟨id, c, found, inside⟩
    have key : mark.id ∈ (Contribution.union r.contributions).marks.keys :=
      Contribution.keysUnionMarks.2 ⟨c, memContributions.2 ⟨id, found⟩, List.mem_map.2 ⟨mark, inside, rfl⟩⟩
    obtain ⟨kept, member, same⟩ := List.mem_map.1 key
    obtain ⟨d, stored, insideTwin⟩ := Contribution.memOfUnionMarks member
    obtain ⟨other, foundTwin⟩ := memContributions.1 stored
    rw [markUnique inv found foundTwin inside insideTwin same.symm]
    exact member

theorem memGlobalEdges (inv : r.Coherent) (e : Edge) :
    e ∈ r.global.edges.toList ↔ ∃ id c, r.contribution? id = some c ∧ e ∈ c.edges.toList := by
  rw [inv.global, Contribution.memUnionEdges]
  constructor
  · intro ⟨_, c, stored, inside⟩
    obtain ⟨id, found⟩ := memContributions.1 stored
    exact ⟨id, c, found, inside⟩
  · intro ⟨id, c, found, inside⟩
    obtain ⟨m, _, u, _, _, _, told⟩ := storedTold inv found
    subst told
    exact ⟨(CodeModule.memToldEdges.1 inside).1, _, memContributions.2 ⟨id, found⟩, inside⟩

theorem memGlobalTypes (inv : r.Coherent) (name : TypeName) :
    name ∈ r.global.types.toList ↔ ∃ id c, r.contribution? id = some c ∧ name ∈ c.types.toList := by
  rw [inv.global, Contribution.memUnionTypes]
  constructor
  · intro ⟨c, stored, inside⟩
    obtain ⟨id, found⟩ := memContributions.1 stored
    exact ⟨id, c, found, inside⟩
  · intro ⟨id, c, found, inside⟩
    exact ⟨c, memContributions.2 ⟨id, found⟩, inside⟩

theorem memGraphEdges (inv : r.Coherent) (e : Edge) :
    e ∈ (r.contributions.flatMap fun c => c.edges.toList) ↔ e ∈ r.global.edges.toList := by
  rw [memGlobalEdges inv, List.mem_flatMap]
  constructor
  · intro ⟨c, stored, inside⟩
    obtain ⟨id, found⟩ := memContributions.1 stored
    exact ⟨id, c, found, inside⟩
  · intro ⟨id, c, found, inside⟩
    exact ⟨c, memContributions.2 ⟨id, found⟩, inside⟩

theorem memGraphNames (inv : r.Coherent) (name : TypeName) :
    name ∈ r.graph.names ↔ ∃ e ∈ r.global.edges.toList, name = e.base ∨ name = e.derived := by
  rw [inv.graph, SubtypeGraph.namesOfEdges]
  simp only [memGraphEdges inv]

theorem memGraphBelow (inv : r.Coherent) (base derived : TypeName) :
    derived ∈ (r.graph.below base).toList ↔ ∃ kind, ⟨base, derived, kind⟩ ∈ r.global.edges.toList := by
  rw [inv.graph, SubtypeGraph.memBelowOfEdges]
  simp only [memGraphEdges inv]
  constructor
  · intro ⟨e, member, sameBase, sameDerived⟩
    subst sameBase sameDerived
    exact ⟨e.kind, member⟩
  · intro ⟨kind, member⟩
    exact ⟨_, member, rfl, rfl⟩

theorem coherentConsistent (inv : r.Coherent) : r.Consistent where
  modulesOnce := by
    rw [← Distinct.keysEqToList]
    exact r.global.modules.keysNodup
  modulesStored := fun id => (memGlobalModules inv).trans ingestedIff.symm
  generation := by
    have counted : r.global.modules.toList.Perm r.stored.keys := by
      refine (List.perm_ext_iff_of_nodup ?_ r.stored.keysNodup).2 fun id => memGlobalModules inv
      rw [← Distinct.keysEqToList]
      exact r.global.modules.keysNodup
    rw [inv.generation, OrderedSet.sizeEq, OrderedSet.sizeEq, counted.length_eq, OrderedSet.keys,
      List.length_map]
  edges := memGlobalEdges inv
  marks := memGlobalMarks inv
  types := memGlobalTypes inv
  filed := fun base derived => Contribution.memDirectSubtypes
  proper := by
    intro e member
    rw [inv.global] at member
    simpa [Edge.proper] using (Contribution.memUnionEdges.1 member).1
  nodesOnce := r.graph.nodes.keysNodup
  nodes := memGraphNames inv
  linksOnce := r.graph.linksNodup
  links := fun base derived => SubtypeGraph.memLinks.trans (memGraphBelow inv base derived)

end Parts
section Runs
variable {r after : Registry φ} {m n : CodeModule φ} {c : Contribution φ} {id : ModuleId}

theorem runStays (operations : List (Operation φ)) (found : r.contribution? id = some c) :
    (r.run operations).contribution? id = some c := by
  refine runKeeps ?_ (fun move => moveStays move) operations found
  intro r m _ found
  exact found

theorem keysAfterIngest : (r.ingest m).2.stored.keys = r.stored.keys ++ r.newlyMerged m := by
  cases instrumented : m.instrumented with
  | false =>
      rw [newlyMerged, ingestRefused instrumented]
      cases r.contribution? m.id <;> simp
  | true =>
      cases known : r.contribution? m.id with
      | some c =>
          rw [newlyMerged, ingestStored instrumented known, known]
          simp
      | none =>
          cases derived : m.derive r.program.knownTypes with
          | error e =>
              rw [newlyMerged, ingestFailed instrumented known derived, known]
              exact (List.append_nil _).symm
          | ok c =>
              rw [newlyMerged, ingestDerived instrumented known derived, known, OrderedSet.keys,
                mergedStored known, List.map_append]
              rfl

theorem keysAfterIngestAll (ms : List (CodeModule φ)) :
    (r.ingestAll ms).2.stored.keys = r.stored.keys ++ r.newlyMergedAll ms := by
  induction ms generalizing r with
  | nil => exact (List.append_nil _).symm
  | cons m rest ih =>
      have first : (r.ingest m).2.stored.keys = r.stored.keys ++ r.newlyMerged m := keysAfterIngest
      rw [ingestAll, newlyMergedAll]
      cases outcome : r.ingest m with
      | mk answer after =>
          rw [outcome] at first
          cases answer with
          | ok _ =>
              change (after.ingestAll rest).2.stored.keys = _
              rw [ih, first, List.append_assoc]
          | error e =>
              rw [newlyMerged, outcome] at first
              cases known : r.contribution? m.id <;> simpa [known] using first

theorem keysAfter (op : Operation φ) : (r.perform op).stored.keys = r.stored.keys ++ r.mergedBy op := by
  cases op with
  | load m => exact (List.append_nil _).symm
  | sync => exact keysAfterIngestAll _
  | ingest id =>
      cases found : r.program.module? id with
      | none =>
          simp only [perform, mergedBy, found]
          exact (List.append_nil _).symm
      | some m =>
          simp only [perform, mergedBy, found]
          exact keysAfterIngest

theorem keysAfterRun (operations : List (Operation φ)) :
    (r.run operations).stored.keys = r.stored.keys ++ r.mergeLog operations := by
  induction operations generalizing r with
  | nil => exact (List.append_nil _).symm
  | cons op rest ih => exact ih.trans (by rw [keysAfter, mergeLog, List.append_assoc])

theorem loadedBefore {operations : List (Operation φ)}
    (member : n ∈ (({} : Registry φ).run operations).program.modules) :
    ∃ m, Operation.load m ∈ operations ∧ (n = m ∨ n = m.opened) := by
  induction operations using List.reverseRecOn generalizing n with
  | nil => cases member
  | append_singleton operations op ih =>
      have earlier : n ∈ (({} : Registry φ).run operations).program.modules →
          ∃ m, Operation.load m ∈ operations ++ [op] ∧ (n = m ∨ n = m.opened) := by
        intro inside
        obtain ⟨m, loaded, same⟩ := ih inside
        exact ⟨m, List.mem_append_left _ loaded, same⟩
      have kept : Moves (({} : Registry φ).run operations) (({} : Registry φ).run (operations ++ [op])) →
          ∃ m, Operation.load m ∈ operations ++ [op] ∧ (n = m ∨ n = m.opened) := by
        intro moves
        obtain ⟨k, inside, eq⟩ := movesModules moves member
        obtain ⟨m, loaded, same⟩ := ih inside
        refine ⟨m, List.mem_append_left _ loaded, ?_⟩
        exact CodeModule.openedOnce same eq
      rw [runAppend] at member kept
      cases op with
      | load m =>
          change n ∈ ((({} : Registry φ).run operations).load m).2.program.modules at member
          rcases loadCases with same | ⟨fresh, same⟩
          · rw [same] at member
            exact earlier member
          · rw [same, joined, Program.loadFresh fresh] at member
            rcases List.mem_append.1 member with old | added
            · exact earlier old
            · exact ⟨m, List.mem_append_right _ (List.mem_singleton.2 rfl), .inl (List.mem_singleton.1 added)⟩
      | sync => exact kept syncMoves
      | ingest id =>
          have moves : Moves (({} : Registry φ).run operations)
              ((({} : Registry φ).run operations).perform (.ingest id)) :=
            performMoves fun _ same => by cases same
          exact kept moves

theorem lastingRun (operations : List (Operation φ)) : Lasting operations where
  stays := fun more id c found => runStays more found
  again := fun m c instrumented found => ingestStored instrumented found
  mergedOnce := by
    intro id
    have log : (({} : Registry φ).run operations).stored.keys = ({} : Registry φ).mergeLog operations :=
      keysAfterRun operations
    rw [← log]
    split
    · next stored => exact List.count_eq_one_of_mem (OrderedSet.keysNodup _) (ingestedIff.1 stored)
    · next missing => exact List.count_eq_zero.2 fun member => missing (ingestedIff.2 member)
  generatedOnce := by
    intro n member
    obtain ⟨m, loaded, same⟩ := loadedBefore member
    refine ⟨m, loaded, ?_⟩
    rcases same with same | same
    · subst same
      exact ⟨rfl, rfl, Nat.le_add_right _ _⟩
    · subst same
      exact ⟨m.openedId, m.openedRecordList, m.openedRuns⟩

theorem consistentRun (operations : List (Operation φ)) :
    (({} : Registry φ).run operations).Consistent ∧ Lasting operations :=
  ⟨coherentConsistent (coherentRun operations), lastingRun operations⟩

end Runs
end Registry
end MetadataIndex
