import MetadataIndex.Proofs.AlikePrograms
import MetadataIndex.Proofs.CollectOutcomes
import MetadataIndex.Proofs.JustifiedInstances

/-! Subtypes of a base in one module against those over the whole index. Both searches walk the same
graph, but a module reports only what its own contribution both records and tells an edge to. A type
that one module records and another one tells the edge to is found over the whole index alone. -/
namespace MetadataIndex
open Std Relation
variable {φ : Type}

namespace SubtypeSearch
variable {s : SubtypeSearch φ} {scope narrow : Contribution φ} {base : TypeRef} {all : List TypeName} {t : TypeName}

theorem subtypesNarrower (ok : s.subtypes scope base = .ok all)
    (fewer : ∀ t ∈ s.candidates narrow true base.name, t ∈ s.candidates scope true base.name) :
    ∃ part, s.subtypes narrow base = .ok part := by
  have narrowed := (subtypesAnswer ok).2
  unfold subtypes find at ok ⊢
  cases shape : base.shape with
  | partiallyBound =>
      rw [shape] at ok
      cases ok
  | nonGeneric => exact ⟨_, rfl⟩
  | definition => exact ⟨_, rfl⟩
  | constructed =>
      refine keepDone.2 fun t member => ?_
      exact (keptAssignable (narrowed shape)).2 (fewer t member)

end SubtypeSearch

namespace Registry
variable {r : Registry φ} {id : ModuleId} {c : Contribution φ} {base t : TypeName} {limit : Nat}

def Reports (r : Registry φ) (c : Contribution φ) (base t : TypeName) : Prop :=
  t ∈ c.types.toList ∧ ∃ above, r.Below base above ∧ ∃ kind, ⟨above, t, kind⟩ ∈ c.edges.toList

theorem scopedCandidate (inv : r.Coherent) (found : r.contribution? id = some c) :
    t ∈ (r.search limit).candidates c true base ↔ t ≠ base ∧ r.Reports c base t := by
  rw [SubtypeSearch.memCandidates]
  constructor
  · intro ⟨⟨above, reached, direct⟩, differ, typed⟩
    have below := (belowGraph inv).2 (SubtypeGraph.memReached.1 reached).2
    exact ⟨differ, Contribution.containsType.1 (typed rfl), above, below, Contribution.memDirectSubtypes.1 direct⟩
  · intro ⟨differ, typed, above, below, kind, edge⟩
    refine ⟨⟨above, SubtypeGraph.memReached.2 ⟨?_, (belowGraph inv).1 below⟩,
      Contribution.memDirectSubtypes.2 ⟨kind, edge⟩⟩, differ, fun _ => Contribution.containsType.2 typed⟩
    exact (memGraphNames inv above).2 ⟨_, (memGlobalEdges inv _).2 ⟨id, c, found, edge⟩, .inl rfl⟩

theorem reportedCandidate (inv : r.Coherent) (found : r.contribution? id = some c)
    (candidate : t ∈ (r.search limit).candidates c true base) :
    t ∈ (r.search limit).candidates r.global true base := by
  obtain ⟨differ, typed, above, below, kind, edge⟩ := (scopedCandidate inv found).1 candidate
  refine (recordedCandidate inv).2 ⟨differ, below.tail ⟨kind, ?_⟩, (memGlobalTypes inv t).2 ⟨id, c, found, typed⟩⟩
  exact (memGlobalEdges inv _).2 ⟨id, c, found, edge⟩

theorem wholeReported (current : r.Current) (synced : r.Synced) {ρ : Record} (record : ρ ∈ r.program.records)
    (whole : ρ.member = none) (differ : ρ.type ≠ base) (below : r.Below base ρ.type) :
    ∃ id c, r.contribution? id = some c ∧ r.Reports c base ρ.type := by
  obtain ⟨m, member, inside⟩ := memRecords.1 record
  obtain ⟨c, found⟩ := Option.isSome_iff_exists.1 (synced m member (recordInstrumented inside))
  have path := belowDerives current.coherent current.unshadowed below
  have derives := (reflTransGen_iff_eq_or_transGen.1 path).resolve_left fun same => differ same.symm
  have candidate : ρ.type ∈ (r.search 0).candidates c true base :=
    derivedCandidate current (moduleSpeaks current member found) inside whole differ derives
  exact ⟨m.id, c, found, ((scopedCandidate current.coherent found).1 candidate).2⟩

end Registry

namespace Index
variable {ix : Index φ} {w : Universe φ} {base : TypeRef} {all part : List TypeName} {t : TypeName} {id : ModuleId}

theorem contributionDone {n : Nat} (synced : ix.answer Query.sync = .ok n) (id : ModuleId) :
    ∃ found, ix.answer (Query.contribution id) = .ok found := by
  have looked : ix.answer (Query.read fun ix => .ok (ix.registry.program.module? id)) =
      .ok (ix.registry.program.module? id) := rfl
  rw [contributionEq, answerNext looked, afterRead]
  cases known : ix.registry.program.module? id with
  | none => exact ⟨none, rfl⟩
  | some m =>
      cases instrumented : m.instrumented with
      | false => exact ⟨none, by simp only [instrumented]; rfl⟩
      | true =>
          simp only [instrumented, if_true]
          obtain ⟨k, inside, opened⟩ := Registry.movesHold (Registry.syncMoves (r := ix.registry))
            (Program.holdsMember (Program.moduleFound known).1)
          have stored := syncedOf synced k inside ((CodeModule.alikeInstrumented opened).trans instrumented)
          obtain ⟨c, found⟩ := Option.isSome_iff_exists.1 stored
          rw [CodeModule.alikeId opened] at found
          rw [answerNext synced, afterSync]
          exact ⟨some c, (ingestKnown instrumented found).1⟩

theorem storedModule (views : ix.Views w) {c : Contribution φ} (found : ix.synced.registry.contribution? id = some c) :
    ∃ m ∈ ix.registry.program.modules, m.id = id ∧ m.instrumented = true := by
  obtain ⟨n, inside, _, _, same, instrumented, _⟩ := Registry.storedTold (viewsSynced views).coherent found
  obtain ⟨m, before, sameId, sameMark⟩ := Registry.moduleBefore Registry.syncMoves inside
  exact ⟨m, before, sameId.trans same, sameMark.trans instrumented⟩

theorem uninstrumentedUnstored (views : ix.Views w) (c : Contribution φ)
    (plain : ∀ m, ix.registry.program.module? id = some m → m.instrumented = false) :
    ix.synced.registry.contribution? id ≠ some c := by
  intro stored
  obtain ⟨m, member, same, instrumented⟩ := storedModule views stored
  have known : ix.registry.program.module? id = some m := same ▸ Registry.moduleKnown views.coherent member
  rw [plain m known] at instrumented
  cases instrumented

theorem partFound (views : ix.Views w) (ok : ix.answer (Query.subtypesIn base id) = .ok part) :
    t ∈ part ↔ ∃ c, ix.synced.registry.contribution? id = some c ∧ t ≠ base.name ∧
      ix.synced.registry.Reports c base.name t ∧ (base.shape = .constructed → ix.types.AssignableTo t base) := by
  have types : ix.synced.registry.program.knownTypes = ix.types := syncedTypes
  have coherent := (viewsSynced views).coherent
  obtain ⟨_, _, rest⟩ := answerBind.1 ok
  rw [afterRead] at rest
  obtain ⟨found, contributed, last⟩ := answerBind.1 rest
  rcases answerContribution contributed with ⟨none, plain⟩ | ⟨c, n, some, _, stored, leaves⟩
  · subst none
    cases last
    exact iff_of_false List.not_mem_nil fun ⟨c, stored, _⟩ => uninstrumentedUnstored views c plain stored
  · subst some
    rw [leaves] at last
    have searched : (ix.synced.registry.search ix.walkLimit).subtypes c base = .ok part := last
    rw [SubtypeSearch.memSubtypes searched, Registry.scopedCandidate coherent stored, Registry.search, types, and_assoc]
    constructor
    · exact fun told => ⟨c, stored, told⟩
    · intro ⟨d, storedToo, told⟩
      obtain rfl : c = d := Option.some.inj (stored.symm.trans storedToo)
      exact told

theorem partDone (views : ix.Views w) (ok : ix.answer (Query.subtypes base) = .ok all) (id : ModuleId) :
    ∃ part, ix.answer (Query.subtypesIn base id) = .ok part := by
  obtain ⟨_, checked, rest⟩ := answerBind.1 ok
  rw [afterRead] at rest
  obtain ⟨n, synced, searched⟩ := answerBind.1 rest
  rw [afterSync] at searched
  obtain ⟨found, contributed⟩ := contributionDone synced id
  rw [Query.subtypesIn, answerNext checked, afterRead, answerNext contributed]
  rcases answerContribution contributed with ⟨none, _⟩ | ⟨c, _, some, _, stored, leaves⟩
  · subst none
    exact ⟨[], rfl⟩
  · subst some
    rw [leaves]
    have coherent := (viewsSynced views).coherent
    exact SubtypeSearch.subtypesNarrower (s := ix.synced.registry.search ix.walkLimit) searched fun t candidate =>
      Registry.reportedCandidate coherent stored candidate

theorem wholeFound (views : ix.Views w) (ok : ix.answer (Query.subtypes base) = .ok all) :
    t ∈ all ↔ t ≠ base.name ∧ ix.synced.registry.Below base.name t ∧ t ∈ ix.synced.registry.global.types.toList ∧
      (base.shape = .constructed → ix.types.AssignableTo t base) := by
  have types : ix.synced.registry.program.knownTypes = ix.types := syncedTypes
  rw [Registry.subtypesFound (viewsSynced views).coherent (answerSubtypes ok).2, types]

theorem partWithin (views : ix.Views w) (ok : ix.answer (Query.subtypes base) = .ok all)
    (answered : ix.answer (Query.subtypesIn base id) = .ok part) (member : t ∈ part) : t ∈ all := by
  have coherent := (viewsSynced views).coherent
  obtain ⟨c, stored, differ, ⟨typed, above, below, kind, edge⟩, fits⟩ := (partFound views answered).1 member
  refine (wholeFound views ok).2 ⟨differ, below.tail ⟨kind, ?_⟩, ?_, fits⟩
  · exact (Registry.memGlobalEdges coherent _).2 ⟨id, c, stored, edge⟩
  · exact (Registry.memGlobalTypes coherent t).2 ⟨id, c, stored, typed⟩

def ListedIn (ix : Index φ) (base : TypeRef) (t : TypeName) : Prop :=
  ∃ m ∈ ix.registry.program.modules, m.instrumented = true ∧
    ∃ part, ix.answer (Query.subtypesIn base m.id) = .ok part ∧ t ∈ part

theorem listedWithin (views : ix.Views w) (ok : ix.answer (Query.subtypes base) = .ok all)
    (listed : ix.ListedIn base t) : t ∈ all := by
  obtain ⟨_, _, _, part, answered, inside⟩ := listed
  exact partWithin views ok answered inside

theorem listedReported (views : ix.Views w) (ok : ix.answer (Query.subtypes base) = .ok all) (member : t ∈ all) :
    ix.ListedIn base t ↔
      ∃ id c, ix.synced.registry.contribution? id = some c ∧ ix.synced.registry.Reports c base.name t := by
  constructor
  · intro ⟨m, _, _, part, answered, inside⟩
    obtain ⟨c, stored, _, reports, _⟩ := (partFound views answered).1 inside
    exact ⟨m.id, c, stored, reports⟩
  · intro ⟨id, c, stored, reports⟩
    obtain ⟨m, loaded, same, instrumented⟩ := storedModule views stored
    obtain ⟨part, answered⟩ := partDone views ok m.id
    obtain ⟨differ, _, _, fits⟩ := (wholeFound views ok).1 member
    exact ⟨m, loaded, instrumented, part, answered,
      (partFound views answered).2 ⟨c, same ▸ stored, differ, reports, fits⟩⟩

structure Split (ix : Index φ) (base : TypeRef) (all : List TypeName) : Prop where
  parts : ∀ id, ∃ part, ix.answer (Query.subtypesIn base id) = .ok part ∧ ∀ t ∈ part, t ∈ all
  listed : ∀ t ∈ all, ix.ListedIn base t ↔
    ∃ id c, ix.synced.registry.contribution? id = some c ∧ ix.synced.registry.Reports c base.name t
  union : (∀ t, t ∈ all ↔ ix.ListedIn base t) ↔
    ∀ t ∈ all, ∃ id c, ix.synced.registry.contribution? id = some c ∧ ix.synced.registry.Reports c base.name t
  whole : ix.synced.registry.Current → ∀ ρ ∈ ix.synced.registry.program.records, ρ.member = none →
    ρ.type ∈ all → ix.ListedIn base ρ.type

/-- In any index that a run reaches, no module answers a subtype that the whole index does not, and a
subtype is answered by a module exactly when one contribution records it and tells an edge to it. Types
with a record of their own are, when no name is defined twice and all was loaded before. -/
theorem subtypesSplit [Preserving φ] (reached : ix.Reachable) (base : TypeRef) (all : List TypeName)
    (ok : ix.answer (Query.subtypes base) = .ok all) : ix.Split base all := by
  obtain ⟨w, views⟩ := reachableViews reached
  constructor
  · intro id
    obtain ⟨part, answered⟩ := partDone views ok id
    exact ⟨part, answered, fun t member => partWithin views ok answered member⟩
  · exact fun t member => listedReported views ok member
  · constructor
    · exact fun every t member => (listedReported views ok member).1 ((every t).1 member)
    · exact fun reported t => ⟨fun member => (listedReported views ok member).2 (reported t member),
        listedWithin views ok⟩
  · intro current ρ record own member
    obtain ⟨differ, below, _, _⟩ := (wholeFound views ok).1 member
    have synced := (answerSubtypes ok).1
    exact (listedReported views ok member).2 (Registry.wholeReported current synced record own differ below)

def dividedModules : List CodeModule :=
  [({ id := "Runtime" } : CodeModule)
      |>.define { name := "Retrieve", owner := "Runtime", kind := .annotationType, retrievable := true }
      |>.define { name := "Tag", owner := "Runtime", kind := .annotationType, base := some { name := "Retrieve" } }
      |>.define { name := "Base", owner := "Runtime", kind := .classType },
    (({ id := "X" } : CodeModule).define {
        name := "Middle"
        owner := "X"
        kind := .classType
        base := some { name := "Base" }
        members := [⟨"run", .method, [⟨"Tag", .plain false, 0⟩]⟩] }).withRecords
      (.eager [{ type := "Middle", member := some "run" }]),
    (({ id := "Y" } : CodeModule).define
      { name := "Leaf", owner := "Y", kind := .classType, base := some { name := "Middle" } }).withRecords
      (.eager [{ type := "Leaf" }])]

def dividedIndex : Index := ofProgram {} 10 (.ofModules dividedModules)

theorem dividedTypeMissed :
    dividedIndex.answer (Query.subtypes { name := "Base" }) = .ok ["Middle", "Leaf"] ∧
      (dividedIndex.registry.program.modules.filter CodeModule.instrumented).map CodeModule.id = ["X", "Y"] ∧
      dividedIndex.answer (Query.subtypesIn { name := "Base" } "X") = .ok [] ∧
      dividedIndex.answer (Query.subtypesIn { name := "Base" } "Y") = .ok ["Leaf"] := by
  decide +kernel

theorem dividedSplit :
    dividedIndex.answer (Query.subtypes { name := "Base" }) = .ok ["Middle", "Leaf"] ∧
      dividedIndex.Split { name := "Base" } ["Middle", "Leaf"] := by
  have reached : dividedIndex.Reachable := ⟨{}, 10, dividedModules, [], rfl⟩
  have whole : dividedIndex.answer (Query.subtypes { name := "Base" }) = .ok ["Middle", "Leaf"] := by decide +kernel
  exact ⟨whole, subtypesSplit reached _ _ whole⟩

end Index
end MetadataIndex
