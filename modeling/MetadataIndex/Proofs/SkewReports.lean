import MetadataIndex.Proofs.MatchingAnswers
import MetadataIndex.Proofs.RetainedAnnotations

/-! Where a metadata skew comes from. Whatever an index is asked, a skew names a declaration that an
ingested module marks and whose attachments are all unassignable to the marker. An attachment of the
marker itself, or with the marker among its bases, is assignable unless the marker takes parameters or
is given arguments on the way: the walk starts at the open definition and looks for the plain name. -/
namespace MetadataIndex
open Std Relation
variable {φ : Type}

namespace Universe
variable {u : Universe φ} {name above key : TypeName} {lower : TypeDef φ}

theorem basesReach {arguments : List Argument} (path : ReflTransGen (u.defs.Leads TypeDef.baseNames) name above) :
    ∃ passed, ReflTransGen u.Supertype ⟨name, arguments⟩ ⟨above, passed⟩ := by
  induction path with
  | refl => exact ⟨arguments, .refl⟩
  | tail _ step ih =>
      obtain ⟨passed, path⟩ := ih
      obtain ⟨d, found, base⟩ := step
      obtain ⟨r, inside, same⟩ := List.mem_map.1 base
      subst same
      exact ⟨_, path.tail ⟨d, found, List.mem_map.2 ⟨r, List.mem_append_left _ inside, rfl⟩⟩⟩

theorem lineageAssignable (member : lower ∈ u.baseLineage name) (base : lower.base = some ⟨key, []⟩) :
    u.AssignableTo name ⟨key, []⟩ := by
  obtain ⟨found, path⟩ := OrderedSet.memExplore.1 member
  obtain ⟨d, known⟩ : ∃ d, u.find? name = some d := by
    rcases ReflTransGen.cases_head path with same | ⟨_, ⟨d, known, _⟩, _⟩
    · exact ⟨lower, same ▸ found⟩
    · exact ⟨d, known⟩
  obtain ⟨passed, reach⟩ : ∃ passed, ReflTransGen u.Supertype d.selfRef ⟨lower.name, passed⟩ :=
    basesReach ((nameOfFind known).symm ▸ path)
  have inside : (⟨key, []⟩ : TypeRef) ∈ lower.supertypes := List.mem_append_left _ (by simp [base])
  exact ⟨d, known, reach.tail ⟨lower, found, List.mem_map.2 ⟨_, inside, TypeRef.substitutePlain _ rfl⟩⟩⟩

theorem lineageBelow (member : lower ∈ u.baseLineage name) (differ : lower.name ≠ name) :
    ∃ d ∈ u.baseLineage name, ∃ r, d.base = some r ∧ r.name = lower.name := by
  obtain ⟨_, path⟩ := OrderedSet.memExplore.1 member
  rcases ReflTransGen.cases_tail path with same | ⟨between, first, d, found, base⟩
  · exact absurd same differ
  · have named := nameOfFind found
    subst named
    obtain ⟨r, inside, same⟩ := List.mem_map.1 base
    exact ⟨d, OrderedSet.memExplore.2 ⟨found, first⟩, r, Option.mem_toList.1 inside, same⟩

structure Disagrees (u : Universe φ) (d : Declaration φ) (key : TypeName) : Prop where
  lost : ∀ a ∈ d.attachments, ¬ u.AssignableTo a.type ⟨key, []⟩
  itself : ∀ a ∈ d.attachments, a.type = key → ∃ e, u.find? key = some e ∧ e.parameters ≠ []
  bases : ∀ a ∈ d.attachments, ∀ lower ∈ u.baseLineage a.type, ∀ r, lower.base = some r → r.name = key →
    r.arguments ≠ []
  below : ∀ a ∈ d.attachments, (∃ above ∈ u.baseLineage a.type, above.name = key) →
    (∃ e, u.find? key = some e ∧ e.parameters ≠ []) ∨
      ∃ lower ∈ u.baseLineage a.type, ∃ r, lower.base = some r ∧ r.name = key ∧ r.arguments ≠ []

theorem disagrees {d : Declaration φ} (known : ∃ e, u.find? key = some e)
    (lost : ¬ Materializer.Carries u key d) : u.Disagrees d key := by
  have itself : ∀ a ∈ d.attachments, a.type = key → ∃ e, u.find? key = some e ∧ e.parameters ≠ [] := by
    intro a attached same
    obtain ⟨e, found⟩ := known
    refine ⟨e, found, fun plain => lost ⟨a, attached, ?_⟩⟩
    rw [same]
    exact basesAssignable found plain .refl
  have bases : ∀ a ∈ d.attachments, ∀ lower ∈ u.baseLineage a.type, ∀ r, lower.base = some r → r.name = key →
      r.arguments ≠ [] := by
    intro a attached lower member r base named plain
    refine lost ⟨a, attached, lineageAssignable member ?_⟩
    rw [base, ← named, ← plain]
  refine ⟨fun a attached fits => lost ⟨a, attached, fits⟩, itself, bases, fun a attached ⟨above, member, named⟩ => ?_⟩
  by_cases same : a.type = key
  · exact .inl (itself a attached same)
  · obtain ⟨lower, inside, r, base, reaches⟩ := lineageBelow member (named ▸ Ne.symm same)
    have given : r.name = key := reaches.trans named
    exact .inr ⟨lower, inside, r, base, given, bases a attached lower inside r base given⟩

end Universe

namespace Query
variable {α β : Type} {q : QueryOver φ α} {f : α → QueryOver φ β} {ix : Index φ} {e : QueryError}

def Skewless (q : QueryOver φ α) : Prop := ∀ (ix : Index φ) (e : QueryError), ix.answer q = .error e → ¬ e.Skewed

theorem failsBind (failed : ix.answer (q >>= f) = .error e) :
    ix.answer q = .error e ∨ ∃ a, ix.answer q = .ok a ∧ (ix.after q).answer (f a) = .error e := by
  cases outcome : ix.answer q with
  | error d =>
      rw [Index.answerStopped outcome] at failed
      cases failed
      exact .inl rfl
  | ok a =>
      rw [Index.answerNext outcome] at failed
      exact .inr ⟨a, rfl, failed⟩

theorem skewLater (clean : Skewless q) (failed : ix.answer (q >>= f) = .error e) (skewed : e.Skewed) :
    ∃ a, ix.answer q = .ok a ∧ (ix.after q).answer (f a) = .error e :=
  (failsBind failed).resolve_left fun first => clean ix e first skewed

theorem skewFirst (clean : ∀ a, Skewless (f a)) (failed : ix.answer (q >>= f) = .error e) (skewed : e.Skewed) :
    ix.answer q = .error e :=
  (failsBind failed).resolve_right fun ⟨a, _, later⟩ => clean a _ e later skewed

theorem skewlessBind (first : Skewless q) (rest : ∀ a, Skewless (f a)) : Skewless (q >>= f) := by
  intro ix e failed skewed
  obtain ⟨a, _, later⟩ := skewLater first failed skewed
  exact rest a _ e later skewed

theorem skewlessPure (a : α) : Skewless (pure a : QueryOver φ α) := fun _ _ failed => by cases failed

theorem skewlessRead {g : Index φ → Except QueryError α} (clean : ∀ ix e, g ix = .error e → ¬ e.Skewed) :
    Skewless (read g) := clean

theorem skewlessIngests {outcome : Except IngestError α} (failed : outcome.mapError QueryError.ingest = .error e) :
    ¬ e.Skewed := by
  intro ⟨_, _, same⟩
  subst same
  cases outcome <;> cases failed

theorem skewlessSync : Skewless (sync : QueryOver φ _) := fun _ _ failed => skewlessIngests failed

theorem skewlessIngest (m : CodeModule φ) : Skewless (ingest m) := fun _ _ failed => skewlessIngests failed

theorem skewlessContribution (id : ModuleId) : Skewless (contribution id : QueryOver φ _) := by
  rw [Index.contributionEq]
  refine skewlessBind (skewlessRead fun _ _ failed => by cases failed) fun found => ?_
  cases found with
  | none => exact skewlessPure none
  | some m =>
      cases instrumented : m.instrumented with
      | false =>
          simp only [instrumented, Bool.false_eq_true, if_false]
          exact skewlessPure none
      | true =>
          simp only [instrumented, if_true]
          exact skewlessBind skewlessSync fun _ => skewlessIngest m

theorem skewlessCheckBase (base : TypeRef) : Skewless (read fun ix : Index φ => ix.checkBase base) := by
  refine skewlessRead fun ix e failed ⟨_, _, same⟩ => ?_
  subst same
  unfold Index.checkBase at failed
  split at failed
  · cases failed
  · split at failed
    · cases failed
    · split at failed
      · cases failed
      · split at failed <;> cases failed

theorem skewlessCheckAnnotationType (type : TypeName) :
    Skewless (read fun ix : Index φ => ix.checkAnnotationType type) := by
  refine skewlessRead fun ix e failed ⟨_, _, same⟩ => ?_
  subst same
  unfold Index.checkAnnotationType at failed
  split at failed
  · cases failed
  · split at failed
    · cases failed
    · split at failed <;> cases failed

theorem skewlessSearch {s : SubtypeSearch φ} {scope : Contribution φ} {base : TypeRef}
    (failed : s.subtypes scope base = .error e) : ¬ e.Skewed := by
  intro ⟨_, _, same⟩
  subst same
  unfold SubtypeSearch.subtypes SubtypeSearch.find at failed
  split at failed
  · cases failed
  · obtain ⟨_, _, undecided⟩ := SubtypeSearch.keepFails failed
    cases undecided
  · cases failed
  · cases failed

theorem skewlessTypeView : Skewless (typeView : QueryOver φ _) := by
  intro ix e failed
  rw [Index.typeViewAccess.1] at failed
  cases reused : ix.typeCache.reuse? ix.registry.generation with
  | some pair =>
      rw [SnapshotCache.accessReused reused] at failed
      cases failed
  | none =>
      rw [SnapshotCache.accessBuilt reused rfl] at failed
      cases failed

theorem skewlessSubtypes (base : TypeRef) : Skewless (subtypes base : QueryOver φ _) :=
  skewlessBind (skewlessCheckBase base) fun _ => skewlessBind skewlessSync fun _ =>
    skewlessRead fun _ _ => skewlessSearch

theorem skewlessSubtypesIn (base : TypeRef) (id : ModuleId) : Skewless (subtypesIn base id : QueryOver φ _) := by
  refine skewlessBind (skewlessCheckBase base) fun _ => skewlessBind (skewlessContribution id) fun found => ?_
  cases found with
  | none => exact skewlessPure []
  | some c => exact skewlessRead fun _ _ => skewlessSearch

theorem skewlessIndexedTypes : Skewless (indexedTypes : QueryOver φ _) :=
  skewlessBind skewlessSync fun _ => skewlessBind skewlessTypeView fun _ => skewlessPure _

end Query

/-! The marks that a skew names -/

def Mark.skew (mark : Mark φ) : QueryError := .metadataSkew mark.target.text mark.marker

namespace Materializer
variable {m : Materializer φ} {u : Universe φ} {calls : List (CollectCall φ)} {e : QueryError}

theorem skewContradicts (failed : Contradicts u calls e ∨ m.Stuck e) (skewed : e.Skewed) : Contradicts u calls e := by
  refine failed.resolve_right fun ⟨_, _, stuck, _⟩ => ?_
  obtain ⟨_, _, same⟩ := skewed
  rw [same] at stuck
  cases stuck

end Materializer

namespace Contribution
variable {c : Contribution φ} {u : Universe φ} {keys : List TypeName} {query : TypeName} {e : QueryError}

theorem viewContradicts :
    Materializer.Contradicts u (AttributeGroups.calls c) e ↔
      ∃ mark ∈ c.marks.toList, ¬ Materializer.Carries u mark.marker mark.target ∧ e = mark.skew := by
  constructor
  · intro ⟨⟨ds, key, query⟩, member, d, marked, lacks, same⟩
    have sameKey : query = key := viewCall member
    subst sameKey
    exact ⟨⟨query, d⟩, memViewCalls.1 ⟨ds, member, marked⟩, lacks, same⟩
  · intro ⟨⟨marker, d⟩, member, lacks, same⟩
    obtain ⟨ds, call, marked⟩ := memViewCalls.2 member
    exact ⟨_, call, d, marked, lacks, same⟩

theorem callsContradict (contradicts : Materializer.Contradicts u (c.calls keys query) e) :
    ∃ mark ∈ c.marks.toList, mark.marker ∈ keys ∧ ¬ Materializer.Carries u mark.marker mark.target ∧ e = mark.skew := by
  rw [callsEq] at contradicts
  obtain ⟨call, member, d, marked, lacks, same⟩ := contradicts
  obtain ⟨key, listed, equal⟩ := List.mem_map.1 member
  subst equal
  exact ⟨⟨key, d⟩, memMarkedWith.1 marked, listed, lacks, same⟩

end Contribution

namespace Registry
variable {r : Registry φ} {id : ModuleId} {c : Contribution φ} {mark : Mark φ}

theorem markerKnown (inv : r.Coherent) (found : r.contribution? id = some c) (member : mark ∈ c.marks.toList) :
    ∃ e, r.program.knownTypes.find? mark.marker = some e := by
  obtain ⟨_, _, u, known, _, _, derivation⟩ := inv.origin _ (contributionIff.1 found)
  obtain ⟨e, defined⟩ := Universe.knownOfAnnotation (CodeModule.deriveMarked derivation member)
  exact ⟨e, known _ _ defined⟩

theorem unclaimedAttached (inv : r.Coherent) (free : ∀ ρ ∈ r.program.records, ρ.marker = none)
    (found : r.contribution? id = some c) (member : mark ∈ c.marks.toList) :
    ∃ a ∈ mark.target.attachments, a.type = mark.marker := by
  obtain ⟨m, inside, u, _, _, _, told⟩ := storedTold inv found
  subst told
  obtain ⟨ρ, record, marked⟩ := CodeModule.memOfToldMarks member
  obtain ⟨d, _, listed⟩ := List.mem_flatMap.1 marked
  obtain ⟨marker, chosen, same⟩ := List.mem_map.1 listed
  subst same
  simp only [Universe.markers, free ρ (memRecords.2 ⟨m, inside, record⟩)] at chosen
  exact List.mem_map.1 (List.mem_filter.1 chosen).1

end Registry

namespace Index
variable {ix : Index φ} {w : Universe φ} {type : TypeName} {id : ModuleId} {e : QueryError} {mark : Mark φ}

structure Contradicted (ix : Index φ) (mark : Mark φ) : Prop where
  marked : mark ∈ ix.synced.registry.global.marks.toList
  lacks : ¬ Materializer.Carries ix.types mark.marker mark.target

theorem viewSkewed {mid : Index φ} (registry : mid.registry = ix.synced.registry)
    (failed : mid.answer Query.attributeView = .error e) (skewed : e.Skewed) :
    ∃ mark, ix.Contradicted mark ∧ e = mark.skew := by
  have contradicts := Materializer.skewContradicts (viewFails failed) skewed
  have types : mid.types = ix.types := by
    rw [Index.types, registry]
    exact syncedTypes
  rw [types, registry] at contradicts
  obtain ⟨mark, marked, lacks, same⟩ := Contribution.viewContradicts.1 contradicts
  exact ⟨mark, ⟨marked, lacks⟩, same⟩

theorem attributesSkewed (failed : ix.answer (Query.attributes type) = .error e) (skewed : e.Skewed) :
    ∃ mark, ix.Contradicted mark ∧ e = mark.skew := by
  obtain ⟨_, _, rest⟩ := Query.skewLater (Query.skewlessCheckAnnotationType type) failed skewed
  obtain ⟨_, _, rest⟩ := Query.skewLater Query.skewlessSync rest skewed
  rw [afterRead, afterSync] at rest
  refine viewSkewed rfl (Query.skewFirst (fun _ => ?_) rest skewed) skewed
  exact Query.skewlessBind (Query.skewlessRead fun _ _ failed => by cases failed) fun _ => Query.skewlessPure _

theorem instancesSkewed (failed : ix.answer Query.instances = .error e) (skewed : e.Skewed) :
    ∃ mark, ix.Contradicted mark ∧ e = mark.skew := by
  obtain ⟨_, _, rest⟩ := Query.skewLater Query.skewlessSync failed skewed
  exact viewSkewed rfl (Query.skewFirst (fun _ => Query.skewlessPure _) rest skewed) skewed

theorem flattenedSkewed (failed : ix.answer Query.flattenedView = .error e) (skewed : e.Skewed) :
    ∃ mark, ix.Contradicted mark ∧ e = mark.skew := by
  obtain ⟨_, _, rest⟩ := Query.skewLater Query.skewlessSync failed skewed
  obtain ⟨_, _, rest⟩ := Query.skewLater Query.skewlessTypeView rest skewed
  have built := Query.skewFirst (fun _ => Query.skewlessPure _) rest skewed
  rw [afterSync] at built
  have registry : (ix.synced.after Query.typeView).registry = ix.synced.registry := rfl
  exact viewSkewed registry built skewed

theorem preservedRootsSkewed [Preserving φ] (failed : ix.answer Query.preservedRoots = .error e) (skewed : e.Skewed) :
    ∃ mark, ix.Contradicted mark ∧ e = mark.skew := by
  refine flattenedSkewed (Query.skewFirst (fun _ => ?_) failed skewed) skewed
  exact Query.skewlessBind (fun _ _ failed => by cases failed) fun _ => Query.skewlessPure _

theorem attributesInSkewed (views : ix.Views w) (failed : ix.answer (Query.attributesIn type id) = .error e)
    (skewed : e.Skewed) :
    ∃ mark c, ix.synced.registry.contribution? id = some c ∧ mark ∈ c.marks.toList ∧
      ix.synced.registry.Below type mark.marker ∧ ix.Contradicted mark ∧ e = mark.skew := by
  have coherent := (viewsSynced views).coherent
  obtain ⟨_, _, rest⟩ := Query.skewLater (Query.skewlessCheckAnnotationType type) failed skewed
  rw [afterRead] at rest
  obtain ⟨_, contributed, rest⟩ := Query.skewLater (Query.skewlessContribution id) rest skewed
  rcases answerContribution contributed with ⟨none, _⟩ | ⟨c, _, some, _, stored, leaves⟩
  · subst none
    cases rest
  · subst some
    rw [leaves] at rest
    have reads : Query.Skewless (Query.read fun ix : Index φ => ix.annotationCandidates type) :=
      Query.skewlessRead fun _ _ failed => by cases failed
    obtain ⟨candidates, chosen, last⟩ := Query.skewLater reads rest skewed
    rw [answerRead, candidatesEq] at chosen
    cases chosen
    rw [afterRead, answerCollect] at last
    have contradicts := Materializer.skewContradicts (Materializer.collectFails last) skewed
    obtain ⟨mark, marked, listed, lacks, same⟩ := Contribution.callsContradict contradicts
    rw [materializer, syncedTypes] at lacks
    exact ⟨mark, c, stored, marked, (Registry.candidateBelow coherent).1 listed,
      ⟨(Registry.memGlobalMarks coherent mark).2 ⟨id, c, stored, marked⟩, lacks⟩, same⟩

def reported [Preserving φ] (ix : Index φ) : Action φ → Option QueryError
  | .sync => failure? (ix.answer Query.sync)
  | .ingest id =>
      match ix.registry.program.module? id with
      | none => none
      | some m => failure? (ix.answer (Query.ingest m))
  | .subtypes base => failure? (ix.answer (Query.subtypes base))
  | .subtypesIn base id => failure? (ix.answer (Query.subtypesIn base id))
  | .attributes type => failure? (ix.answer (Query.attributes type))
  | .attributesIn type id => failure? (ix.answer (Query.attributesIn type id))
  | .indexedTypes => failure? (ix.answer Query.indexedTypes)
  | .instances => failure? (ix.answer Query.instances)
  | .preservedRoots => failure? (ix.answer Query.preservedRoots)
  | .view _ => failure? (ix.answer Query.flattenedView)
  | .load _ | .drop _ | .release | .invalidate => none

theorem skewContradicted [Preserving φ] (views : ix.Views w) {asked : Action φ} (failed : ix.reported asked = some e)
    (skewed : e.Skewed) : ∃ mark, ix.Contradicted mark ∧ e = mark.skew := by
  cases asked with
  | sync => exact absurd skewed (Query.skewlessSync _ _ (failureIff.1 failed))
  | ingest id =>
      simp only [reported] at failed
      split at failed
      · cases failed
      · exact absurd skewed (Query.skewlessIngest _ _ _ (failureIff.1 failed))
  | subtypes base => exact absurd skewed (Query.skewlessSubtypes base _ _ (failureIff.1 failed))
  | subtypesIn base id => exact absurd skewed (Query.skewlessSubtypesIn base id _ _ (failureIff.1 failed))
  | attributes type => exact attributesSkewed (failureIff.1 failed) skewed
  | attributesIn type id =>
      obtain ⟨mark, _, _, _, _, contradicted, same⟩ := attributesInSkewed views (failureIff.1 failed) skewed
      exact ⟨mark, contradicted, same⟩
  | indexedTypes => exact absurd skewed (Query.skewlessIndexedTypes _ _ (failureIff.1 failed))
  | instances => exact instancesSkewed (failureIff.1 failed) skewed
  | preservedRoots => exact preservedRootsSkewed (failureIff.1 failed) skewed
  | view slot => exact flattenedSkewed (failureIff.1 failed) skewed
  | load m => cases failed
  | drop slot => cases failed
  | release => cases failed
  | invalidate => cases failed

/-- Whatever is asked of an index that a run reaches, a skew names a declaration that an ingested module
marks under the key and that carries nothing for it. When no record claims a marker, the key takes
parameters. -/
theorem skewReports [Preserving φ] (reached : ix.Reachable) (asked : Action φ) (text : String) (key : TypeName)
    (failed : ix.reported asked = some (.metadataSkew text key)) :
    (∃ id c mark, ix.synced.registry.contribution? id = some c ∧ mark ∈ c.marks.toList ∧
      mark.target.text = text ∧ mark.marker = key ∧ ix.types.Disagrees mark.target key) ∧
    ((∀ ρ ∈ ix.registry.program.records, ρ.marker = none) →
      ∃ d, ix.types.find? key = some d ∧ d.parameters ≠ []) := by
  obtain ⟨w, views⟩ := reachableViews reached
  have coherent := (viewsSynced views).coherent
  obtain ⟨mark, contradicted, same⟩ := skewContradicted views failed ⟨text, key, rfl⟩
  obtain ⟨sameText, sameKey⟩ := QueryError.metadataSkew.inj same
  subst sameText sameKey
  obtain ⟨id, c, stored, marked⟩ := (Registry.memGlobalMarks coherent mark).1 contradicted.marked
  have known := Registry.markerKnown coherent stored marked
  rw [show ix.synced.registry.program.knownTypes = ix.types from syncedTypes] at known
  have disagrees := Universe.disagrees known contradicted.lacks
  refine ⟨⟨id, c, mark, stored, marked, rfl, rfl, disagrees⟩, fun free => ?_⟩
  rw [← (Registry.movesRecords Registry.syncMoves).1] at free
  obtain ⟨a, attached, itself⟩ := Registry.unclaimedAttached coherent free stored marked
  exact disagrees.itself a attached itself

def genericTarget : TypeDef where
  name := "D"
  owner := "X"
  kind := .classType
  attachments := [⟨"Tag", .plain false, 0⟩]

def genericModules : List CodeModule :=
  [({ id := "Runtime" } : CodeModule)
      |>.define { name := "Retrieve", owner := "Runtime", kind := .annotationType, retrievable := true }
      |>.define {
          name := "Tag"
          owner := "Runtime"
          kind := .annotationType
          parameters := ["T"]
          base := some { name := "Retrieve" } },
    (({ id := "X" } : CodeModule).define genericTarget).withRecords (.eager [{ type := "D" }])]

def genericIndex : Index := ofProgram {} 10 (.ofModules genericModules)

theorem genericTagSkewed :
    (genericIndex.answer (Query.attributes "Tag") = .error (.metadataSkew "D" "Tag") ∧
      genericIndex.answer (Query.attributesIn "Tag" "X") = .error (.metadataSkew "D" "Tag") ∧
      genericIndex.answer Query.instances = .error (.metadataSkew "D" "Tag")) ∧
    (∀ ρ ∈ genericIndex.registry.program.records, ρ.marker = none) ∧
      genericIndex.synced.registry.global.marks.toList = [⟨"Tag", ⟨genericTarget, none⟩⟩] := by
  decide +kernel

theorem genericTagDisagrees :
    genericIndex.reported (.attributes "Tag") = some (.metadataSkew "D" "Tag") ∧
      (∃ id c mark, genericIndex.synced.registry.contribution? id = some c ∧ mark ∈ c.marks.toList ∧
        mark.target.text = "D" ∧ mark.marker = "Tag" ∧ genericIndex.types.Disagrees mark.target "Tag") ∧
      ∃ d, genericIndex.types.find? "Tag" = some d ∧ d.parameters ≠ [] := by
  have failed : genericIndex.reported (.attributes "Tag") = some (.metadataSkew "D" "Tag") := by decide +kernel
  have reached : genericIndex.Reachable := ⟨{}, 10, genericModules, [], rfl⟩
  obtain ⟨disagrees, generic⟩ := skewReports reached (.attributes "Tag") "D" "Tag" failed
  exact ⟨failed, disagrees, generic (by decide +kernel)⟩

end Index
end MetadataIndex
