import MetadataIndex.Proofs.AlikePrograms
import MetadataIndex.Proofs.CollectOutcomes
import MetadataIndex.Proofs.ViewHandling

/-! Two indexes over alike programs that have ingested all their modules over the same types. They hold
the same links, marks and types, whatever the order they came in, so a query succeeds on both or on
neither, answers the same set, and fails for the same cause unless a walk met its limit first. -/
namespace MetadataIndex
open Std Relation
variable {φ : Type}

def SameMembers {α : Type} (first second : List α) : Prop := ∀ a, a ∈ first ↔ a ∈ second

def QueryError.Skewed (e : QueryError) : Prop := ∃ declaration marker, e = .metadataSkew declaration marker

def QueryError.SameCause (e d : QueryError) : Prop := e = d ∨ e.Skewed ∧ d.Skewed

def QueryError.SameKind (e d : QueryError) : Prop :=
  e = d ∨ e.Skewed ∧ d.Skewed ∨ Materializer.Undecided e ∧ Materializer.Undecided d

namespace Materializer
variable {m : Materializer φ} {u v : Universe φ} {calls others : List (CollectCall φ)} {e d : QueryError}

def SameFault (m : Materializer φ) (e d : QueryError) : Prop := e.SameKind d ∨ m.Stuck e ∨ m.Stuck d

def SameOrStuck (m : Materializer φ) (e d : QueryError) : Prop := e = d ∨ m.Stuck e ∧ m.Stuck d

def SameUnlessStuck (m : Materializer φ) (e d : QueryError) : Prop := e.SameCause d ∨ m.Stuck e ∨ m.Stuck d

theorem skewedOf (contradicts : Contradicts u calls e) : e.Skewed := by
  obtain ⟨call, _, declaration, _, _, same⟩ := contradicts
  exact ⟨declaration.text, call.key, same⟩

theorem sameUnlessStuck (first : Contradicts u calls e ∨ m.Stuck e) (second : Contradicts v others d ∨ m.Stuck d) :
    m.SameUnlessStuck e d := by
  rcases first with skewed | stuck
  · rcases second with skewedToo | stuck
    · exact .inl (.inr ⟨skewedOf skewed, skewedOf skewedToo⟩)
    · exact .inr (.inr stuck)
  · exact .inr (.inl stuck)

theorem unlessOfOr (same : m.SameOrStuck e d) : m.SameUnlessStuck e d :=
  same.imp .inl fun stuck => .inl stuck.1

theorem kindOfOr (same : m.SameOrStuck e d) : e.SameKind d :=
  same.imp id fun stuck => .inr (stuck.imp undecidedOf undecidedOf)

theorem faultOfUnless (same : m.SameUnlessStuck e d) : m.SameFault e d :=
  same.imp (Or.imp id .inl) id

theorem causeOfUnless (enough : m.types.Suffices m.walkLimit) (same : m.SameUnlessStuck e d) : e.SameCause d :=
  same.resolve_right fun stuck => stuck.elim (decidedUnstuck enough) (decidedUnstuck enough)

end Materializer

inductive SameOutcome {α β : Type} (kind : QueryError → QueryError → Prop) (same : α → β → Prop) :
    Except QueryError α → Except QueryError β → Prop where
  | answers {a : α} {b : β} (compare : same a b) : SameOutcome kind same (.ok a) (.ok b)
  | fails {e d : QueryError} (failed : kind e d) : SameOutcome kind same (.error e) (.error d)

section Outcomes
variable {α β γ δ : Type} {kind wider : QueryError → QueryError → Prop} {same : α → β → Prop}
  {first : Except QueryError α} {second : Except QueryError β}

theorem sameWider (outcomes : SameOutcome kind same first second) (within : ∀ e d, kind e d → wider e d) :
    SameOutcome wider same first second := by
  cases outcomes with
  | answers compare => exact .answers compare
  | fails failed => exact .fails (within _ _ failed)

theorem sameOutcome {outcome : Except QueryError α} (reflexive : ∀ e, kind e e) :
    SameOutcome kind Eq outcome outcome := by
  cases outcome with
  | error e => exact .fails (reflexive e)
  | ok a => exact .answers rfl

theorem sameDecided (both : (∃ a, first = .ok a) ↔ ∃ b, second = .ok b)
    (compare : ∀ a b, first = .ok a → second = .ok b → same a b)
    (failed : ∀ e d, first = .error e → second = .error d → kind e d) : SameOutcome kind same first second := by
  cases first with
  | ok a =>
      obtain ⟨b, ok⟩ := both.1 ⟨a, rfl⟩
      subst ok
      exact .answers (compare a b rfl rfl)
  | error e =>
      cases second with
      | ok b =>
          obtain ⟨_, ok⟩ := both.2 ⟨b, rfl⟩
          cases ok
      | error d => exact .fails (failed e d rfl rfl)

theorem Index.sameBind {ix iy : Index φ} {p : QueryOver φ α} {q : QueryOver φ β} {f : α → QueryOver φ γ}
    {g : β → QueryOver φ δ}
    {other : γ → δ → Prop} (outcomes : SameOutcome kind same (ix.answer p) (iy.answer q))
    (rest : ∀ a b, same a b → ix.answer p = .ok a → iy.answer q = .ok b →
      SameOutcome kind other ((ix.after p).answer (f a)) ((iy.after q).answer (g b))) :
    SameOutcome kind other (ix.answer (p >>= f)) (iy.answer (q >>= g)) := by
  generalize outcome : ix.answer p = here at outcomes
  generalize outcomeToo : iy.answer q = there at outcomes
  cases outcomes with
  | answers compare =>
      rw [answerNext outcome, answerNext outcomeToo]
      exact rest _ _ compare outcome outcomeToo
  | fails failed =>
      rw [answerStopped outcome, answerStopped outcomeToo]
      exact .fails failed

end Outcomes

namespace Registry
variable {r s : Registry φ} {c d : Contribution φ} {above name t : TypeName} {limit : Nat} {id : ModuleId}
  {recordedOnly : Bool}

theorem fullContribution (full : r.Full) (fullToo : s.Full) (alike : r.program.Alike s.program) :
    r.contribution? id = s.contribution? id := by
  have across : ∀ {r s : Registry φ} {c}, r.Full → s.Full → r.program.Alike s.program →
      r.contribution? id = some c → s.contribution? id = some c := by
    intro r s c full fullToo alike found
    obtain ⟨m, member, u, now, same, instrumented, told⟩ := derivedTold full.derived found
    subst same now told
    exact fullHolds fullToo alike member instrumented
  cases found : r.contribution? id with
  | some c => exact (across full fullToo alike found).symm
  | none =>
      cases foundToo : s.contribution? id with
      | none => rfl
      | some d => exact found.symm.trans (across fullToo full alike.symm foundToo)

theorem plainUnstored (inv : r.Coherent) (plain : ∀ m ∈ r.program.modules, m.id = id → m.instrumented = false) :
    r.contribution? id = none := by
  cases found : r.contribution? id with
  | none => rfl
  | some c =>
      obtain ⟨m, member, _, _, sameId, instrumented, _⟩ := storedTold inv found
      rw [plain m member sameId] at instrumented
      cases instrumented

theorem fullSync (synced : r.Synced) : r.sync = (.ok 0, r) := by
  have nothing : r.pending = [] := by
    refine List.filter_eq_nil_iff.2 fun m member waits => ?_
    obtain ⟨instrumented, fresh⟩ := Bool.and_eq_true_iff.1 waits
    rw [synced m member instrumented] at fresh
    cases fresh
  rw [sync, nothing]
  rfl

theorem reachedSame (full : r.Full) (fullToo : s.Full) (alike : r.program.Alike s.program) :
    name ∈ r.graph.reached above ↔ name ∈ s.graph.reached above := by
  have across : ∀ {r s : Registry φ}, r.Full → s.Full → r.program.Alike s.program →
      name ∈ r.graph.reached above → name ∈ s.graph.reached above := by
    intro r s full fullToo alike reached
    have within := withinFull full.coherent fullToo alike
    obtain ⟨named, path⟩ := SubtypeGraph.memReached.1 reached
    obtain ⟨e, edge, ends⟩ := (memGraphNames full.coherent name).1 named
    exact SubtypeGraph.memReached.2 ⟨(memGraphNames fullToo.coherent name).2 ⟨e, within.edges e edge, ends⟩,
      (belowGraph fullToo.coherent).1 (belowWithin within ((belowGraph full.coherent).2 path))⟩
  exact ⟨across full fullToo alike, across fullToo full alike.symm⟩

theorem candidatesSame (full : r.Full) (fullToo : s.Full) (alike : r.program.Alike s.program)
    (edges : ∀ e, e ∈ c.edges.toList ↔ e ∈ d.edges.toList) (types : ∀ t, t ∈ c.types.toList ↔ t ∈ d.types.toList) :
    t ∈ (r.search limit).candidates c recordedOnly above ↔ t ∈ (s.search limit).candidates d recordedOnly above := by
  rw [SubtypeSearch.memCandidates, SubtypeSearch.memCandidates]
  simp only [Contribution.memDirectSubtypes, Contribution.containsType, edges, types]
  refine and_congr_left fun _ => exists_congr fun name => and_congr_left fun _ => ?_
  exact reachedSame full fullToo alike

theorem searchSame (full : r.Full) (fullToo : s.Full) (alike : r.program.Alike s.program)
    (edges : ∀ e, e ∈ c.edges.toList ↔ e ∈ d.edges.toList) (types : ∀ t, t ∈ c.types.toList ↔ t ∈ d.types.toList)
    (base : TypeRef) :
    SameOutcome (⟨r.program.knownTypes, limit⟩ : Materializer φ).SameOrStuck SameMembers
      ((r.search limit).subtypes c base) ((s.search limit).subtypes d base) := by
  have candidates : SameMembers ((r.search limit).candidates c true base.name)
      ((s.search limit).candidates d true base.name) := fun _ => candidatesSame full fullToo alike edges types
  have known : (r.search limit).types = (s.search limit).types := Program.alikeTypes alike
  have limits : (r.search limit).walkLimit = (s.search limit).walkLimit := rfl
  unfold SubtypeSearch.subtypes SubtypeSearch.find
  cases base.shape with
  | partiallyBound => exact .fails (.inl rfl)
  | nonGeneric => exact .answers candidates
  | definition => exact .answers candidates
  | constructed =>
      refine sameDecided ?_ (fun a b ok okToo t => ?_) fun e d failed failedToo => .inr ⟨?_, ?_⟩
      · rw [SubtypeSearch.keepDone, SubtypeSearch.keepDone, known, limits]
        exact ⟨fun decided t member => decided t ((candidates t).2 member),
          fun decided t member => decided t ((candidates t).1 member)⟩
      · rw [(SubtypeSearch.keptAssignable ok).1, (SubtypeSearch.keptAssignable okToo).1, known, limits, candidates t]
      · obtain ⟨t, _, stuck, named⟩ := SubtypeSearch.keepStuck failed
        exact ⟨t, base, named, stuck⟩
      · obtain ⟨t, _, stuck, named⟩ := SubtypeSearch.keepStuck failedToo
        refine ⟨t, base, named, ?_⟩
        change (r.search limit).types.assignable? limit t base = none
        rw [known]
        exact stuck

end Registry

theorem Contribution.callsReady {c : Contribution φ} {m : Materializer φ} {keys : List TypeName} {query : TypeName} :
    (∀ call ∈ c.calls keys query, ∀ d ∈ call.marked, m.Ready call.key call.query d) ↔
      ∀ mark ∈ c.marks.toList, mark.marker ∈ keys → m.Ready mark.marker query mark.target := by
  rw [callsEq]
  constructor
  · intro ready ⟨marker, d⟩ member listed
    exact ready _ (List.mem_map.2 ⟨marker, listed, rfl⟩) d (memMarkedWith.2 member)
  · intro ready call member d marked
    obtain ⟨key, listed, same⟩ := List.mem_map.1 member
    subst same
    exact ready ⟨key, d⟩ (memMarkedWith.1 marked) listed

namespace Index
variable {ix iy : Index φ} {type : TypeName} {id : ModuleId} {e : QueryError}

structure Matching (ix iy : Index φ) : Prop where
  strict : ix.config.strict = iy.config.strict
  limit : ix.walkLimit = iy.walkLimit
  alike : ix.registry.program.Alike iy.registry.program
  full : ix.registry.Full
  fullToo : iy.registry.Full
  views : ix.Views ix.types
  viewsToo : iy.Views iy.types

theorem matchingSymm (matching : ix.Matching iy) : iy.Matching ix :=
  ⟨matching.strict.symm, matching.limit.symm, matching.alike.symm, matching.fullToo, matching.full,
    matching.viewsToo, matching.views⟩

theorem matchingTypes (matching : ix.Matching iy) : ix.types = iy.types := Program.alikeTypes matching.alike

theorem matchingWithin (matching : ix.Matching iy) : ix.registry.Within iy.registry :=
  Registry.withinFull matching.full.coherent matching.fullToo matching.alike

theorem matchingMaterializer (matching : ix.Matching iy) : ix.materializer = iy.materializer := by
  rw [materializer, materializer, matchingTypes matching, matching.limit]

section Full

theorem syncedAlready (done : ix.registry.Synced) : ix.answer Query.sync = .ok 0 ∧ ix.synced = ix := by
  have nothing := Registry.fullSync done
  constructor
  · change ix.registry.sync.1.mapError QueryError.ingest = .ok 0
    rw [nothing]
    rfl
  · rw [synced, nothing]

theorem syncedFull (full : ix.registry.Full) : ix.answer Query.sync = .ok 0 ∧ ix.synced = ix :=
  syncedAlready full.synced

theorem contributionFull (full : ix.registry.Full) :
    ix.answer (Query.contribution id) = .ok (ix.registry.contribution? id) ∧
      ix.after (Query.contribution id) = ix := by
  obtain ⟨synced, same⟩ := syncedFull full
  have looked : ix.answer (Query.read fun ix => .ok (ix.registry.program.module? id)) =
      .ok (ix.registry.program.module? id) := rfl
  rw [contributionEq, answerNext looked, afterNext looked, afterRead]
  cases known : ix.registry.program.module? id with
  | none =>
      refine ⟨(congrArg Except.ok (Registry.plainUnstored full.coherent fun m member sameId => ?_)).symm, rfl⟩
      rw [← sameId, Registry.moduleKnown full.coherent member] at known
      cases known
  | some m =>
      obtain ⟨member, sameId⟩ := Program.moduleFound known
      cases instrumented : m.instrumented with
      | false =>
          simp only [instrumented]
          refine ⟨(congrArg Except.ok (Registry.plainUnstored full.coherent fun n inside sameToo => ?_)).symm, rfl⟩
          rw [Registry.moduleUnique full.coherent inside member (sameToo.trans sameId.symm), instrumented]
      | true =>
          have stored := Registry.fullStored full member instrumented
          simp only [instrumented, if_true]
          rw [answerNext synced, afterNext synced, afterSync, same, ← sameId, stored]
          exact ingestKnown instrumented stored

theorem viewDone (views : ix.Views ix.types) :
    (∃ s, ix.answer Query.attributeView = .ok s) ↔
      ∀ mark ∈ ix.registry.global.marks.toList, ix.materializer.Ready mark.marker mark.marker mark.target := by
  have access := ix.viewAccess
  generalize ix.after Query.attributeView = after at access
  generalize ix.answer Query.attributeView = answer at access
  cases access with
  | @reused s _ reused =>
      obtain ⟨t, built⟩ := SnapshotCache.reuseRight views.attributes reused
      exact iff_of_true ⟨s, rfl⟩ (AttributeGroups.buildDone.1 ⟨_, built⟩)
  | failed t _ failed =>
      refine iff_of_false (fun ⟨_, ok⟩ => by cases ok) fun ready => ?_
      obtain ⟨_, made⟩ := AttributeGroups.buildDone.2 ready
      rw [made] at failed
      cases failed
  | built t _ made => exact iff_of_true ⟨_, rfl⟩ (AttributeGroups.buildDone.1 ⟨_, made⟩)

theorem viewBuildFails (views : ix.Views ix.types)
    (failed : (AttributeGroups.build ix.materializer ix.registry.global ix.tally).1 = .error e) :
    ix.answer Query.attributeView = .error e := by
  have access := ix.viewAccess
  generalize ix.after Query.attributeView = after at access
  generalize ix.answer Query.attributeView = answer at access
  cases access with
  | reused reused =>
      -- a view handed out was built over the same types, and a build that succeeded once succeeds again
      obtain ⟨t, built⟩ := SnapshotCache.reuseRight views.attributes reused
      obtain ⟨_, made⟩ : ∃ groups, (AttributeGroups.build ix.materializer ix.registry.global ix.tally).1 = .ok groups :=
        AttributeGroups.buildDone.2 (AttributeGroups.buildDone.1 ⟨_, built⟩)
      rw [made] at failed
      cases failed
  | failed t _ failedToo =>
      rw [failedToo] at failed
      cases failed
      rfl
  | built t _ made =>
      rw [made] at failed
      cases failed

end Full

theorem matchingBaseCheck (matching : ix.Matching iy) (base : TypeRef) : ix.checkBase base = iy.checkBase base :=
  sameBaseCheck (matchingTypes matching) matching.strict base

theorem matchingTypeCheck (matching : ix.Matching iy) (type : TypeName) :
    ix.checkAnnotationType type = iy.checkAnnotationType type :=
  sameTypeCheck (matchingTypes matching) matching.strict type

theorem sameRead {α : Type} {kind : QueryError → QueryError → Prop} {f : Index φ → Except QueryError α}
    (reflexive : ∀ e, kind e e) (same : f ix = f iy) :
    SameOutcome kind Eq (ix.answer (Query.read f)) (iy.answer (Query.read f)) := by
  rw [answerRead, answerRead, same]
  exact sameOutcome reflexive

theorem sameContribution (matching : ix.Matching iy) {kind : QueryError → QueryError → Prop} :
    SameOutcome kind Eq (ix.answer (Query.contribution id)) (iy.answer (Query.contribution id)) := by
  rw [(contributionFull matching.full).1, (contributionFull matching.fullToo).1]
  exact .answers (Registry.fullContribution matching.full matching.fullToo matching.alike)

theorem matchingSearch (matching : ix.Matching iy) {c d : Contribution φ}
    (edges : ∀ e, e ∈ c.edges.toList ↔ e ∈ d.edges.toList) (types : ∀ t, t ∈ c.types.toList ↔ t ∈ d.types.toList)
    (base : TypeRef) :
    SameOutcome ix.materializer.SameOrStuck SameMembers (ix.search.subtypes c base) (iy.search.subtypes d base) := by
  have same : iy.search = iy.registry.search ix.walkLimit := by
    rw [matching.limit]
    rfl
  rw [same]
  exact Registry.searchSame matching.full matching.fullToo matching.alike edges types base

theorem subtypesMatch (matching : ix.Matching iy) (base : TypeRef) :
    SameOutcome ix.materializer.SameOrStuck SameMembers (ix.answer (Query.subtypes base))
      (iy.answer (Query.subtypes base)) := by
  obtain ⟨synced, still⟩ := syncedFull matching.full
  obtain ⟨syncedToo, stillToo⟩ := syncedFull matching.fullToo
  have within := matchingWithin matching
  have back := matchingWithin (matchingSymm matching)
  refine sameBind (sameRead (fun _ => .inl rfl) (matchingBaseCheck matching base)) fun _ _ _ _ _ => ?_
  rw [afterRead, afterRead, answerNext synced, answerNext syncedToo, afterSync, afterSync, still, stillToo]
  exact matchingSearch matching (fun e => ⟨within.edges e, back.edges e⟩)
    (fun t => ⟨within.types t, back.types t⟩) base

theorem subtypesInMatch (matching : ix.Matching iy) (base : TypeRef) (id : ModuleId) :
    SameOutcome ix.materializer.SameOrStuck SameMembers (ix.answer (Query.subtypesIn base id))
      (iy.answer (Query.subtypesIn base id)) := by
  refine sameBind (sameRead (fun _ => .inl rfl) (matchingBaseCheck matching base)) fun _ _ _ _ _ => ?_
  rw [afterRead, afterRead]
  refine sameBind (sameContribution matching) fun c d same _ _ => ?_
  subst same
  rw [(contributionFull matching.full).2, (contributionFull matching.fullToo).2]
  cases c with
  | none => exact .answers fun _ => Iff.rfl
  | some c => exact matchingSearch matching (fun _ => Iff.rfl) (fun _ => Iff.rfl) base

theorem indexedTypesMatch (matching : ix.Matching iy) {kind : QueryError → QueryError → Prop} :
    SameOutcome kind SameMembers (ix.answer Query.indexedTypes) (iy.answer Query.indexedTypes) := by
  obtain ⟨synced, still⟩ := syncedFull matching.full
  obtain ⟨syncedToo, stillToo⟩ := syncedFull matching.fullToo
  rw [answerIndexedTypes matching.views, answerIndexedTypes matching.viewsToo, synced, syncedToo, still, stillToo]
  exact .answers fun t => ⟨(matchingWithin matching).types t, (matchingWithin (matchingSymm matching)).types t⟩

theorem matchingBelow (matching : ix.Matching iy) {above name : TypeName} :
    ix.registry.Below above name ↔ iy.registry.Below above name :=
  ⟨Registry.belowWithin (matchingWithin matching), Registry.belowWithin (matchingWithin (matchingSymm matching))⟩

theorem viewMatch (matching : ix.Matching iy) :
    SameOutcome ix.materializer.SameUnlessStuck
      (fun s t => ∀ type, SameTags (s.content.ofType type) (t.content.ofType type))
      (ix.answer Query.attributeView) (iy.answer Query.attributeView) := by
  have within := matchingWithin matching
  have back := matchingWithin (matchingSymm matching)
  refine sameDecided ?_ (fun s t ok okToo type tag => ?_) fun e d failed failedToo =>
    Materializer.sameUnlessStuck (viewFails failed) (matchingMaterializer matching ▸ viewFails failedToo)
  · -- the marks are the same on both sides, so the same declarations have to be ready
    rw [viewDone matching.views, viewDone matching.viewsToo, ← matchingMaterializer matching]
    exact ⟨fun ready mark member => ready mark (back.marks mark member),
      fun ready mark member => ready mark (within.marks mark member)⟩
  · obtain ⟨_, built⟩ := (viewGiven matching.views ok).1
    obtain ⟨_, builtToo⟩ := (viewGiven matching.viewsToo okToo).1
    rw [AttributeGroups.buildShowsType built, AttributeGroups.buildShowsType builtToo,
      shownSame keepsAttributeView, shownSame keepsAttributeView, matchingTypes matching]
    exact and_congr_left fun _ => ⟨Contribution.showsWithin within.marks, Contribution.showsWithin back.marks⟩

theorem attributesMatch (matching : ix.Matching iy) (type : TypeName) :
    SameOutcome ix.materializer.SameUnlessStuck SameTags (ix.answer (Query.attributes type))
      (iy.answer (Query.attributes type)) := by
  obtain ⟨synced, still⟩ := syncedFull matching.full
  obtain ⟨syncedToo, stillToo⟩ := syncedFull matching.fullToo
  have checked : SameOutcome ix.materializer.SameUnlessStuck Eq (ix.answer (Query.read (·.checkAnnotationType type)))
      (iy.answer (Query.read (·.checkAnnotationType type))) :=
    sameRead (fun _ => .inl (.inl rfl)) (matchingTypeCheck matching type)
  refine sameBind checked fun _ _ _ _ _ => ?_
  rw [afterRead, afterRead, answerNext synced, answerNext syncedToo, afterSync, afterSync, still, stillToo]
  refine sameBind (viewMatch matching) fun s t same _ _ => ?_
  have found : (ix.after Query.attributeView).answer (Query.read (·.annotationCandidates type)) = _ :=
    candidatesEq (ix.after Query.attributeView) type
  have foundToo : (iy.after Query.attributeView).answer (Query.read (·.annotationCandidates type)) = _ :=
    candidatesEq (iy.after Query.attributeView) type
  rw [answerNext found, answerNext foundToo, answerPure, answerPure, viewRegistry, viewRegistry]
  refine .answers fun tag => ?_
  simp only [List.map_flatMap, List.mem_flatMap, Registry.candidateBelow matching.full.coherent,
    Registry.candidateBelow matching.fullToo.coherent, matchingBelow matching]
  exact exists_congr fun name => and_congr_right fun _ => same name tag

theorem attributesInMatch (matching : ix.Matching iy) (type : TypeName) (id : ModuleId) :
    SameOutcome ix.materializer.SameUnlessStuck SameTags (ix.answer (Query.attributesIn type id))
      (iy.answer (Query.attributesIn type id)) := by
  have checked : SameOutcome ix.materializer.SameUnlessStuck Eq (ix.answer (Query.read (·.checkAnnotationType type)))
      (iy.answer (Query.read (·.checkAnnotationType type))) :=
    sameRead (fun _ => .inl (.inl rfl)) (matchingTypeCheck matching type)
  refine sameBind checked fun _ _ _ _ _ => ?_
  rw [afterRead, afterRead]
  refine sameBind (sameContribution matching) fun c d same _ _ => ?_
  subst same
  rw [(contributionFull matching.full).2, (contributionFull matching.fullToo).2]
  cases c with
  | none => exact .answers fun _ => Iff.rfl
  | some c =>
      have found : ix.answer (Query.read (·.annotationCandidates type)) = _ := candidatesEq ix type
      have foundToo : iy.answer (Query.read (·.annotationCandidates type)) = _ := candidatesEq iy type
      dsimp only
      rw [answerNext found, answerNext foundToo, afterRead, afterRead, answerCollect, answerCollect,
        ← matchingMaterializer matching]
      refine sameDecided ?_ (fun a b ok okToo tag => ?_) fun e d failed failedToo =>
        Materializer.sameUnlessStuck (Materializer.collectFails failed) (Materializer.collectFails failedToo)
      · rw [Materializer.collectDone, Materializer.collectDone, Contribution.callsReady, Contribution.callsReady]
        simp only [Registry.candidateBelow matching.full.coherent, Registry.candidateBelow matching.fullToo.coherent,
          matchingBelow matching]
      · rw [Materializer.collectOk ok, Materializer.collectOk okToo, Contribution.callsPick, Contribution.callsPick]
        simp only [Registry.candidateBelow matching.full.coherent, Registry.candidateBelow matching.fullToo.coherent,
          matchingBelow matching]

structure AnswersMatch (kind : QueryError → QueryError → Prop) (ix iy : Index φ) : Prop where
  subtypes : ∀ base, SameOutcome kind SameMembers (ix.answer (Query.subtypes base)) (iy.answer (Query.subtypes base))
  subtypesIn : ∀ base id, SameOutcome kind SameMembers (ix.answer (Query.subtypesIn base id))
    (iy.answer (Query.subtypesIn base id))
  indexedTypes : SameOutcome kind SameMembers (ix.answer Query.indexedTypes) (iy.answer Query.indexedTypes)
  attributes : ∀ type, SameOutcome kind SameTags (ix.answer (Query.attributes type)) (iy.answer (Query.attributes type))
  attributesIn : ∀ type id, SameOutcome kind SameTags (ix.answer (Query.attributesIn type id))
    (iy.answer (Query.attributesIn type id))

theorem answersMatch (matching : ix.Matching iy) {kind : QueryError → QueryError → Prop}
    (within : ∀ e d, ix.materializer.SameUnlessStuck e d → kind e d) : AnswersMatch kind ix iy where
  subtypes := fun base =>
    sameWider (subtypesMatch matching base) fun _ _ same => within _ _ (Materializer.unlessOfOr same)
  subtypesIn := fun base id =>
    sameWider (subtypesInMatch matching base id) fun _ _ same => within _ _ (Materializer.unlessOfOr same)
  indexedTypes := indexedTypesMatch matching
  attributes := fun type => sameWider (attributesMatch matching type) within
  attributesIn := fun type id => sameWider (attributesInMatch matching type id) within

end Index
end MetadataIndex
