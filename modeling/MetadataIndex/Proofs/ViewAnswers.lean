import MetadataIndex.Proofs.ViewCache

/-! What attribute queries answer, told by the marks of the index. A query over the view answers the
tags that the view shows, of every type or of those below the asked one; a query over one module
answers the marks of that module below the asked type, with the attachments assignable to it. -/
namespace MetadataIndex
open Std Relation
variable {φ : Type}

namespace Registry
variable {r : Registry φ} {above name : TypeName} {limit : Nat}

def Below (r : Registry φ) (above name : TypeName) : Prop :=
  ReflTransGen (fun b d => ∃ kind, ⟨b, d, kind⟩ ∈ r.global.edges.toList) above name

theorem belowGraph (inv : r.Coherent) :
    r.Below above name ↔ ReflTransGen (fun b d => d ∈ (r.graph.below b).toList) above name := by
  have same : (fun b d => ∃ kind, ⟨b, d, kind⟩ ∈ r.global.edges.toList) =
      fun b d => d ∈ (r.graph.below b).toList := by
    funext b d
    exact propext (memGraphBelow inv b d).symm
  rw [Below, same]

theorem candidateBelow (inv : r.Coherent) :
    name ∈ above :: (r.search limit).candidates r.global false above ↔ r.Below above name := by
  rw [List.mem_cons, SubtypeSearch.memCandidates]
  constructor
  · intro member
    rcases member with same | ⟨⟨between, reached, direct⟩, _, _⟩
    · exact same ▸ .refl
    · have path := (belowGraph inv).2 (SubtypeGraph.memReached.1 reached).2
      exact path.tail (Contribution.memDirectSubtypes.1 direct)
  · intro path
    by_cases same : name = above
    · exact .inl same
    · refine .inr ⟨?_, same, by simp⟩
      rcases ReflTransGen.cases_tail path with equal | ⟨between, first, kind, edge⟩
      · exact absurd equal same
      · refine ⟨between, SubtypeGraph.memReached.2 ⟨?_, (belowGraph inv).1 first⟩,
          Contribution.memDirectSubtypes.2 ⟨kind, edge⟩⟩
        exact (memGraphNames inv between).2 ⟨_, edge, .inl rfl⟩

end Registry

namespace Index
variable {ix : Index φ} {w : Universe φ} {tag : Tag} {type : TypeName} {id : ModuleId}

theorem viewsSynced (views : ix.Views w) : ix.synced.Views w := viewsMoved views Registry.syncMoves

theorem syncedTypes : ix.synced.types = ix.types := Registry.movesTypes Registry.syncMoves

theorem answerCollect (calls : List (CollectCall φ)) :
    ix.answer (Query.collect calls) = (ix.materializer.collect calls ix.tally).1 := rfl

theorem candidatesEq (ix : Index φ) (type : TypeName) : ix.annotationCandidates type =
    .ok (type :: (ix.registry.search ix.walkLimit).candidates ix.registry.global false type) := rfl

theorem viewGiven {s : Snapshot (AttributeGroups φ)} (views : ix.Views w)
    (ok : ix.answer Query.attributeView = .ok s) :
    (∃ t, (AttributeGroups.build ⟨ix.shownOver (ix.after Query.attributeView) w, ix.walkLimit⟩
      ix.registry.global t).1 = .ok s.content) ∧
    (ix.registry.Synced → (∀ m ∈ ix.registry.program.modules, m.instrumented = true) →
      ix.shownOver (ix.after Query.attributeView) w = ix.types) := by
  have access := ix.viewAccess
  rw [ok] at access
  generalize ix.after Query.attributeView = after at access
  cases access with
  | reused reused =>
      obtain ⟨found, recent, _, built⟩ := SnapshotCache.reuseWeak reused
      rw [shownOver, if_pos built]
      refine ⟨SnapshotCache.reuseRight views.attributes reused, fun synced instrumented => ?_⟩
      -- as many merges as modules, so the view came after the last module
      have full := Registry.generationFull views.coherent synced instrumented
      have bound := Registry.generationBound views.coherent
      have older := (views.attributes s found).1
      exact views.timely s found (by omega)
  | built t _ made =>
      have grown : ix.attributeCache.built + 1 ≠ ix.attributeCache.built := by omega
      rw [shownOver]
      change (∃ t, (AttributeGroups.build ⟨if ix.attributeCache.built + 1 = ix.attributeCache.built then w
        else ix.types, ix.walkLimit⟩ ix.registry.global t).1 = _) ∧
        (_ → _ → (if ix.attributeCache.built + 1 = ix.attributeCache.built then w else ix.types) = ix.types)
      rw [if_neg grown]
      exact ⟨⟨ix.tally, made⟩, fun _ _ => rfl⟩

theorem viewFails {e : QueryError} (failed : ix.answer Query.attributeView = .error e) :
    Materializer.Contradicts ix.types (AttributeGroups.calls ix.registry.global) e ∨ ix.materializer.Stuck e := by
  have access := ix.viewAccess
  rw [failed] at access
  generalize ix.after Query.attributeView = after at access
  cases access with
  | failed t _ stopped => exact AttributeGroups.buildFails stopped

theorem viewOutcome (sound : Materializer.Sound ix.types (AttributeGroups.calls ix.registry.global)) :
    (∃ s, ix.answer Query.attributeView = .ok s) ∨
      ∃ e, ix.answer Query.attributeView = .error e ∧ Materializer.Undecided e := by
  cases outcome : ix.answer Query.attributeView with
  | ok s => exact .inl ⟨s, rfl⟩
  | error e =>
      have stuck := (viewFails outcome).resolve_left (Materializer.soundAgrees sound)
      exact .inr ⟨e, rfl, Materializer.undecidedOf stuck⟩

structure Given (ix : Index φ) (v : Universe φ) (groups : AttributeGroups φ) : Prop where
  synced : ∃ n, ix.answer Query.sync = .ok n
  built : ∃ t, (AttributeGroups.build ⟨v, ix.walkLimit⟩ ix.synced.registry.global t).1 = .ok groups
  timely : (∀ m ∈ ix.registry.program.modules, m.instrumented = true) → v = ix.types

theorem givenOf {mid : Index φ} {n : Nat} {s : Snapshot (AttributeGroups φ)} (synced : ix.answer Query.sync = .ok n)
    (registry : mid.registry = ix.synced.registry) (limit : mid.walkLimit = ix.walkLimit) (views : mid.Views w)
    (ok : mid.answer Query.attributeView = .ok s) :
    ix.Given (mid.shownOver (mid.after Query.attributeView) w) s.content := by
  obtain ⟨built, timely⟩ := viewGiven views ok
  rw [registry, limit] at built
  refine ⟨⟨n, synced⟩, built, fun instrumented => ?_⟩
  rw [timely, types, registry]
  · exact syncedTypes
  · rw [registry]
    exact syncedOf synced
  · rw [registry]
    intro m member
    obtain ⟨k, inside, _, sameMark⟩ := Registry.moduleBefore Registry.syncMoves member
    exact sameMark.symm.trans (instrumented k inside)

theorem givenSound {v : Universe φ} {groups : AttributeGroups φ} (given : ix.Given v groups)
    (older : v.Extends ix.types) :
    Materializer.Sound ix.types (AttributeGroups.calls ix.synced.registry.global) := by
  obtain ⟨t, built⟩ := given.built
  exact Materializer.soundExtends older (AttributeGroups.buildSound built)

section Queries
variable {answer : List (Instance φ)}

theorem answerInstances (views : ix.Views w) (ok : ix.answer Query.instances = .ok answer) :
    ∃ groups, ix.Given (ix.shownOver (ix.after Query.instances) w) groups ∧ answer = groups.instances := by
  unfold Query.instances at ok ⊢
  obtain ⟨n, synced, rest⟩ := answerBind.1 ok
  rw [afterNext synced]
  rw [afterSync] at rest ⊢
  obtain ⟨s, view, last⟩ := answerBind.1 rest
  rw [afterNext view, afterPure]
  rw [answerPure] at last
  cases last
  exact ⟨s.content, givenOf synced rfl rfl (viewsSynced views) view, rfl⟩

theorem checkedAttributes {answer : List (Instance φ)} (ok : ix.answer (Query.attributes type) = .ok answer) :
    ix.answer (Query.read (·.checkAnnotationType type)) = .ok () := by
  obtain ⟨_, checked, _⟩ := answerBind.1 ok
  exact checked

theorem attributesView (ok : ix.answer (Query.attributes type) = .ok answer) :
    ∃ n s, ix.answer Query.sync = .ok n ∧ ix.synced.answer Query.attributeView = .ok s ∧
      ix.after (Query.attributes type) = ix.synced.after Query.attributeView ∧ answer =
        (type :: (ix.synced.registry.search ix.walkLimit).candidates ix.synced.registry.global false type).flatMap
          s.content.ofType := by
  unfold Query.attributes at ok ⊢
  obtain ⟨_, checked, rest⟩ := answerBind.1 ok
  rw [afterNext checked]
  rw [afterRead] at rest ⊢
  obtain ⟨n, synced, rest⟩ := answerBind.1 rest
  rw [afterNext synced]
  rw [afterSync] at rest ⊢
  obtain ⟨s, view, rest⟩ := answerBind.1 rest
  rw [afterNext view]
  obtain ⟨candidates, found, last⟩ := answerBind.1 rest
  rw [afterNext found, afterRead, afterPure]
  rw [answerRead, candidatesEq, viewRegistry, viewLimit] at found
  rw [answerPure] at last
  cases found
  cases last
  exact ⟨n, s, synced, view, rfl, rfl⟩

theorem answerAttributes (views : ix.Views w) (ok : ix.answer (Query.attributes type) = .ok answer) :
    ∃ groups, ix.Given (ix.shownOver (ix.after (Query.attributes type)) w) groups ∧ answer =
      (type :: (ix.synced.registry.search ix.walkLimit).candidates ix.synced.registry.global false type).flatMap
        groups.ofType := by
  obtain ⟨n, s, synced, view, leaves, same⟩ := attributesView ok
  rw [leaves]
  exact ⟨s.content, givenOf synced rfl rfl (viewsSynced views) view, same⟩

theorem viewsTyped (views : ix.Views w) : (ix.after Query.typeView).Views w := by
  have kept := keepsTypeView.views w views
  have same : (ix.after Query.typeView).attributeCache.built = ix.attributeCache.built := rfl
  rwa [shownOver, if_pos same] at kept

theorem answerFlattened {view : FlattenedView φ} (views : ix.Views w)
    (ok : ix.answer Query.flattenedView = .ok view) :
    ix.Given (ix.shownOver (ix.after Query.flattenedView) w) view.attributes.content ∧
      view.types.content = ix.synced.registry.global.types.toList := by
  unfold Query.flattenedView at ok ⊢
  obtain ⟨n, synced, rest⟩ := answerBind.1 ok
  rw [afterNext synced]
  rw [afterSync] at rest ⊢
  obtain ⟨types, typed, rest⟩ := answerBind.1 rest
  rw [afterNext typed]
  obtain ⟨s, shown, last⟩ := answerBind.1 rest
  rw [afterNext shown, afterPure]
  rw [answerPure] at last
  cases last
  obtain ⟨same, right, content⟩ := typeViewRight (viewsSynced views)
  rw [typed] at right
  cases right
  exact ⟨givenOf synced rfl rfl (viewsTyped (viewsSynced views)) shown, content⟩

theorem givenShows {v : Universe φ} {groups : AttributeGroups φ} (given : ix.Given v groups) :
    tag ∈ groups.instances.map Instance.id ↔ ix.synced.registry.global.Shows v tag := by
  obtain ⟨t, built⟩ := given.built
  exact AttributeGroups.buildShows built

theorem givenShowsBelow {v : Universe φ} {groups : AttributeGroups φ} (inv : ix.synced.registry.Coherent)
    (given : ix.Given v groups) :
    tag ∈ ((type :: (ix.synced.registry.search ix.walkLimit).candidates ix.synced.registry.global false
        type).flatMap groups.ofType).map Instance.id ↔
      ix.synced.registry.global.Shows v tag ∧ ix.synced.registry.Below type tag.type := by
  obtain ⟨t, built⟩ := given.built
  rw [List.map_flatMap, List.mem_flatMap]
  constructor
  · intro ⟨name, candidate, member⟩
    obtain ⟨shown, typed⟩ := (AttributeGroups.buildShowsType built).1 member
    exact ⟨shown, typed ▸ (Registry.candidateBelow inv).1 candidate⟩
  · intro ⟨shown, below⟩
    exact ⟨tag.type, (Registry.candidateBelow inv).2 below,
      (AttributeGroups.buildShowsType built).2 ⟨shown, rfl⟩⟩

theorem instancesShow (views : ix.Views w) (ok : ix.answer Query.instances = .ok answer) :
    tag ∈ answer.map Instance.id ↔
      ix.synced.registry.global.Shows (ix.shownOver (ix.after Query.instances) w) tag := by
  obtain ⟨groups, given, same⟩ := answerInstances views ok
  rw [same, givenShows given]

theorem attributesShow (views : ix.Views w) (ok : ix.answer (Query.attributes type) = .ok answer) :
    tag ∈ answer.map Instance.id ↔
      ix.synced.registry.global.Shows (ix.shownOver (ix.after (Query.attributes type)) w) tag ∧
        ix.synced.registry.Below type tag.type := by
  obtain ⟨groups, given, same⟩ := answerAttributes views ok
  rw [same, givenShowsBelow (viewsSynced views).coherent given]

theorem answerAttributesIn (ok : ix.answer (Query.attributesIn type id) = .ok answer) :
    (answer = [] ∧ ∀ m, ix.registry.program.module? id = some m → m.instrumented = false) ∨
      ∃ c, ix.synced.registry.contribution? id = some c ∧
        (ix.materializer.collect (c.calls (type :: (ix.synced.registry.search ix.walkLimit).candidates
          ix.synced.registry.global false type) type) ix.tally).1 = .ok answer := by
  unfold Query.attributesIn at ok
  obtain ⟨_, checked, rest⟩ := answerBind.1 ok
  rw [afterRead] at rest
  obtain ⟨found, contributed, rest⟩ := answerBind.1 rest
  rcases answerContribution contributed with ⟨none, plain⟩ | ⟨c, n, some, _, stored, leaves⟩
  · subst none
    rw [answerPure] at rest
    cases rest
    exact .inl ⟨rfl, plain⟩
  · subst some
    rw [leaves] at rest
    obtain ⟨candidates, chosen, collected⟩ := answerBind.1 rest
    rw [answerRead, candidatesEq] at chosen
    cases chosen
    rw [afterRead, answerCollect, materializer, syncedTypes] at collected
    exact .inr ⟨c, stored, collected⟩

theorem attributesInShow {m : CodeModule φ} (views : ix.Views w)
    (member : m ∈ ix.registry.program.modules) (instrumented : m.instrumented = true)
    (ok : ix.answer (Query.attributesIn type m.id) = .ok answer) :
    ∃ c, ix.synced.registry.contribution? m.id = some c ∧
      ∀ tag, tag ∈ answer.map Instance.id ↔ ∃ mark ∈ c.marks.toList,
        ix.synced.registry.Below type mark.marker ∧ Materializer.Picks ix.types type mark.target tag := by
  rcases answerAttributesIn ok with ⟨_, plain⟩ | ⟨c, stored, collected⟩
  · have other := plain m (Registry.moduleKnown views.coherent member)
    rw [instrumented] at other
    cases other
  · refine ⟨c, stored, fun tag => ?_⟩
    rw [Materializer.collectOk collected, materializer, Contribution.callsPick]
    simp only [Registry.candidateBelow (viewsSynced views).coherent]

end Queries
end Index
end MetadataIndex
