import MetadataIndex.Proofs.AlikeRuns
import MetadataIndex.Proofs.ViewAnswers

/-! What the handling of views shows in answers. Dropping views, or not keeping them, changes neither
which queries succeed nor what those answer that use no attribute view. A query over the attribute
view answers the same exactly when the attachments it asks for fit their markers alike in the types
that both views were built over: a load that lets an attachment fit another marker of its declaration
is not seen by a view that is kept. -/
namespace MetadataIndex
open Std Relation
variable {φ : Type}

def Registry.FitsAlike (r : Registry φ) (u v : Universe φ) (asked : TypeName → Prop) : Prop :=
  ∀ mark ∈ r.global.marks.toList, ∀ a ∈ mark.target.attachments, asked a.type →
    (r.global.Fits u mark.target a.type ↔ r.global.Fits v mark.target a.type)

def Answers {α : Type} (outcome : Except QueryError α) : Prop :=
  (∃ a, outcome = .ok a) ∨ ∃ e, outcome = .error e ∧ Materializer.Undecided e

def SameTags (first second : List (Instance φ)) : Prop :=
  ∀ tag, tag ∈ first.map Instance.id ↔ tag ∈ second.map Instance.id

structure AgreeWhen (agree : Prop) (first second : Except QueryError (List (Instance φ))) : Prop where
  there : ∀ a, first = .ok a → Answers second
  back : ∀ b, second = .ok b → Answers first
  tags : ∀ a b, first = .ok a → second = .ok b → (SameTags a b ↔ agree)

namespace Query
variable {α β γ : Type} {q : QueryOver φ α} {f : α → QueryOver φ β} {ix iy : Index φ}

theorem echoesPart {g : β → γ} (first : Echoes q)
    (rest : ∀ a {ix iy : Index φ}, ix.Alike iy → (ix.answer (f a)).map g = (iy.answer (f a)).map g)
    (alike : ix.Alike iy) : (ix.answer (q >>= f)).map g = (iy.answer (q >>= f)).map g := by
  obtain ⟨answers, alikeAfter⟩ := first alike
  cases outcome : ix.answer q with
  | error e => rw [Index.answerStopped outcome, Index.answerStopped (answers.symm.trans outcome)]
  | ok a =>
      rw [Index.answerNext outcome, Index.answerNext (answers.symm.trans outcome)]
      exact rest a alikeAfter

theorem echoesCandidates (type : TypeName) : Echoes (Query.read fun ix : Index φ => ix.annotationCandidates type) := by
  refine echoesRead fun alike => ?_
  simp only [Index.candidatesEq, alike.registry, alike.limit]

theorem attributesInTags (type : TypeName) (id : ModuleId) (alike : ix.Alike iy) :
    (ix.answer (Query.attributesIn type id)).map (List.map Instance.id) =
      (iy.answer (Query.attributesIn type id)).map (List.map Instance.id) := by
  refine echoesPart (echoesCheckAnnotationType type) (fun _ {_ _} alike => ?_) alike
  refine echoesPart (echoesContribution id) (fun c {_ _} alike => ?_) alike
  cases c with
  | none => rfl
  | some c =>
      refine echoesPart (echoesCandidates type) (fun _ {ix iy} alike => ?_) alike
      rw [Index.answerCollect, Index.answerCollect, Index.alikeMaterializer alike]
      exact Materializer.collectTags _ _

end Query

namespace Index
variable {α β : Type} {ix iy after : Index φ} {w v : Universe φ} {type : TypeName} {q : QueryOver φ α}
  {f : α → QueryOver φ β}

theorem answersBind (first : Answers (ix.answer q))
    (rest : ∀ a, ix.answer q = .ok a → Answers ((ix.after q).answer (f a))) : Answers (ix.answer (q >>= f)) := by
  rcases first with ⟨a, outcome⟩ | ⟨e, outcome, undecided⟩
  · rw [answerNext outcome]
    exact rest a outcome
  · rw [answerStopped outcome]
    exact .inr ⟨e, rfl, undecided⟩

structure Ready (ix : Index φ) : Prop where
  synced : ∃ n, ix.answer Query.sync = .ok n
  sound : Materializer.Sound ix.synced.types (AttributeGroups.calls ix.synced.registry.global)

theorem alikeSynced (alike : ix.Alike iy) : ix.synced.Alike iy.synced := (Query.echoesSync alike).2

theorem readyAlike (alike : ix.Alike iy) (ready : ix.Ready) : iy.Ready := by
  obtain ⟨⟨n, synced⟩, sound⟩ := ready
  refine ⟨⟨n, (Query.echoesSync alike).1.symm.trans synced⟩, ?_⟩
  rwa [← alikeTypes (alikeSynced alike), ← (alikeSynced alike).registry]

theorem readyGiven {groups : AttributeGroups φ} (given : ix.Given (ix.shownOver after w) groups)
    (views : ix.Views w) (keeps : ix.Keeps after) : ix.Ready := by
  have older := (keeps.views w views).older
  rw [keeps.types] at older
  refine ⟨given.synced, ?_⟩
  rw [syncedTypes]
  exact givenSound given older

theorem readyView (ready : ix.Ready) : Answers (ix.synced.answer Query.attributeView) :=
  viewOutcome ready.sound

theorem readyInstances (ready : ix.Ready) : Answers (ix.answer Query.instances) := by
  obtain ⟨n, synced⟩ := ready.synced
  refine answersBind (.inl ⟨n, synced⟩) fun _ _ => ?_
  rw [afterSync]
  exact answersBind (readyView ready) fun s _ => .inl ⟨_, answerPure _⟩

theorem readyFlattened (views : ix.Views w) (ready : ix.Ready) : Answers (ix.answer Query.flattenedView) := by
  obtain ⟨n, synced⟩ := ready.synced
  refine answersBind (.inl ⟨n, synced⟩) fun _ _ => ?_
  rw [afterSync]
  obtain ⟨types, typed, _⟩ := typeViewRight (viewsSynced views)
  refine answersBind (.inl ⟨types, typed⟩) fun _ _ => ?_
  exact answersBind (viewOutcome ready.sound) fun s _ => .inl ⟨_, answerPure _⟩

theorem readyAttributes (ready : ix.Ready) (checked : ix.answer (Query.read (·.checkAnnotationType type)) = .ok ()) :
    Answers (ix.answer (Query.attributes type)) := by
  obtain ⟨n, synced⟩ := ready.synced
  refine answersBind (.inl ⟨_, checked⟩) fun _ _ => ?_
  rw [afterRead]
  refine answersBind (.inl ⟨n, synced⟩) fun _ _ => ?_
  rw [afterSync]
  refine answersBind (readyView ready) fun s _ => ?_
  exact answersBind (.inl ⟨_, candidatesEq _ type⟩) fun _ _ => .inl ⟨_, answerPure _⟩

section Agree
variable {r : Registry φ} {asked : TypeName → Prop} {first second : Except QueryError (List (Instance φ))}

theorem agreeShown (coherent : r.Coherent) (there : ∀ a, first = .ok a → Answers second)
    (back : ∀ b, second = .ok b → Answers first)
    (shown : ∀ a, first = .ok a →
      ∀ tag, tag ∈ a.map Instance.id ↔ r.global.Shows w tag ∧ asked tag.type)
    (shownToo : ∀ b, second = .ok b →
      ∀ tag, tag ∈ b.map Instance.id ↔ r.global.Shows v tag ∧ asked tag.type) :
    AgreeWhen (r.FitsAlike w v asked) first second where
  there := there
  back := back
  tags := by
    intro a b ok okToo
    simp only [SameTags, shown a ok, shownToo b okToo]
    rw [Contribution.agreeAtMarks (fun _ holds => Contribution.namesOfShown holds.1) fun _ holds =>
      Contribution.namesOfShown holds.1]
    refine forall₂_congr fun mark member => forall₂_congr fun a attached => ?_
    rw [Registry.showsAt coherent member attached, Registry.showsAt coherent member attached]
    exact and_congr_left_iff

end Agree

theorem agreeInstances (alike : ix.Alike iy) (views : ix.Views w) (viewsToo : iy.Views v) :
    AgreeWhen (ix.synced.registry.FitsAlike (ix.shownOver (ix.after Query.instances) w)
        (iy.shownOver (iy.after Query.instances) v) fun _ => True)
      (ix.answer Query.instances) (iy.answer Query.instances) := by
  refine agreeShown (viewsSynced views).coherent ?_ ?_ ?_ ?_
  · intro a ok
    obtain ⟨groups, given, _⟩ := answerInstances views ok
    exact readyInstances (readyAlike alike (readyGiven given views viewSteps.instances))
  · intro b ok
    obtain ⟨groups, given, _⟩ := answerInstances viewsToo ok
    exact readyInstances (readyAlike (alikeSymm alike) (readyGiven given viewsToo viewSteps.instances))
  · intro a ok tag
    rw [instancesShow views ok, and_true]
  · intro b ok tag
    rw [instancesShow viewsToo ok, and_true, (alikeSynced alike).registry]

theorem agreeAttributes (alike : ix.Alike iy) (views : ix.Views w) (viewsToo : iy.Views v) :
    AgreeWhen (ix.synced.registry.FitsAlike (ix.shownOver (ix.after (Query.attributes type)) w)
        (iy.shownOver (iy.after (Query.attributes type)) v) (ix.synced.registry.Below type))
      (ix.answer (Query.attributes type)) (iy.answer (Query.attributes type)) := by
  have checks := (Query.echoesCheckAnnotationType type alike).1
  refine agreeShown (viewsSynced views).coherent ?_ ?_ ?_ ?_
  · intro a ok
    obtain ⟨groups, given, _⟩ := answerAttributes views ok
    exact readyAttributes (readyAlike alike (readyGiven given views (viewSteps.attributes type)))
      (checks.symm.trans (checkedAttributes ok))
  · intro b ok
    obtain ⟨groups, given, _⟩ := answerAttributes viewsToo ok
    exact readyAttributes (readyAlike (alikeSymm alike) (readyGiven given viewsToo (viewSteps.attributes type)))
      (checks.trans (checkedAttributes ok))
  · intro a ok tag
    exact attributesShow views ok
  · intro b ok tag
    rw [attributesShow viewsToo ok, (alikeSynced alike).registry]

def viewInstances (ix : Index φ) : Except QueryError (List (Instance φ)) :=
  (ix.answer Query.flattenedView).map fun view => view.attributes.content.instances

theorem viewInstancesOk {answer : List (Instance φ)} :
    ix.viewInstances = .ok answer ↔
      ∃ view, ix.answer Query.flattenedView = .ok view ∧ view.attributes.content.instances = answer := mapOk

theorem viewInstancesAnswer (answers : Answers (ix.answer Query.flattenedView)) : Answers ix.viewInstances := by
  unfold viewInstances
  rcases answers with ⟨view, outcome⟩ | ⟨e, outcome, undecided⟩
  · rw [outcome]
    exact .inl ⟨_, rfl⟩
  · rw [outcome]
    exact .inr ⟨e, rfl, undecided⟩

theorem agreeFlattened (alike : ix.Alike iy) (views : ix.Views w) (viewsToo : iy.Views v) :
    AgreeWhen (ix.synced.registry.FitsAlike (ix.shownOver (ix.after Query.flattenedView) w)
        (iy.shownOver (iy.after Query.flattenedView) v) fun _ => True)
      ix.viewInstances iy.viewInstances := by
  refine agreeShown (viewsSynced views).coherent ?_ ?_ ?_ ?_
  · intro a ok
    obtain ⟨view, ok, _⟩ := viewInstancesOk.1 ok
    have ready := readyGiven (answerFlattened views ok).1 views viewSteps.flattenedView
    exact viewInstancesAnswer (readyFlattened viewsToo (readyAlike alike ready))
  · intro b ok
    obtain ⟨view, ok, _⟩ := viewInstancesOk.1 ok
    have ready := readyGiven (answerFlattened viewsToo ok).1 viewsToo viewSteps.flattenedView
    exact viewInstancesAnswer (readyFlattened views (readyAlike (alikeSymm alike) ready))
  · intro a ok tag
    obtain ⟨view, ok, same⟩ := viewInstancesOk.1 ok
    rw [← same, givenShows (answerFlattened views ok).1, and_true]
  · intro b ok tag
    obtain ⟨view, ok, same⟩ := viewInstancesOk.1 ok
    rw [← same, givenShows (answerFlattened viewsToo ok).1, and_true, (alikeSynced alike).registry]

theorem answerIndexedTypes (views : ix.Views w) :
    ix.answer Query.indexedTypes = (ix.answer Query.sync).map fun _ => ix.synced.registry.global.types.toList := by
  cases synced : ix.answer Query.sync with
  | error e =>
      rw [Query.indexedTypes, answerStopped synced]
      rfl
  | ok n =>
      rw [Query.indexedTypes, answerNext synced, afterSync]
      obtain ⟨types, typed, content⟩ := typeViewRight (viewsSynced views)
      rw [answerNext typed, answerPure, content]
      rfl

structure AnswersAlike (ix iy : Index φ) (shown shownToo : Action φ → Universe φ) : Prop where
  subtypes : ∀ base, ix.answer (Query.subtypes base) = iy.answer (Query.subtypes base)
  subtypesIn : ∀ base id, ix.answer (Query.subtypesIn base id) = iy.answer (Query.subtypesIn base id)
  indexedTypes : ix.answer Query.indexedTypes = iy.answer Query.indexedTypes
  attributesIn : ∀ type id, (ix.answer (Query.attributesIn type id)).map (List.map Instance.id) =
    (iy.answer (Query.attributesIn type id)).map (List.map Instance.id)
  flattenedTypes : ∀ view viewToo, ix.answer Query.flattenedView = .ok view →
    iy.answer Query.flattenedView = .ok viewToo → view.types.content = viewToo.types.content
  flattened : AgreeWhen (ix.synced.registry.FitsAlike (shown (.view none)) (shownToo (.view none)) fun _ => True)
    ix.viewInstances iy.viewInstances
  instances : AgreeWhen (ix.synced.registry.FitsAlike (shown .instances) (shownToo .instances) fun _ => True)
    (ix.answer Query.instances) (iy.answer Query.instances)
  attributes : ∀ type, AgreeWhen (ix.synced.registry.FitsAlike (shown (.attributes type))
      (shownToo (.attributes type)) (ix.synced.registry.Below type))
    (ix.answer (Query.attributes type)) (iy.answer (Query.attributes type))

theorem answersAlike [Preserving φ] (alike : ix.Alike iy) (views : ix.Views w) (viewsToo : iy.Views v) :
    ix.AnswersAlike iy (fun action => ix.shownOver (ix.perform action) w)
      (fun action => iy.shownOver (iy.perform action) v) where
  subtypes := fun base => (Query.echoesSubtypes base alike).1
  subtypesIn := fun base id => (Query.echoesSubtypesIn base id alike).1
  indexedTypes := by
    rw [answerIndexedTypes views, answerIndexedTypes viewsToo, (Query.echoesSync alike).1,
      (alikeSynced alike).registry]
  attributesIn := fun type id => Query.attributesInTags type id alike
  flattenedTypes := by
    intro view viewToo ok okToo
    rw [(answerFlattened views ok).2, (answerFlattened viewsToo okToo).2, (alikeSynced alike).registry]
  flattened := by
    rw [performView, performView]
    exact agreeFlattened alike views viewsToo
  instances := agreeInstances alike views viewsToo
  attributes := fun _ => agreeAttributes alike views viewsToo

/-- After two runs with the same loads and queries, under any handling of the views in between and
whether or not views are retained, the queries answer alike as far as the attachments asked for fit
alike in the types that the views were built over. -/
theorem viewHandlingShows [Preserving φ] (config : Config) (retainViews : Bool) (limit : Nat)
    (modules : List (CodeModule φ))
    (actions others : List (Action φ)) (same : actions.filter Action.asks = others.filter Action.asks) :
    ((ofProgram config limit (.ofModules modules)).run actions).AnswersAlike
      ((ofProgram { config with retainViews } limit (.ofModules modules)).run others)
      (fun action => (ofProgram config limit (.ofModules modules)).viewTypes
        (Program.ofModules modules).knownTypes (actions ++ [action]))
      (fun action => (ofProgram { config with retainViews } limit (.ofModules modules)).viewTypes
        (Program.ofModules modules).knownTypes (others ++ [action])) := by
  simp only [viewTypesSnoc]
  have alike : (ofProgram config limit (.ofModules modules)).Alike
      (ofProgram { config with retainViews } limit (.ofModules modules)) := ⟨rfl, rfl, rfl⟩
  exact answersAlike (alikeRuns alike same) (viewsRun actions (viewsAtFirst config limit modules))
    (viewsRun others (viewsAtFirst _ limit modules))

def earlyTarget : TypeDef where
  name := "T"
  owner := "X"
  kind := .classType
  attachments := [⟨"Tag", .plain false, 0⟩, ⟨"Late", .plain false, 1⟩]

def earlyModules : List CodeModule :=
  [({ id := "Runtime" } : CodeModule)
      |>.define { name := "Retrieve", owner := "Runtime", kind := .annotationType, retrievable := true }
      |>.define { name := "Tag", owner := "Runtime", kind := .annotationType, base := some { name := "Retrieve" } },
    (({ id := "X" } : CodeModule).define earlyTarget).withRecords (.eager [{ type := "T" }])]

def lateModule : CodeModule :=
  ({ id := "L" } : CodeModule)
    |>.define { name := "Late", owner := "L", kind := .annotationType, base := some { name := "Tag" } }

def earlyIndex : Index := ofProgram {} 10 (.ofModules earlyModules)

def lateTag (type : TypeName) : Tag := ⟨type, ⟨"X", "T", none⟩⟩

theorem keptViewMisses :
    (((earlyIndex.run [.instances, .load lateModule]).answer Query.instances).map (List.map Instance.id) =
        .ok [lateTag "Tag"] ∧
      ((earlyIndex.run [.instances, .load lateModule, .invalidate]).answer Query.instances).map
        (List.map Instance.id) = .ok [lateTag "Tag", lateTag "Late"]) ∧
    (((earlyIndex.run [.instances, .load lateModule]).answer (Query.attributes "Late")).map
        (List.map Instance.id) = .ok [] ∧
      ((earlyIndex.run [.instances, .load lateModule, .invalidate]).answer (Query.attributes "Late")).map
        (List.map Instance.id) = .ok [lateTag "Late"]) := by
  decide +kernel

theorem keptViewFits :
    ¬ (earlyIndex.run [.instances, .load lateModule]).synced.registry.FitsAlike
      (earlyIndex.viewTypes (Program.ofModules earlyModules).knownTypes
        ([.instances, .load lateModule] ++ [.instances]))
      (earlyIndex.viewTypes (Program.ofModules earlyModules).knownTypes
        ([.instances, .load lateModule, .invalidate] ++ [.instances])) fun _ => True := by
  intro fits
  have alike := viewHandlingShows {} true 10 earlyModules [.instances, .load lateModule]
    [.instances, .load lateModule, .invalidate] rfl
  have kept : ((earlyIndex.run [.instances, .load lateModule]).answer Query.instances).map
      (List.map Instance.id) = .ok [lateTag "Tag"] := by decide +kernel
  have rebuilt : ((earlyIndex.run [.instances, .load lateModule, .invalidate]).answer Query.instances).map
      (List.map Instance.id) = .ok [lateTag "Tag", lateTag "Late"] := by decide +kernel
  obtain ⟨a, ok, tags⟩ := mapOk.1 kept
  obtain ⟨b, okToo, tagsToo⟩ := mapOk.1 rebuilt
  have same := (alike.instances.tags a b ok okToo).2 fits (lateTag "Late")
  rw [tags, tagsToo] at same
  revert same
  decide

section Instrumented
variable {groups groupsToo : AttributeGroups φ} {asked : TypeName → Prop} {u : Universe φ}

theorem fitsTimely (alike : ix.Alike iy) (instrumented : ∀ m ∈ ix.registry.program.modules, m.instrumented = true)
    (given : ix.Given u groups) (givenToo : iy.Given v groupsToo) :
    ix.synced.registry.FitsAlike u v asked := by
  rw [given.timely instrumented, givenToo.timely (alike.registry ▸ instrumented), alikeTypes alike]
  exact fun _ _ _ _ _ => Iff.rfl

theorem viewHandlingUnseen [Preserving φ] (config : Config) (retainViews : Bool) (limit : Nat)
    (modules : List (CodeModule φ))
    (actions others : List (Action φ)) (same : actions.filter Action.asks = others.filter Action.asks)
    (instrumented : ∀ m ∈ ((ofProgram config limit (.ofModules modules)).run actions).registry.program.modules,
      m.instrumented = true) :
    (∀ a b, ((ofProgram config limit (.ofModules modules)).run actions).answer Query.instances = .ok a →
      ((ofProgram { config with retainViews } limit (.ofModules modules)).run others).answer Query.instances =
        .ok b → SameTags a b) ∧
    (∀ a b, ((ofProgram config limit (.ofModules modules)).run actions).viewInstances = .ok a →
      ((ofProgram { config with retainViews } limit (.ofModules modules)).run others).viewInstances =
        .ok b → SameTags a b) ∧
    ∀ type a b, ((ofProgram config limit (.ofModules modules)).run actions).answer (Query.attributes type) =
        .ok a →
      ((ofProgram { config with retainViews } limit (.ofModules modules)).run others).answer
        (Query.attributes type) = .ok b → SameTags a b := by
  have start : (ofProgram config limit (.ofModules modules)).Alike
      (ofProgram { config with retainViews } limit (.ofModules modules)) := ⟨rfl, rfl, rfl⟩
  have alike := alikeRuns start same
  have views := viewsRun actions (viewsAtFirst config limit modules)
  have viewsToo := viewsRun others (viewsAtFirst { config with retainViews } limit modules)
  refine ⟨fun a b ok okToo => ?_, fun a b ok okToo => ?_, fun type a b ok okToo => ?_⟩
  · obtain ⟨_, given, _⟩ := answerInstances views ok
    obtain ⟨_, givenToo, _⟩ := answerInstances viewsToo okToo
    exact ((agreeInstances alike views viewsToo).tags a b ok okToo).2 (fitsTimely alike instrumented given givenToo)
  · obtain ⟨_, flat, _⟩ := viewInstancesOk.1 ok
    obtain ⟨_, flatToo, _⟩ := viewInstancesOk.1 okToo
    exact ((agreeFlattened alike views viewsToo).tags a b ok okToo).2
      (fitsTimely alike instrumented (answerFlattened views flat).1 (answerFlattened viewsToo flatToo).1)
  · obtain ⟨_, given, _⟩ := answerAttributes views ok
    obtain ⟨_, givenToo, _⟩ := answerAttributes viewsToo okToo
    exact ((agreeAttributes alike views viewsToo).tags a b ok okToo).2 (fitsTimely alike instrumented given givenToo)

end Instrumented

end Index
end MetadataIndex
