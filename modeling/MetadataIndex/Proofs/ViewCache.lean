import MetadataIndex.Proofs.AttributeViews
import MetadataIndex.Proofs.SnapshotRuns
import MetadataIndex.Proofs.SubtypeListing

/-! The cached views along a run. A cached snapshot is never newer than the registry, and as long as
it is as new it is what a build over the merged contribution gave. The type view then tells the types
of the index. The attribute view was built over the types known at that time, which loads may have
extended since; the last build of a run is followed to tell over which. -/
namespace MetadataIndex
open Std Relation
variable {φ : Type}

namespace SnapshotCache
variable {α : Type} {c after : SnapshotCache α} {s : Snapshot α} {generation later : Nat} {right wider : α → Prop}

def Fresh (c : SnapshotCache α) (generation : Nat) (right : α → Prop) : Prop :=
  ∀ s, c.weak = some s → s.generation ≤ generation ∧ (s.generation = generation → right s.content)

theorem freshNothing (none : c.weak = none) : c.Fresh generation right := by
  intro s found
  rw [none] at found
  cases found

theorem freshSame (same : after.weak = c.weak) (fresh : c.Fresh generation right) :
    after.Fresh generation right := by
  intro s found
  exact fresh s (same ▸ found)

theorem freshLater (fresh : c.Fresh generation right) (grown : generation < later) : c.Fresh later wider := by
  intro s found
  have older := (fresh s found).1
  exact ⟨by omega, fun same => by omega⟩

theorem reuseRight (fresh : c.Fresh generation right) (reused : c.reuse? generation = some (s, after)) :
    right s.content := by
  obtain ⟨found, recent, _⟩ := reuseWeak reused
  obtain ⟨older, content⟩ := fresh s found
  exact content (Nat.le_antisymm older recent)

theorem freshInstalled {content : α} (holds : right content) :
    (c.install generation content).2.Fresh generation right := by
  intro s found
  cases found
  exact ⟨Nat.le_refl _, fun _ => holds⟩

end SnapshotCache

namespace Registry
variable {r after : Registry φ}

theorem movesGeneration (inv : r.Coherent) (moves : Moves r after) :
    (after.generation = r.generation ∧ after.global = r.global) ∨ r.generation < after.generation := by
  induction moves with
  | refl => exact .inl ⟨rfl, rfl⟩
  | @tail mid last moves move ih =>
      have before := coherentMoves inv moves
      cases move with
      | opened id => exact ih
      | @merged m c _ _ fresh derived =>
          have grown : (mid.merged m c).generation = mid.generation + 1 :=
            mergedGeneration before fresh (CodeModule.deriveOk derived ▸ CodeModule.toldModules)
          right
          rw [grown]
          rcases ih with ⟨same, _⟩ | earlier
          · omega
          · omega

theorem storedIds (inv : r.Coherent) : r.stored.keys ⊆ r.program.modules.map CodeModule.id := by
  intro id stored
  obtain ⟨s, member, same⟩ := List.mem_map.1 stored
  obtain ⟨m, inside, _, _, sameId, _⟩ := inv.origin s member
  exact List.mem_map.2 ⟨m, inside, sameId.trans same⟩

theorem generationBound (inv : r.Coherent) : r.generation ≤ r.program.modules.length := by
  have fewer := r.stored.keysNodup.length_le_of_subset (storedIds inv)
  rwa [List.length_map, OrderedSet.keys, List.length_map, ← OrderedSet.sizeEq, ← inv.generation] at fewer

theorem generationFull (inv : r.Coherent) (synced : r.Synced)
    (instrumented : ∀ m ∈ r.program.modules, m.instrumented = true) :
    r.program.modules.length ≤ r.generation := by
  have stored : r.program.modules.map CodeModule.id ⊆ r.stored.keys := by
    intro id member
    obtain ⟨m, inside, same⟩ := List.mem_map.1 member
    obtain ⟨c, found⟩ := Option.isSome_iff_exists.1 (synced m inside (instrumented m inside))
    exact List.mem_map.2 ⟨_, contributionIff.1 found, same⟩
  have fewer := inv.ids.length_le_of_subset stored
  rwa [List.length_map, OrderedSet.keys, List.length_map, ← OrderedSet.sizeEq, ← inv.generation] at fewer

end Registry

namespace Index
variable {ix after : Index φ} {w : Universe φ}

structure Views (ix : Index φ) (w : Universe φ) : Prop where
  coherent : ix.registry.Coherent
  older : w.Extends ix.types
  types : ix.typeCache.Fresh ix.registry.generation fun types => types = ix.registry.global.types.toList
  attributes : ix.attributeCache.Fresh ix.registry.generation fun groups =>
    ∃ t, (AttributeGroups.build ⟨w, ix.walkLimit⟩ ix.registry.global t).1 = .ok groups
  timely : ∀ s, ix.attributeCache.weak = some s →
    s.generation = ix.registry.program.modules.length → w = ix.types

def shownOver (ix after : Index φ) (w : Universe φ) : Universe φ :=
  if after.attributeCache.built = ix.attributeCache.built then w else after.types

def viewTypes [Preserving φ] (ix : Index φ) (w : Universe φ) : List (Action φ) → Universe φ
  | [] => w
  | action :: rest => (ix.perform action).viewTypes (ix.shownOver (ix.perform action) w) rest

theorem viewTypesSnoc [Preserving φ] (actions : List (Action φ)) (last : Action φ) :
    ix.viewTypes w (actions ++ [last]) =
      (ix.run actions).shownOver ((ix.run actions).perform last) (ix.viewTypes w actions) := by
  induction actions generalizing ix w with
  | nil => rfl
  | cons first rest ih => exact ih

structure Keeps (ix after : Index φ) : Prop where
  limit : after.walkLimit = ix.walkLimit
  types : after.types = ix.types
  built : ix.attributeCache.built ≤ after.attributeCache.built
  views : ∀ w, ix.Views w → after.Views (ix.shownOver after w)

-- views are only ever added, so the last one decides
theorem shownChain {mid : Index φ} (first : ix.Keeps mid) (rest : mid.Keeps after) :
    mid.shownOver after (ix.shownOver mid w) = ix.shownOver after w := by
  have firstBuilt := first.built
  have restBuilt := rest.built
  unfold shownOver
  by_cases late : after.attributeCache.built = mid.attributeCache.built
  · by_cases early : mid.attributeCache.built = ix.attributeCache.built
    · rw [if_pos late, if_pos early, if_pos (late.trans early)]
    · have differ : after.attributeCache.built ≠ ix.attributeCache.built := by omega
      rw [if_pos late, if_neg early, if_neg differ, rest.types]
  · have differ : after.attributeCache.built ≠ ix.attributeCache.built := by omega
    rw [if_neg late, if_neg differ]

theorem keepsChain {mid : Index φ} (first : ix.Keeps mid) (rest : mid.Keeps after) : ix.Keeps after where
  limit := rest.limit.trans first.limit
  types := rest.types.trans first.types
  built := Nat.le_trans first.built rest.built
  views := by
    intro w views
    rw [← shownChain first rest]
    exact rest.views _ (first.views w views)

theorem shownSame (keeps : ix.Keeps after) : ix.shownOver after ix.types = ix.types := by
  unfold shownOver
  split
  · rfl
  · exact keeps.types

theorem viewsTimely (keeps : ix.Keeps after) (views : ix.Views ix.types) : after.Views after.types := by
  have kept := keeps.views _ views
  rwa [shownSame keeps, ← keeps.types] at kept

theorem keepsBuilt (limit : after.walkLimit = ix.walkLimit) (types : after.types = ix.types)
    (built : after.attributeCache.built = ix.attributeCache.built)
    (views : ∀ w, ix.Views w → after.Views w) : ix.Keeps after where
  limit := limit
  types := types
  built := Nat.le_of_eq built.symm
  views := by
    intro w known
    rw [shownOver, if_pos built]
    exact views w known

theorem viewsMoved {r : Registry φ} (views : ix.Views w) (moves : Registry.Moves ix.registry r) :
    ({ ix with registry := r } : Index φ).Views w := by
  have coherent := Registry.coherentMoves views.coherent moves
  have older : w.Extends r.program.knownTypes := by
    rw [Registry.movesTypes moves]
    exact views.older
  have length : r.program.modules.length = ix.registry.program.modules.length := by
    rw [← List.length_map, Registry.movesIds moves, List.length_map]
  have timely : ∀ s, ix.attributeCache.weak = some s →
      s.generation = r.program.modules.length → w = r.program.knownTypes := by
    rw [Registry.movesTypes moves, length]
    exact views.timely
  rcases Registry.movesGeneration views.coherent moves with ⟨same, global⟩ | grown
  · refine ⟨coherent, older, ?_, ?_, timely⟩
    · rw [same, global]
      exact views.types
    · rw [same, global]
      exact views.attributes
  · exact ⟨coherent, older, SnapshotCache.freshLater views.types grown,
      SnapshotCache.freshLater views.attributes grown, timely⟩

theorem keepsMoved {r : Registry φ} (moves : Registry.Moves ix.registry r) :
    ix.Keeps { ix with registry := r } :=
  keepsBuilt rfl (Registry.movesTypes moves) rfl fun _ views => viewsMoved views moves

section TypeView

theorem typeViewAccess :
    ix.answer Query.typeView = (ix.typeCache.getOrBuild ix.registry.generation
        (fun _ => (.ok (ix.registry.generation, ix.registry.global.types.toList), ()) :
          Unit → Except QueryError (Nat × List TypeName) × Unit) ()).1.map Prod.fst ∧
      ix.after Query.typeView = { ix with
        typeCache := (ix.typeCache.getOrBuild ix.registry.generation
          (fun _ => (.ok (ix.registry.generation, ix.registry.global.types.toList), ()) :
            Unit → Except QueryError (Nat × List TypeName) × Unit) ()).2.1 } := ⟨rfl, rfl⟩

theorem typeViewRight (views : ix.Views w) :
    ∃ s, ix.answer Query.typeView = .ok s ∧ s.content = ix.registry.global.types.toList := by
  rw [typeViewAccess.1]
  cases reused : ix.typeCache.reuse? ix.registry.generation with
  | some pair =>
      rw [SnapshotCache.accessReused reused]
      exact ⟨pair.1, rfl, SnapshotCache.reuseRight views.types reused⟩
  | none =>
      rw [SnapshotCache.accessBuilt reused rfl]
      exact ⟨_, rfl, rfl⟩

theorem keepsTypeView : ix.Keeps (ix.after Query.typeView) := by
  rw [typeViewAccess.2]
  cases reused : ix.typeCache.reuse? ix.registry.generation with
  | some pair =>
      rw [SnapshotCache.accessReused reused]
      refine keepsBuilt rfl rfl rfl fun w views => ⟨views.coherent, views.older, ?_, views.attributes, views.timely⟩
      exact SnapshotCache.freshSame (SnapshotCache.reuseWeak reused).2.2.1 views.types
  | none =>
      rw [SnapshotCache.accessBuilt reused rfl]
      exact keepsBuilt rfl rfl rfl fun w views =>
        ⟨views.coherent, views.older, SnapshotCache.freshInstalled rfl, views.attributes, views.timely⟩

end TypeView

section AttributeView

def buildView (ix : Index φ) (t : Tally) : Except QueryError (Nat × AttributeGroups φ) × Tally :=
  let (outcome, t) := AttributeGroups.build ix.materializer ix.registry.global t
  (outcome.map fun groups => (ix.registry.generation, groups), t)

theorem attributeViewAccess :
    ix.answer Query.attributeView =
        (ix.attributeCache.getOrBuild ix.registry.generation ix.buildView ix.tally).1.map Prod.fst ∧
      ix.after Query.attributeView = { ix with
        attributeCache := (ix.attributeCache.getOrBuild ix.registry.generation ix.buildView ix.tally).2.1
        tally := (ix.attributeCache.getOrBuild ix.registry.generation ix.buildView ix.tally).2.2 } :=
  ⟨rfl, rfl⟩

theorem viewRegistry : (ix.after Query.attributeView).registry = ix.registry := rfl

theorem viewLimit : (ix.after Query.attributeView).walkLimit = ix.walkLimit := rfl

inductive ViewAccess (ix : Index φ) : Except QueryError (Snapshot (AttributeGroups φ)) → Index φ → Prop where
  | reused {s : Snapshot (AttributeGroups φ)} {c : SnapshotCache (AttributeGroups φ)}
      (reused : ix.attributeCache.reuse? ix.registry.generation = some (s, c)) :
      ViewAccess ix (.ok s) { ix with attributeCache := c }
  | failed {e : QueryError} (t : Tally) (unused : ix.attributeCache.reuse? ix.registry.generation = none)
      (failed : (AttributeGroups.build ix.materializer ix.registry.global ix.tally).1 = .error e) :
      ViewAccess ix (.error e) { ix with tally := t }
  | built {groups : AttributeGroups φ} (t : Tally)
      (unused : ix.attributeCache.reuse? ix.registry.generation = none)
      (made : (AttributeGroups.build ix.materializer ix.registry.global ix.tally).1 = .ok groups) :
      ViewAccess ix (.ok (ix.attributeCache.install ix.registry.generation groups).1)
        { ix with
          attributeCache := (ix.attributeCache.install ix.registry.generation groups).2
          tally := t }

theorem viewAccess (ix : Index φ) :
    ix.ViewAccess (ix.answer Query.attributeView) (ix.after Query.attributeView) := by
  rw [attributeViewAccess.1, attributeViewAccess.2]
  cases reused : ix.attributeCache.reuse? ix.registry.generation with
  | some pair =>
      rw [SnapshotCache.accessReused reused]
      exact .reused reused
  | none =>
      cases made : AttributeGroups.build ix.materializer ix.registry.global ix.tally with
      | mk outcome t =>
          have first : (AttributeGroups.build ix.materializer ix.registry.global ix.tally).1 = outcome := by
            rw [made]
          cases outcome with
          | error e =>
              have failed : ix.buildView ix.tally = (.error e, t) := by
                rw [buildView, made]
                rfl
              rw [SnapshotCache.accessFailed reused failed]
              exact .failed t reused first
          | ok groups =>
              have built : ix.buildView ix.tally = (.ok (ix.registry.generation, groups), t) := by
                rw [buildView, made]
                rfl
              rw [SnapshotCache.accessBuilt reused built]
              exact .built t reused first

theorem keepsAttributeView : ix.Keeps (ix.after Query.attributeView) := by
  have access := ix.viewAccess
  generalize ix.after Query.attributeView = after at access
  generalize ix.answer Query.attributeView = answer at access
  cases access with
  | reused reused =>
      obtain ⟨_, _, weak, built⟩ := SnapshotCache.reuseWeak reused
      exact keepsBuilt rfl rfl built fun w views =>
        ⟨views.coherent, views.older, views.types, SnapshotCache.freshSame weak views.attributes,
          fun s found => views.timely s (weak ▸ found)⟩
  | failed t _ _ =>
      exact keepsBuilt rfl rfl rfl fun w views =>
        ⟨views.coherent, views.older, views.types, views.attributes, views.timely⟩
  | built t _ made =>
      refine ⟨rfl, rfl, Nat.le_succ _, fun w views => ?_⟩
      have grown : ix.attributeCache.built + 1 ≠ ix.attributeCache.built := by omega
      rw [shownOver]
      change Views _ (if ix.attributeCache.built + 1 = ix.attributeCache.built then w else ix.types)
      rw [if_neg grown]
      exact ⟨views.coherent, Universe.extendsRefl _, views.types, SnapshotCache.freshInstalled ⟨ix.tally, made⟩,
        fun _ _ _ => rfl⟩

end AttributeView

theorem viewSteps : Steps (@Keeps φ) where
  same := fun _ => keepsBuilt rfl rfl rfl fun _ views => views
  chain := keepsChain
  sync := fun _ => keepsMoved Registry.syncMoves
  ingest := fun _ _ held => keepsMoved (Registry.ingestMoves held)
  collect := fun _ _ => keepsBuilt rfl rfl rfl fun _ views =>
    ⟨views.coherent, views.older, views.types, views.attributes, views.timely⟩
  typeView := fun _ => keepsTypeView
  attributeView := fun _ => keepsAttributeView
  hold := fun _ _ _ => keepsBuilt rfl rfl rfl fun _ views =>
    ⟨views.coherent, views.older, views.types, views.attributes, views.timely⟩
  drop := fun _ _ => keepsBuilt rfl rfl rfl fun _ views =>
    ⟨views.coherent, views.older, views.types, views.attributes, views.timely⟩
  release := fun _ => keepsBuilt rfl rfl rfl fun _ views =>
    ⟨views.coherent, views.older, views.types, views.attributes, views.timely⟩
  invalidate := fun _ => keepsBuilt rfl rfl rfl fun _ views =>
    ⟨views.coherent, views.older, SnapshotCache.freshNothing rfl, SnapshotCache.freshNothing rfl,
      fun _ found => by cases found⟩

theorem viewsLoad (m : CodeModule φ) (views : ix.Views w) : (ix.load m).2.Views w := by
  change ({ ix with registry := (ix.registry.load m).2 } : Index φ).Views w
  rcases Registry.loadCases (r := ix.registry) (m := m) with same | ⟨fresh, same⟩
  · rw [same]
    exact views
  · rw [same]
    refine ⟨Registry.coherentLoad views.coherent fresh,
      Universe.extendsTrans views.older Program.loadExtends, views.types, views.attributes, ?_⟩
    -- no view is as recent as a module that was not there before
    intro s found recent
    have older := (views.attributes s found).1
    have bound := Registry.generationBound views.coherent
    have grown : (ix.registry.joined m).program.modules.length = ix.registry.program.modules.length + 1 := by
      rw [Registry.joined, Program.loadFresh fresh, List.length_append, List.length_singleton]
    rw [grown] at recent
    omega

theorem viewsRun [Preserving φ] (actions : List (Action φ)) (views : ix.Views w) :
    (ix.run actions).Views (ix.viewTypes w actions) := by
  induction actions generalizing ix w with
  | nil => exact views
  | cons action rest ih =>
      refine ih ?_
      cases action with
      | load m =>
          have same : (ix.perform (.load m)).attributeCache.built = ix.attributeCache.built := rfl
          rw [shownOver, if_pos same]
          exact viewsLoad m views
      | _ => exact (viewSteps.perform rfl).views w views

theorem viewsAtFirst (config : Config) (limit : Nat) (modules : List (CodeModule φ)) :
    (ofProgram config limit (.ofModules modules)).Views (Program.ofModules modules).knownTypes :=
  ⟨Registry.coherentLoaded modules, Universe.extendsRefl _, SnapshotCache.freshNothing rfl,
    SnapshotCache.freshNothing rfl, fun _ found => by cases found⟩

end Index
end MetadataIndex
