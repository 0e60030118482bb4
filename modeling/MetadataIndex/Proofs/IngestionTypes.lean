import MetadataIndex.Proofs.ViewAnswers

/-! The types over which a run ingests a module, and what later steps still know of them. The stored
contribution is what the module derives over these types, and the types only grow. An attribute view
that is as recent as the registry was built over types that hold those of every ingestion. -/
namespace MetadataIndex
open Std Relation
variable {φ : Type}

namespace Registry
variable {r after : Registry φ} {m : CodeModule φ} {c : Contribution φ} {id : ModuleId} {u : Universe φ}
  {asked : Universe φ → Prop}

def DerivedOver (r : Registry φ) (id : ModuleId) (u : Universe φ) : Prop :=
  ∃ m ∈ r.program.modules, m.id = id ∧ ∃ c, r.contribution? id = some c ∧ m.derive u = .ok c

theorem derivedOverJoined (fresh : r.program.module? m.id = none) (derived : r.DerivedOver id u) :
    (r.joined m).DerivedOver id u := by
  obtain ⟨n, member, rest⟩ := derived
  refine ⟨n, ?_, rest⟩
  rw [joined, Program.loadFresh fresh]
  exact List.mem_append_left _ member

theorem derivedOverMove (move : Move r after) (derived : r.DerivedOver id u) : after.DerivedOver id u := by
  obtain ⟨n, member, same, c, found, derivation⟩ := derived
  obtain ⟨other, opened⟩ := moveOpens move
  obtain ⟨k, inside, eq⟩ : ∃ k ∈ (r.program.opened other).modules, k = n ∨ k = n.opened :=
    Program.keptByOpening member
  refine ⟨k, opened ▸ inside, ?_, c, moveStays move found, ?_⟩
  · rcases eq with eq | eq
    · exact eq ▸ same
    · exact eq ▸ n.openedId.trans same
  · rcases eq with eq | eq
    · exact eq ▸ derivation
    · exact eq ▸ (n.openedDerive u).trans derivation

theorem derivedByMoves (moves : Moves r after) (fresh : r.isIngested id = false)
    (ingested : after.isIngested id = true) : after.DerivedOver id r.program.knownTypes := by
  induction moves with
  | refl =>
      rw [fresh] at ingested
      cases ingested
  | @tail mid last moves move ih =>
      cases known : mid.isIngested id with
      | true => exact derivedOverMove move (ih known)
      | false =>
          cases move with
          | opened _ =>
              have same : mid.isIngested id = true := ingested
              rw [known] at same
              cases same
          | @merged m c held instrumented unknown derivation =>
              obtain ⟨d, found⟩ := Option.isSome_iff_exists.1 ingested
              have listed := contributionIff.1 found
              rw [mergedStored unknown] at listed
              rcases List.mem_append.1 listed with old | added
              · rw [ingestedOf (contributionIff.2 old)] at known
                cases known
              · -- the move that stores the contribution derives it, over types that no move changes
                have entry := List.mem_singleton.1 added
                obtain ⟨sameId, sameStored⟩ := Prod.mk.inj entry
                subst sameId sameStored
                obtain ⟨n, inside, same⟩ : (mid.program.opened m.id).Holds m := Program.holdsOpened held
                refine ⟨n, inside, CodeModule.alikeId same, d, found, ?_⟩
                rw [CodeModule.alikeDerive same, ← movesTypes moves, derivation]

theorem derivedSettled (inv : r.Coherent) (moves : Moves r after) (same : after.generation = r.generation)
    (derived : r.Derived asked) : after.Derived asked := by
  induction moves with
  | refl => exact derived
  | @tail mid last moves move ih =>
      have before := coherentMoves inv moves
      cases move with
      | opened _ => exact derivedOpened (ih same)
      | @merged m c _ _ fresh derivation =>
          have grown : (mid.merged m c).generation = mid.generation + 1 :=
            mergedGeneration before fresh (CodeModule.deriveOk derivation ▸ CodeModule.toldModules)
          rcases movesGeneration inv moves with ⟨still, _⟩ | earlier
          · omega
          · omega

end Registry

namespace Index
variable {ix after : Index φ} {w : Universe φ} {id : ModuleId}

def ingestionTypes [Preserving φ] (ix : Index φ) (id : ModuleId) : List (Action φ) → Option (Universe φ)
  | [] => none
  | action :: rest =>
      if (ix.perform action).registry.isIngested id then some ix.types
      else (ix.perform action).ingestionTypes id rest

theorem derivedOverRun [Preserving φ] {u : Universe φ} (actions : List (Action φ)) (known : u.Extends ix.types)
    (derived : ix.registry.DerivedOver id u) :
    (ix.run actions).registry.DerivedOver id u ∧ u.Extends (ix.run actions).types := by
  refine @runKeeps φ _ (fun r => r.DerivedOver id u ∧ u.Extends r.program.knownTypes) ?_ ?_ ix actions
    ⟨derived, known⟩
  · exact fun fresh before =>
      ⟨Registry.derivedOverJoined fresh before.1, Universe.extendsTrans before.2 Program.loadExtends⟩
  · intro r after move before
    rw [Registry.movesTypes (.single move)]
    exact ⟨Registry.derivedOverMove move before.1, before.2⟩

theorem ingestedOver [Preserving φ] (actions : List (Action φ)) (fresh : ix.registry.isIngested id = false)
    (ingested : (ix.run actions).registry.isIngested id = true) :
    ∃ u, ix.ingestionTypes id actions = some u ∧ (ix.run actions).registry.DerivedOver id u ∧
      u.Extends (ix.run actions).types := by
  induction actions generalizing ix with
  | nil =>
      have same : ix.registry.isIngested id = true := ingested
      rw [fresh] at same
      cases same
  | cons action rest ih =>
      rw [ingestionTypes]
      cases now : (ix.perform action).registry.isIngested id with
      | false =>
          rw [if_neg Bool.false_ne_true]
          exact ih now ingested
      | true =>
          rw [if_pos rfl]
          have quiet : action.quiet = true := by
            cases action with
            | load m =>
                exact absurd now (by rw [show (ix.perform (.load m)).registry.isIngested id = _ from fresh]; simp)
            | _ => rfl
          have moves : Registry.Moves ix.registry (ix.perform action).registry := registrySteps.perform quiet
          have types : (ix.perform action).types = ix.types := Registry.movesTypes moves
          exact ⟨ix.types, rfl, derivedOverRun rest (types ▸ Universe.extendsRefl _)
            (Registry.derivedByMoves moves fresh now)⟩

/-! Views over the types of every ingestion -/

def Grounded (ix : Index φ) (w : Universe φ) : Prop :=
  ∀ s, ix.attributeCache.weak = some s → s.generation = ix.registry.generation →
    ix.registry.Derived fun u => u.Extends w

theorem groundedWeak (grounded : ix.Grounded w) (registry : after.registry = ix.registry)
    (weak : after.attributeCache.weak = ix.attributeCache.weak) : after.Grounded w := by
  intro s found recent
  rw [registry] at recent ⊢
  exact grounded s (weak ▸ found) recent

theorem groundedMoved {r : Registry φ} (views : ix.Views w) (moves : Registry.Moves ix.registry r)
    (grounded : ix.Grounded w) : ({ ix with registry := r } : Index φ).Grounded w := by
  intro s found recent
  have older := (views.attributes s found).1
  have recentHere : s.generation = r.generation := recent
  have same : r.generation = ix.registry.generation := by
    rcases Registry.movesGeneration views.coherent moves with ⟨still, _⟩ | grown
    · exact still
    · omega
  exact Registry.derivedSettled views.coherent moves same (grounded s found (by omega))

theorem groundedView (views : ix.Views w) (grounded : ix.Grounded w) :
    (ix.after Query.attributeView).Grounded (ix.shownOver (ix.after Query.attributeView) w) := by
  have access := ix.viewAccess
  generalize ix.after Query.attributeView = after at access
  generalize ix.answer Query.attributeView = answer at access
  cases access with
  | reused reused =>
      obtain ⟨_, _, weak, built⟩ := SnapshotCache.reuseWeak reused
      rw [shownOver, if_pos built]
      exact groundedWeak grounded rfl weak
  | failed t _ _ =>
      rw [shownOver, if_pos rfl]
      exact groundedWeak grounded rfl rfl
  | built t _ _ =>
      have grown : ix.attributeCache.built + 1 ≠ ix.attributeCache.built := by omega
      rw [shownOver]
      change Grounded _ (if ix.attributeCache.built + 1 = ix.attributeCache.built then w else ix.types)
      rw [if_neg grown]
      exact fun _ _ _ => views.coherent.origin

structure KeepsGrounded (ix after : Index φ) : Prop extends ix.Keeps after where
  grounded : ∀ w, ix.Views w → ix.Grounded w → after.Grounded (ix.shownOver after w)

theorem keepsGroundedWeak (keeps : ix.Keeps after) (registry : after.registry = ix.registry)
    (cache : after.attributeCache.weak = ix.attributeCache.weak ∨ after.attributeCache.weak = none)
    (built : after.attributeCache.built = ix.attributeCache.built) : ix.KeepsGrounded after where
  toKeeps := keeps
  grounded := by
    intro w _ grounded
    rw [shownOver, if_pos built]
    rcases cache with same | none
    · exact groundedWeak grounded registry same
    · intro s found
      rw [none] at found
      cases found

theorem keepsGroundedMoved {r : Registry φ} (moves : Registry.Moves ix.registry r) :
    ix.KeepsGrounded { ix with registry := r } where
  toKeeps := keepsMoved moves
  grounded := by
    intro w views grounded
    rw [shownOver, if_pos rfl]
    exact groundedMoved views moves grounded

theorem groundedSteps : Steps (@KeepsGrounded φ) where
  same := fun ix => keepsGroundedWeak (viewSteps.same ix) rfl (.inl rfl) rfl
  chain := by
    intro ix mid last first rest
    refine ⟨keepsChain first.toKeeps rest.toKeeps, fun w views grounded => ?_⟩
    rw [← shownChain first.toKeeps rest.toKeeps]
    exact rest.grounded _ (first.views w views) (first.grounded w views grounded)
  sync := fun _ => keepsGroundedMoved Registry.syncMoves
  ingest := fun _ _ held => keepsGroundedMoved (Registry.ingestMoves held)
  collect := fun ix calls => keepsGroundedWeak (viewSteps.collect ix calls) rfl (.inl rfl) rfl
  typeView := fun ix => keepsGroundedWeak (viewSteps.typeView ix) rfl (.inl rfl) rfl
  attributeView := fun ix => ⟨viewSteps.attributeView ix, fun _ => groundedView⟩
  hold := fun ix slot view => keepsGroundedWeak (viewSteps.hold ix slot view) rfl (.inl rfl) rfl
  drop := fun ix slot => keepsGroundedWeak (viewSteps.drop ix slot) rfl (.inl rfl) rfl
  release := fun ix => keepsGroundedWeak (viewSteps.release ix) rfl (.inl rfl) rfl
  invalidate := fun ix => keepsGroundedWeak (viewSteps.invalidate ix) rfl (.inr rfl) rfl

theorem groundedLoad (m : CodeModule φ) (grounded : ix.Grounded w) : (ix.load m).2.Grounded w := by
  change ({ ix with registry := (ix.registry.load m).2 } : Index φ).Grounded w
  rcases Registry.loadCases (r := ix.registry) (m := m) with same | ⟨fresh, same⟩
  · rw [same]
    exact grounded
  · rw [same]
    exact fun s found recent => Registry.derivedJoined fresh (fun _ known => known) (grounded s found recent)

theorem groundedPerform [Preserving φ] (action : Action φ) (views : ix.Views w) (grounded : ix.Grounded w) :
    (ix.perform action).Views (ix.shownOver (ix.perform action) w) ∧
      (ix.perform action).Grounded (ix.shownOver (ix.perform action) w) := by
  by_cases quiet : action.quiet = true
  · have keeps : ix.KeepsGrounded (ix.perform action) := groundedSteps.perform quiet
    exact ⟨keeps.views w views, keeps.grounded w views grounded⟩
  · cases action with
    | load m =>
        have same : (ix.perform (.load m)).attributeCache.built = ix.attributeCache.built := rfl
        rw [shownOver, if_pos same]
        exact ⟨viewsLoad m views, groundedLoad m grounded⟩
    | _ => exact absurd rfl quiet

theorem groundedRun [Preserving φ] (actions : List (Action φ)) (views : ix.Views w) (grounded : ix.Grounded w) :
    (ix.run actions).Grounded (ix.viewTypes w actions) := by
  induction actions generalizing ix w with
  | nil => exact grounded
  | cons action rest ih =>
      obtain ⟨next, nextGrounded⟩ := groundedPerform action views grounded
      exact ih next nextGrounded

theorem shownGrounded {answer : List (Instance φ)} {type : TypeName} (views : ix.Views w) (grounded : ix.Grounded w)
    (ok : ix.answer (Query.attributes type) = .ok answer) :
    ix.synced.registry.Derived fun u => u.Extends (ix.shownOver (ix.after (Query.attributes type)) w) := by
  obtain ⟨_, s, _, view, leaves, _⟩ := attributesView ok
  have viewsMid := viewsSynced views
  have groundedMid : ix.synced.Grounded w := groundedMoved views Registry.syncMoves grounded
  rw [leaves]
  change ix.synced.registry.Derived fun u => u.Extends (ix.synced.shownOver (ix.synced.after Query.attributeView) w)
  have access := ix.synced.viewAccess
  rw [view] at access
  generalize ix.synced.after Query.attributeView = after at access
  cases access with
  | reused reused =>
      obtain ⟨found, recent, _, built⟩ := SnapshotCache.reuseWeak reused
      have older := (viewsMid.attributes s found).1
      rw [shownOver, if_pos built]
      exact groundedMid s found (by omega)
  | built t _ _ =>
      have grown : ix.synced.attributeCache.built + 1 ≠ ix.synced.attributeCache.built := by omega
      rw [shownOver]
      change Registry.Derived _ fun u =>
        u.Extends (if ix.synced.attributeCache.built + 1 = ix.synced.attributeCache.built then w else ix.synced.types)
      rw [if_neg grown]
      exact viewsMid.coherent.origin

end Index
end MetadataIndex
