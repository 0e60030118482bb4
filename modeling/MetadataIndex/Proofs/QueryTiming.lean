import MetadataIndex.Proofs.AlikePrograms
import MetadataIndex.Proofs.IngestionTypes

/-! Queries between the loads of a program. A query that comes after all loads, with the views
invalidated, finds nothing that it would not find if it were the first one, but it misses what the links
and marks told by earlier ingestions miss. It misses nothing when no definition that a module's
lineages lacked at its ingestion was loaded later. -/
namespace MetadataIndex
open Std Relation
variable {φ : Type}

namespace Registry
variable {r s : Registry φ} {m : CodeModule φ}

theorem typesSynced (inv : r.Coherent) (synced : r.Synced) (coherent : s.Coherent)
    (alike : s.program.Alike r.program) {t : TypeName} (member : t ∈ s.global.types.toList) :
    t ∈ r.global.types.toList := by
  obtain ⟨_, c, found, inside⟩ := (memGlobalTypes coherent t).1 member
  obtain ⟨m, listed, u, _, _, instrumented, told⟩ := storedTold coherent found
  subst told
  obtain ⟨n, here, opened⟩ := Program.alikeMember alike listed
  have known := (CodeModule.alikeInstrumented opened).trans instrumented
  obtain ⟨d, stored⟩ := Option.isSome_iff_exists.1 (synced n here known)
  obtain ⟨k, insideToo, v, _, same, _, toldToo⟩ := storedTold inv stored
  have sameModule := moduleUnique inv insideToo here same
  subst sameModule
  subst toldToo
  refine (memGlobalTypes inv t).2 ⟨_, _, stored, CodeModule.memToldTypes.2 ?_⟩
  obtain ⟨ρ, record, named⟩ := CodeModule.memToldTypes.1 inside
  exact ⟨ρ, by rwa [← k.openedRecordList, opened, m.openedRecordList], named⟩

def Settled (r : Registry φ) : Prop :=
  ∀ m ∈ r.program.modules, ∀ c, r.contribution? m.id = some c → c = m.told r.program.knownTypes

theorem settledWithin (inv : r.Coherent) (synced : r.Synced) (settled : r.Settled) (full : s.Full)
    (alike : s.program.Alike r.program) : s.Within r := by
  have holds : ∀ {id c}, s.contribution? id = some c → r.contribution? id = some c := by
    intro id c found
    obtain ⟨m, member, u, now, same, instrumented, told⟩ := derivedTold full.derived found
    subst told
    obtain ⟨n, here, opened⟩ := Program.alikeMember alike member
    have known := (CodeModule.alikeInstrumented opened).trans instrumented
    obtain ⟨d, stored⟩ := Option.isSome_iff_exists.1 (synced n here known)
    have sameTold : d = m.told u := by
      rw [settled n here d stored, CodeModule.alikeTold opened, now, Program.alikeTypes alike]
    rwa [sameTold, CodeModule.alikeId opened, same] at stored
  constructor
  · intro e member
    obtain ⟨id, c, found, inside⟩ := (memGlobalEdges full.coherent e).1 member
    exact (memGlobalEdges inv e).2 ⟨id, c, holds found, inside⟩
  · intro mark member
    obtain ⟨id, c, found, inside⟩ := (memGlobalMarks full.coherent mark).1 member
    exact (memGlobalMarks inv mark).2 ⟨id, c, holds found, inside⟩
  · intro t member
    obtain ⟨id, c, found, inside⟩ := (memGlobalTypes full.coherent t).1 member
    exact (memGlobalTypes inv t).2 ⟨id, c, holds found, inside⟩

end Registry

namespace Index
variable {ix iy after : Index φ} {id : ModuleId}

def Action.loaded? : Action φ → Option (CodeModule φ)
  | .load m => some m
  | _ => none

def loads (actions : List (Action φ)) : List (CodeModule φ) := actions.filterMap Action.loaded?

theorem runAlike [Preserving φ] {p : Program φ} (actions : List (Action φ)) (alike : ix.registry.program.Alike p) :
    (ix.run actions).registry.program.Alike ((loads actions).foldl (fun p m => (p.load m).2) p) := by
  induction actions generalizing ix p with
  | nil => exact alike
  | cons action rest ih =>
      by_cases quiet : action.quiet = true
      · have moves : Registry.Moves ix.registry (ix.perform action).registry := registrySteps.perform quiet
        have nothing : loads (action :: rest) = loads rest := by
          cases action with
          | load m => cases quiet
          | _ => rfl
        rw [nothing]
        exact ih ((Registry.movesAlike moves).trans alike)
      · cases action with
        | load m => exact ih (Program.alikeLoad alike)
        | _ => exact absurd rfl quiet

theorem viewsInvalid {w : Universe φ} (views : ix.Views w) : ix.invalidateViews.Views ix.invalidateViews.types :=
  ⟨views.coherent, Universe.extendsRefl _, SnapshotCache.freshNothing rfl, SnapshotCache.freshNothing rfl,
    fun _ found => by cases found⟩

-- the views that are built after the last load all show the types that are known then
theorem viewsAsked [Preserving φ] (config : Config) (limit : Nat) (earlier later : List (Action φ))
    (quiet : ∀ a ∈ later, a.quiet = true) :
    ((ofProgram config limit {}).run (earlier ++ .invalidate :: later)).Views
      ((ofProgram config limit {}).run (earlier ++ .invalidate :: later)).types := by
  have first := viewsRun earlier (viewsAtFirst config limit [])
  have split : (ofProgram config limit {}).run (earlier ++ .invalidate :: later) =
      ((ofProgram config limit {}).run earlier).invalidateViews.run later := by
    rw [run, List.foldl_append]
    rfl
  rw [split]
  exact viewsTimely (viewSteps.run quiet) (viewsInvalid first)

def Timely [Preserving φ] (ix : Index φ) (actions : List (Action φ)) : Prop :=
  ∀ m ∈ (ix.run actions).registry.program.modules, ∀ u, ix.ingestionTypes m.id actions = some u →
    m.Settled u (ix.run actions).types

theorem timelySettled [Preserving φ] {actions : List (Action φ)} (fresh : ∀ id, ix.registry.isIngested id = false)
    (inv : (ix.run actions).registry.Coherent) (timely : ix.Timely actions) :
    (ix.run actions).synced.registry.Settled := by
  have coherent := Registry.coherentMoves inv (Registry.syncMoves (r := (ix.run actions).registry))
  have types : (ix.run actions).synced.registry.program.knownTypes = (ix.run actions).types := syncedTypes
  have overTypes : ∀ {n c u}, n ∈ (ix.run actions).synced.registry.program.modules →
      (ix.run actions).synced.registry.contribution? n.id = some c →
      (ix.run actions).synced.registry.DerivedOver n.id u → c = n.told u := by
    intro n c u member found ⟨k, inside, same, d, stored, derivation⟩
    rw [Registry.moduleUnique coherent inside member same] at derivation
    rw [found] at stored
    cases stored
    exact CodeModule.deriveOk derivation
  intro n member c found
  rw [types]
  obtain ⟨m, before, same⟩ := Registry.movesModules Registry.syncMoves member
  cases earlier : (ix.run actions).registry.isIngested n.id with
  | false =>
      exact overTypes member found (Registry.derivedByMoves Registry.syncMoves earlier (Registry.ingestedOf found))
  | true =>
      obtain ⟨u, noted, derived, known⟩ := ingestedOver actions (fresh n.id) earlier
      have later : (ix.run actions).synced.registry.DerivedOver n.id u :=
        Registry.movesKeep Registry.derivedOverMove Registry.syncMoves derived
      rw [overTypes member found later]
      rcases same with eq | eq
      · subst eq
        exact CodeModule.toldSettled known (timely n before u noted)
      · subst eq
        rw [m.openedId] at noted
        rw [m.openedTold, m.openedTold, CodeModule.toldSettled known (timely m before u noted)]

end Index

structure FoundOf {α : Type} (found all : List α) (linked : α → Prop) (timely : Prop) : Prop where
  kept : ∀ a ∈ found, a ∈ all
  missing : (∀ a ∈ all, a ∈ found) ↔ ∀ a ∈ all, linked a
  complete : timely → ∀ a ∈ all, a ∈ found

namespace Index
variable {ix iy : Index φ} {timely : Prop}

structure StartsOver (ix iy : Index φ) : Prop where
  views : ix.Views ix.types
  viewsToo : iy.Views iy.types
  nothing : iy.registry.Derived fun _ => False
  alike : ix.registry.program.Alike iy.registry.program

theorem startsFull (starts : ix.StartsOver iy) (synced : iy.synced.registry.Synced) : iy.synced.registry.Full where
  coherent := (viewsSynced starts.viewsToo).coherent
  derived := by
    refine Registry.derivedMoves (fun s member => ?_) Registry.syncMoves
    obtain ⟨_, _, _, impossible, _⟩ := starts.nothing s member
    exact impossible.elim
  synced := synced

theorem startsAlike (starts : ix.StartsOver iy) :
    ix.synced.registry.program.Alike iy.synced.registry.program :=
  (Registry.movesAlike Registry.syncMoves).trans (starts.alike.trans (Registry.movesAlike Registry.syncMoves).symm)

theorem startsTypes (starts : ix.StartsOver iy) : ix.types = iy.types := Program.alikeTypes starts.alike

theorem subtypesTiming {base : TypeRef} {found all : List TypeName} (starts : ix.StartsOver iy)
    (settled : timely → ix.synced.registry.Settled) (ok : ix.answer (Query.subtypes base) = .ok found)
    (okToo : iy.answer (Query.subtypes base) = .ok all) :
    FoundOf found all (ix.synced.registry.Below base.name) timely := by
  obtain ⟨synced, here⟩ := answerSubtypes ok
  obtain ⟨syncedToo, there⟩ := answerSubtypes okToo
  have coherent := (viewsSynced starts.views).coherent
  have full := startsFull starts syncedToo
  have alike := startsAlike starts
  have within := Registry.withinFull coherent full alike
  have types := Program.alikeTypes alike
  have linked : ∀ t ∈ all, ix.synced.registry.Below base.name t → t ∈ found := by
    intro t member below
    obtain ⟨differ, _, typed, fits⟩ := (Registry.subtypesFound full.coherent there).1 member
    have recorded := Registry.typesSynced coherent synced full.coherent alike.symm typed
    exact (Registry.subtypesFound coherent here).2 ⟨differ, below, recorded, types ▸ fits⟩
  constructor
  · intro t member
    obtain ⟨differ, below, typed, fits⟩ := (Registry.subtypesFound coherent here).1 member
    exact (Registry.subtypesFound full.coherent there).2
      ⟨differ, Registry.belowWithin within below, within.types t typed, types ▸ fits⟩
  · constructor
    · intro every t member
      exact ((Registry.subtypesFound coherent here).1 (every t member)).2.1
    · exact fun below t member => linked t member (below t member)
  · intro holds t member
    have back := Registry.settledWithin coherent synced (settled holds) full alike.symm
    exact linked t member (Registry.belowWithin back ((Registry.subtypesFound full.coherent there).1 member).2.1)

theorem attributesTiming {type : TypeName} {found all : List (Instance φ)} (starts : ix.StartsOver iy)
    (settled : timely → ix.synced.registry.Settled) (ok : ix.answer (Query.attributes type) = .ok found)
    (okToo : iy.answer (Query.attributes type) = .ok all) :
    FoundOf (found.map Instance.id) (all.map Instance.id) (fun tag =>
      ix.synced.registry.global.Shows ix.types tag ∧ ix.synced.registry.Below type tag.type) timely := by
  have shown : ∀ tag, tag ∈ found.map Instance.id ↔
      ix.synced.registry.global.Shows ix.types tag ∧ ix.synced.registry.Below type tag.type := by
    intro tag
    rw [attributesShow starts.views ok, shownSame (viewSteps.attributes type)]
  have shownToo : ∀ tag, tag ∈ all.map Instance.id ↔
      iy.synced.registry.global.Shows iy.types tag ∧ iy.synced.registry.Below type tag.type := by
    intro tag
    rw [attributesShow starts.viewsToo okToo, shownSame (viewSteps.attributes type)]
  obtain ⟨_, given, _⟩ := answerAttributes starts.views ok
  obtain ⟨_, givenToo, _⟩ := answerAttributes starts.viewsToo okToo
  obtain ⟨_, synced⟩ := given.synced
  obtain ⟨_, syncedToo⟩ := givenToo.synced
  have coherent := (viewsSynced starts.views).coherent
  have full := startsFull starts (syncedOf syncedToo)
  have alike := startsAlike starts
  have within := Registry.withinFull coherent full alike
  constructor
  · intro tag member
    obtain ⟨shows, below⟩ := (shown tag).1 member
    refine (shownToo tag).2 ⟨?_, Registry.belowWithin within below⟩
    exact startsTypes starts ▸ Contribution.showsWithin within.marks shows
  · exact ⟨fun every tag member => (shown tag).1 (every tag member),
      fun linked tag member => (shown tag).2 (linked tag member)⟩
  · intro holds tag member
    have back := Registry.settledWithin coherent (syncedOf synced) (settled holds) full alike.symm
    obtain ⟨shows, below⟩ := (shownToo tag).1 member
    refine (shown tag).2 ⟨?_, Registry.belowWithin back below⟩
    exact (startsTypes starts).symm ▸ Contribution.showsWithin back.marks shows

theorem startsRun [Preserving φ] (config : Config) (limit : Nat) (earlier later : List (Action φ))
    (quiet : ∀ a ∈ later, a.quiet = true) :
    ((ofProgram config limit {}).run (earlier ++ .invalidate :: later)).StartsOver
      (ofProgram config limit (.ofModules (loads earlier))) where
  views := viewsAsked config limit earlier later quiet
  viewsToo := viewsAtFirst config limit _
  nothing := by
    intro s member
    cases member
  alike := by
    have first : (ofProgram config limit ({} : Program φ)).registry.program.Alike {} := rfl
    have alike := runAlike (earlier ++ .invalidate :: later) first
    have same : loads (earlier ++ .invalidate :: later) = loads earlier := by
      have none : loads (.invalidate :: later) = [] := by
        refine List.filterMap_eq_nil_iff.2 fun action member => ?_
        rcases List.mem_cons.1 member with same | rest
        · rw [same]
          rfl
        · have still := quiet action rest
          cases action with
          | load m => cases still
          | _ => rfl
      rw [loads, List.filterMap_append, ← loads, ← loads, none, List.append_nil]
    rwa [same] at alike

/-- Queries between the loads, and an invalidation after them, against the same loads done first: what
a query finds in the first case it finds in the second one too, it misses exactly what is not linked
or marked by what the ingestions told, and nothing when these were timely. -/
theorem queryTiming [Preserving φ] (config : Config) (limit : Nat) (earlier later : List (Action φ))
    (quiet : ∀ a ∈ later, a.quiet = true) :
    (∀ base found all,
      ((ofProgram config limit {}).run (earlier ++ .invalidate :: later)).answer (Query.subtypes base) = .ok found →
      (ofProgram config limit (.ofModules (loads earlier))).answer (Query.subtypes base) = .ok all →
      FoundOf found all
        (((ofProgram config limit {}).run (earlier ++ .invalidate :: later)).synced.registry.Below base.name)
        ((ofProgram config limit {}).Timely (earlier ++ .invalidate :: later))) ∧
    ∀ type found all,
      ((ofProgram config limit {}).run (earlier ++ .invalidate :: later)).answer (Query.attributes type) = .ok found →
      (ofProgram config limit (.ofModules (loads earlier))).answer (Query.attributes type) = .ok all →
      FoundOf (found.map Instance.id) (all.map Instance.id)
        (fun tag =>
          ((ofProgram config limit {}).run (earlier ++ .invalidate :: later)).synced.registry.global.Shows
              (Program.ofModules (loads earlier)).knownTypes tag ∧
            ((ofProgram config limit {}).run (earlier ++ .invalidate :: later)).synced.registry.Below type tag.type)
        ((ofProgram config limit {}).Timely (earlier ++ .invalidate :: later)) := by
  have starts := startsRun config limit earlier later quiet
  have fresh : ∀ id, (ofProgram config limit ({} : Program φ)).registry.isIngested id = false := fun _ => rfl
  have settled := timelySettled fresh starts.views.coherent
  have types : ((ofProgram config limit {}).run (earlier ++ .invalidate :: later)).types =
      (Program.ofModules (loads earlier)).knownTypes := startsTypes starts
  constructor
  · exact fun base found all ok okToo => subtypesTiming starts settled ok okToo
  · intro type found all ok okToo
    rw [← types]
    exact attributesTiming starts settled ok okToo

def leafModules : List CodeModule :=
  [({ id := "Runtime" } : CodeModule).define { name := "Base", owner := "Runtime", kind := .classType },
    (({ id := "X" } : CodeModule).define
      { name := "Leaf", owner := "X", kind := .classType, base := some { name := "Mid" } }).withRecords
      (.eager [{ type := "Leaf" }])]

def midModule : CodeModule :=
  ({ id := "Lib" } : CodeModule).define
    { name := "Mid", owner := "Lib", kind := .classType, base := some { name := "Base" } }

def leafActions : List Action := leafModules.map .load ++ [.sync, .load midModule]

theorem lateBaseMissed :
    ((ofProgram {} 10 {}).run (leafActions ++ [.invalidate])).answer (Query.subtypes { name := "Base" }) = .ok [] ∧
      (ofProgram {} 10 (.ofModules (loads leafActions))).answer (Query.subtypes { name := "Base" }) =
        .ok ["Leaf"] := by
  decide +kernel

theorem lateBaseUnlinked :
    ¬ ((ofProgram {} 10 {}).run (leafActions ++ [.invalidate, .indexedTypes])).synced.registry.Below "Base" "Leaf" ∧
      ¬ (ofProgram {} 10 {}).Timely (leafActions ++ [.invalidate, .indexedTypes]) := by
  have answers := (queryTiming {} 10 leafActions [.indexedTypes] (by decide)).1 { name := "Base" } [] ["Leaf"]
    (by decide +kernel) (by decide +kernel)
  constructor
  · intro below
    have every := answers.missing.2 fun t member => List.mem_singleton.1 member ▸ below
    cases every "Leaf" (List.mem_singleton.2 rfl)
  · intro timely
    cases answers.complete timely "Leaf" (List.mem_singleton.2 rfl)

end Index
end MetadataIndex
