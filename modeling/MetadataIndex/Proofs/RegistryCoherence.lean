import MetadataIndex.Proofs.GraphEdges
import MetadataIndex.Proofs.RegistryRun

/-! The invariant of a registry that runs from nothing: the merged contribution, the graph and the
generation are functions of the stored contributions alone, and each of these was derived from a
module of the program against types that are still known. Every move keeps it. -/
namespace MetadataIndex
open Std Relation
variable {φ : Type}

namespace Universe
variable {u v w : Universe φ}

theorem extendsRefl (u : Universe φ) : u.Extends u := fun _ _ found => found

theorem extendsTrans (first : u.Extends v) (next : v.Extends w) : u.Extends w :=
  fun name d found => next name d (first name d found)

end Universe

namespace Registry

def contributions (r : Registry φ) : List (Contribution φ) := r.stored.toList.map Prod.snd

def Derived (r : Registry φ) (asked : Universe φ → Prop) : Prop :=
  ∀ s ∈ r.stored.toList, ∃ m ∈ r.program.modules, ∃ u : Universe φ,
    asked u ∧ m.id = s.1 ∧ m.instrumented = true ∧ m.derive u = .ok s.2

structure Coherent (r : Registry φ) : Prop where
  ids : (r.program.modules.map CodeModule.id).Nodup
  origin : r.Derived fun u => u.Extends r.program.knownTypes
  global : r.global = .union r.contributions
  graph : r.graph = .ofEdges (r.contributions.flatMap fun c => c.edges.toList)
  generation : r.generation = r.stored.size

variable {r after : Registry φ} {m : CodeModule φ} {c : Contribution φ} {id : ModuleId}

theorem coherentEmpty : ({} : Registry φ).Coherent where
  ids := List.nodup_nil
  origin := by
    intro s member
    cases member
  global := rfl
  graph := rfl
  generation := rfl

theorem contributionIff : r.contribution? id = some c ↔ (id, c) ∈ r.stored.toList := by
  rw [contribution?, Option.map_eq_some_iff]
  constructor
  · intro ⟨s, found, same⟩
    obtain ⟨member, key⟩ := OrderedSet.findIff.1 found
    subst same key
    exact member
  · intro member
    exact ⟨(id, c), OrderedSet.findIff.2 ⟨member, rfl⟩, rfl⟩

theorem contributionNone : r.contribution? id = none ↔ id ∉ r.stored.keys := by
  rw [contribution?, Option.map_eq_none_iff, OrderedSet.findNone]

theorem memContributions : c ∈ r.contributions ↔ ∃ id, r.contribution? id = some c := by
  rw [contributions, List.mem_map]
  constructor
  · intro ⟨s, member, same⟩
    subst same
    exact ⟨s.1, contributionIff.2 member⟩
  · intro ⟨id, found⟩
    exact ⟨(id, c), contributionIff.1 found, rfl⟩

theorem derivedTold {asked : Universe φ → Prop} (derived : r.Derived asked)
    (found : r.contribution? id = some c) :
    ∃ m ∈ r.program.modules, ∃ u : Universe φ,
      asked u ∧ m.id = id ∧ m.instrumented = true ∧ c = m.told u := by
  obtain ⟨m, member, u, known, same, instrumented, derived⟩ := derived _ (contributionIff.1 found)
  exact ⟨m, member, u, known, same, instrumented, CodeModule.deriveOk derived⟩

theorem storedTold (inv : r.Coherent) (found : r.contribution? id = some c) :
    ∃ m ∈ r.program.modules, ∃ u : Universe φ,
      u.Extends r.program.knownTypes ∧ m.id = id ∧ m.instrumented = true ∧ c = m.told u :=
  derivedTold inv.origin found

theorem memGlobalModules (inv : r.Coherent) : id ∈ r.global.modules.toList ↔ id ∈ r.stored.keys := by
  rw [inv.global, Contribution.memUnionModules]
  constructor
  · intro ⟨c, member, inside⟩
    obtain ⟨owner, found⟩ := memContributions.1 member
    obtain ⟨m, _, u, _, same, _, told⟩ := storedTold inv found
    rw [told, CodeModule.toldModules, List.mem_singleton] at inside
    subst inside
    subst same
    exact List.mem_map.2 ⟨_, contributionIff.1 found, rfl⟩
  · intro member
    obtain ⟨s, stored, same⟩ := List.mem_map.1 member
    have found : r.contribution? s.1 = some s.2 := contributionIff.2 stored
    obtain ⟨m, _, u, _, owner, _, told⟩ := storedTold inv found
    refine ⟨s.2, memContributions.2 ⟨_, found⟩, ?_⟩
    rw [told, CodeModule.toldModules, owner, ← same]
    exact List.mem_singleton.2 rfl

theorem mergedStored (fresh : r.contribution? m.id = none) :
    (r.merged m c).stored.toList = r.stored.toList ++ [(m.id, c)] :=
  OrderedSet.insertFresh (contributionNone.1 fresh)

theorem mergedContributions (fresh : r.contribution? m.id = none) :
    (r.merged m c).contributions = r.contributions ++ [c] := by
  simp [contributions, mergedStored fresh]

theorem derivedJoined {asked wider : Universe φ → Prop} (fresh : r.program.module? m.id = none)
    (weaker : ∀ u, asked u → wider u) (derived : r.Derived asked) : (r.joined m).Derived wider := by
  intro s member
  obtain ⟨n, inside, u, known, rest⟩ := derived s member
  refine ⟨n, ?_, u, weaker u known, rest⟩
  change n ∈ (r.program.load m).2.modules
  rw [Program.loadFresh fresh]
  exact List.mem_append_left _ inside

theorem derivedOpened {asked : Universe φ → Prop} (derived : r.Derived asked) : (r.opened id).Derived asked := by
  intro s member
  obtain ⟨m, inside, u, known, same, instrumented, derivation⟩ := derived s member
  have kept : ∃ n ∈ (r.program.opened id).modules, n = m ∨ n = m.opened := Program.keptByOpening inside
  obtain ⟨n, later, eq⟩ := kept
  refine ⟨n, later, u, known, ?_⟩
  rcases eq with eq | eq
  · subst eq
    exact ⟨same, instrumented, derivation⟩
  · subst eq
    exact ⟨m.openedId.trans same, m.openedInstrumented.trans instrumented,
      (m.openedDerive u).trans derivation⟩

theorem derivedMove {asked : Universe φ → Prop} (now : asked r.program.knownTypes) (derived : r.Derived asked)
    (move : Move r after) : after.Derived asked := by
  cases move with
  | opened id => exact derivedOpened derived
  | @merged m c held instrumented fresh derivation =>
      intro s member
      rw [mergedStored fresh] at member
      rcases List.mem_append.1 member with old | added
      · exact (derivedOpened derived : (r.opened m.id).Derived asked) s old
      · rw [List.mem_singleton.1 added]
        have later : (r.program.opened m.id).Holds m := Program.holdsOpened held
        obtain ⟨n, inside, same⟩ := later
        exact ⟨n, inside, r.program.knownTypes, now, CodeModule.alikeId same,
          (CodeModule.alikeInstrumented same).trans instrumented, (CodeModule.alikeDerive same _).trans derivation⟩

theorem derivedMoves (derived : r.Derived (· = r.program.knownTypes)) (moves : Moves r after) :
    after.Derived (· = after.program.knownTypes) := by
  induction moves with
  | refl => exact derived
  | tail _ move ih =>
      rw [movesTypes (.single move)]
      exact derivedMove rfl ih move

theorem moveStays (move : Move r after) (found : r.contribution? id = some c) :
    after.contribution? id = some c := by
  cases move with
  | opened other => exact found
  | merged _ _ fresh _ =>
      refine contributionIff.2 ?_
      rw [mergedStored fresh]
      exact List.mem_append_left _ (contributionIff.1 found)

theorem movesStay (moves : Moves r after) (found : r.contribution? id = some c) :
    after.contribution? id = some c :=
  movesKeep (fun move inside => moveStays move inside) moves found

theorem mergedGeneration (inv : r.Coherent) (fresh : r.contribution? m.id = none)
    (told : c.modules.toList = [m.id]) : (r.merged m c).generation = r.generation + 1 := by
  have absent : m.id ∉ r.global.modules.keys := by
    rw [Distinct.keysEqToList, memGlobalModules inv]
    exact contributionNone.1 fresh
  have grown : r.global.modules.size < (r.global.merge c).2.modules.size := by
    rw [Contribution.mergeModules, told]
    change _ < (r.global.modules.insert m.id).size
    rw [OrderedSet.sizeEq, OrderedSet.sizeEq, OrderedSet.insertFresh absent]
    simp
  have changed : (decide (0 < (r.global.merge c).1) ||
      decide (r.global.modules.size < (r.global.merge c).2.modules.size)) = true := by
    rw [decide_eq_true grown, Bool.or_true]
  exact if_pos changed

theorem coherentLoad (inv : r.Coherent) (fresh : r.program.module? m.id = none) :
    (r.joined m).Coherent where
  ids := Program.idsLoad inv.ids
  origin := derivedJoined fresh (fun _ known => Universe.extendsTrans known Program.loadExtends) inv.origin
  global := inv.global
  graph := inv.graph
  generation := inv.generation

theorem coherentOpened (inv : r.Coherent) (id : ModuleId) : (r.opened id).Coherent where
  ids := by
    change ((r.program.opened id).modules.map CodeModule.id).Nodup
    rw [Program.openedIds]
    exact inv.ids
  origin := derivedOpened inv.origin
  global := inv.global
  graph := inv.graph
  generation := inv.generation

theorem coherentMerged (inv : r.Coherent) (held : r.program.Holds m) (instrumented : m.instrumented = true)
    (fresh : r.contribution? m.id = none) (derived : m.derive r.program.knownTypes = .ok c) :
    (r.merged m c).Coherent where
  ids := (coherentOpened inv m.id).ids
  origin := by
    have origin : (r.merged m c).Derived fun u => u.Extends r.program.knownTypes :=
      derivedMove (Universe.extendsRefl _) inv.origin (.merged held instrumented fresh derived)
    exact origin
  global := by
    rw [mergedContributions fresh, Contribution.unionSnoc, ← inv.global]
    rfl
  graph := by
    rw [mergedContributions fresh, List.flatMap_append, SubtypeGraph.ofEdges, SubtypeGraph.addEdgesAppend,
      ← SubtypeGraph.ofEdges, ← inv.graph]
    simp only [List.flatMap_cons, List.flatMap_nil, List.append_nil]
    rfl
  generation := by
    rw [mergedGeneration inv fresh (CodeModule.deriveOk derived ▸ CodeModule.toldModules), inv.generation,
      OrderedSet.sizeEq, OrderedSet.sizeEq, mergedStored fresh, List.length_append]
    rfl

theorem coherentMove (inv : r.Coherent) (move : Move r after) : after.Coherent := by
  cases move with
  | opened id => exact coherentOpened inv id
  | merged held instrumented fresh derived => exact coherentMerged inv held instrumented fresh derived

theorem coherentMoves (inv : r.Coherent) (moves : Moves r after) : after.Coherent :=
  movesKeep (fun move inside => coherentMove inside move) moves inv

theorem coherentRun (operations : List (Operation φ)) : (({} : Registry φ).run operations).Coherent :=
  runKeeps (fun fresh inv => coherentLoad inv fresh) (fun move inv => coherentMove inv move) operations
    coherentEmpty

theorem loadedRegistry (modules : List (CodeModule φ)) :
    ({} : Registry φ).run (modules.map .load) = { program := .ofModules modules } := by
  have general : ∀ (ms : List (CodeModule φ)) (p : Program φ),
      Registry.run { program := p } (ms.map .load) = { program := ms.foldl (fun p m => (p.load m).2) p } := by
    intro ms
    induction ms with
    | nil => exact fun _ => rfl
    | cons m rest ih => exact fun p => ih (p.load m).2
  exact general modules {}

theorem coherentLoaded (modules : List (CodeModule φ)) :
    ({ program := .ofModules modules } : Registry φ).Coherent := by
  rw [← loadedRegistry]
  exact coherentRun _

end Registry
end MetadataIndex
