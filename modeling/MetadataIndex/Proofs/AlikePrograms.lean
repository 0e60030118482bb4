import MetadataIndex.Proofs.GrowingTypes
import MetadataIndex.Proofs.ViewAnswers

/-! Programs that differ in their opened record tables at most, and what registries over them hold. A
registry that has ingested all its modules over the present types holds what these tell, and any other
registry over such a program holds no more. What a search and a view answer grows with what is held. -/
namespace MetadataIndex
open Std Relation
variable {φ : Type}

namespace Program
variable {p q : Program φ} {m : CodeModule φ} {id : ModuleId}

def Alike (p q : Program φ) : Prop := p.modules.map CodeModule.opened = q.modules.map CodeModule.opened

theorem alikeMember (alike : p.Alike q) (member : m ∈ p.modules) : ∃ n ∈ q.modules, n.opened = m.opened := by
  have inside : m.opened ∈ q.modules.map CodeModule.opened := alike ▸ List.mem_map.2 ⟨m, member, rfl⟩
  exact List.mem_map.1 inside

theorem alikeTypes (alike : p.Alike q) : p.knownTypes = q.knownTypes := by
  have types : ∀ ms : List (CodeModule φ), definitionsOf (ms.map CodeModule.opened) = definitionsOf ms := by
    intro ms
    rw [definitionsOf, List.flatMap_map]
    exact List.flatMap_congr fun m _ => congrArg OrderedSet.toList m.openedTypes
  rw [p.known, q.known, ← types p.modules, alike, types]

theorem alikeOpened : (p.opened id).Alike p := by
  rw [Alike, openedModules, List.map_map]
  refine List.map_congr_left fun m _ => ?_
  simp only [Function.comp]
  split
  · exact m.openedTwice
  · rfl

theorem moduleOpened (p : Program φ) :
    (p.module? id).map CodeModule.opened = (p.modules.map CodeModule.opened).find? fun m => m.id = id := by
  have sameIds : (fun m : CodeModule φ => decide (m.id = id)) ∘ CodeModule.opened = fun m => decide (m.id = id) := by
    funext m
    rw [Function.comp, m.openedId]
  rw [List.find?_map, sameIds, module?]

theorem alikeModule (alike : p.Alike q) :
    (p.module? id).map CodeModule.opened = (q.module? id).map CodeModule.opened := by
  rw [p.moduleOpened, q.moduleOpened, alike]

theorem alikeLoad (alike : p.Alike q) : (p.load m).2.Alike (q.load m).2 := by
  have missing : p.module? m.id = none ↔ q.module? m.id = none := by
    rw [← Option.map_eq_none_iff (f := CodeModule.opened), alikeModule alike, Option.map_eq_none_iff]
  cases known : p.module? m.id with
  | none =>
      rw [Alike, loadFresh known, loadFresh (missing.1 known), List.map_append, List.map_append]
      exact congrArg (· ++ _) alike
  | some n =>
      cases knownToo : q.module? m.id with
      | none =>
          rw [missing.2 knownToo] at known
          cases known
      | some k =>
          rw [loadRefused known, loadRefused knownToo]
          exact alike

end Program

namespace Contribution
variable {c d : Contribution φ} {u : Universe φ} {tag : Tag}

theorem showsWithin (within : ∀ mark ∈ c.marks.toList, mark ∈ d.marks.toList) (shown : c.Shows u tag) :
    d.Shows u tag := by
  obtain ⟨mark, member, picked⟩ := shown
  exact ⟨mark, within mark member, picked⟩

end Contribution

namespace Registry
variable {r s after : Registry φ} {m : CodeModule φ} {c : Contribution φ} {above name : TypeName} {limit : Nat}

theorem movesAlike (moves : Moves r after) : after.program.Alike r.program :=
  movesProgram (P := fun p => p.Alike r.program) (fun same => Program.alikeOpened.trans same) moves rfl

structure Within (r s : Registry φ) : Prop where
  edges : ∀ e ∈ r.global.edges.toList, e ∈ s.global.edges.toList
  marks : ∀ mark ∈ r.global.marks.toList, mark ∈ s.global.marks.toList
  types : ∀ t ∈ r.global.types.toList, t ∈ s.global.types.toList

theorem belowWithin (within : r.Within s) (below : r.Below above name) : s.Below above name :=
  below.lift id fun _ _ ⟨kind, edge⟩ => ⟨kind, within.edges _ edge⟩

theorem recordedCandidate (inv : r.Coherent) :
    name ∈ (r.search limit).candidates r.global true above ↔
      name ≠ above ∧ r.Below above name ∧ name ∈ r.global.types.toList := by
  have reachedBelow : name ∈ above :: (r.search limit).candidates r.global false above ↔ r.Below above name :=
    candidateBelow inv
  rw [← reachedBelow, List.mem_cons, SubtypeSearch.memCandidates, SubtypeSearch.memCandidates]
  constructor
  · intro ⟨reached, differ, typed⟩
    exact ⟨differ, .inr ⟨reached, differ, by simp⟩, Contribution.containsType.1 (typed rfl)⟩
  · intro ⟨differ, found, typed⟩
    exact ⟨(found.resolve_left differ).1, differ, fun _ => Contribution.containsType.2 typed⟩

theorem subtypesFound (inv : r.Coherent) {base : TypeRef} {answer : List TypeName}
    (ok : (r.search limit).subtypes r.global base = .ok answer) :
    name ∈ answer ↔ name ≠ base.name ∧ r.Below base.name name ∧ name ∈ r.global.types.toList ∧
      (base.shape = .constructed → r.program.knownTypes.AssignableTo name base) := by
  rw [SubtypeSearch.memSubtypes ok, recordedCandidate inv, and_assoc, and_assoc]
  rfl

structure Full (r : Registry φ) : Prop where
  coherent : r.Coherent
  derived : r.Derived (· = r.program.knownTypes)
  synced : r.Synced

theorem fullStored (full : r.Full) (member : m ∈ r.program.modules) (instrumented : m.instrumented = true) :
    r.contribution? m.id = some (m.told r.program.knownTypes) := by
  obtain ⟨c, found⟩ := Option.isSome_iff_exists.1 (full.synced m member instrumented)
  obtain ⟨n, inside, u, same, sameId, _, told⟩ := derivedTold full.derived found
  have sameModule : n = m := moduleUnique full.coherent inside member sameId
  rw [found, told, same, sameModule]

theorem fullHolds (full : s.Full) (alike : r.program.Alike s.program) (member : m ∈ r.program.modules)
    (instrumented : m.instrumented = true) : s.contribution? m.id = some (m.told r.program.knownTypes) := by
  obtain ⟨n, inside, opened⟩ := Program.alikeMember alike member
  have stored := fullStored full inside ((CodeModule.alikeInstrumented opened).trans instrumented)
  rwa [CodeModule.alikeId opened, CodeModule.alikeTold opened, ← Program.alikeTypes alike] at stored

theorem withinFull (inv : r.Coherent) (full : s.Full) (alike : r.program.Alike s.program) : r.Within s := by
  have grows : ∀ {id c}, r.contribution? id = some c → ∃ m ∈ r.program.modules, ∃ u : Universe φ,
      u.Extends r.program.knownTypes ∧ c = m.told u ∧
        s.contribution? m.id = some (m.told r.program.knownTypes) := by
    intro id c found
    obtain ⟨m, member, u, known, _, instrumented, told⟩ := storedTold inv found
    exact ⟨m, member, u, known, told, fullHolds full alike member instrumented⟩
  constructor
  · intro e member
    obtain ⟨_, c, found, inside⟩ := (memGlobalEdges inv e).1 member
    obtain ⟨m, _, u, known, told, stored⟩ := grows found
    subst told
    exact (memGlobalEdges full.coherent e).2 ⟨_, _, stored, CodeModule.toldEdgesGrow known inside⟩
  · intro mark member
    obtain ⟨_, c, found, inside⟩ := (memGlobalMarks inv mark).1 member
    obtain ⟨m, _, u, known, told, stored⟩ := grows found
    subst told
    exact (memGlobalMarks full.coherent mark).2 ⟨_, _, stored, CodeModule.toldMarksGrow known inside⟩
  · intro t member
    obtain ⟨_, c, found, inside⟩ := (memGlobalTypes inv t).1 member
    obtain ⟨m, _, u, _, told, stored⟩ := grows found
    subst told
    refine (memGlobalTypes full.coherent t).2 ⟨_, _, stored, ?_⟩
    exact CodeModule.memToldTypes.2 (CodeModule.memToldTypes.1 inside)

end Registry
end MetadataIndex
