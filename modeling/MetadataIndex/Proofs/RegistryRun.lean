import MetadataIndex.Proofs.Derived
import MetadataIndex.Registry
import Mathlib.Logic.Relation

/-! Runs of a registry. Ingesting one loaded module and syncing are made of two moves: a record
table is opened, or the contribution of a module that has none is derived, merged and stored. What
both moves and the loading of a fresh module keep, every run keeps, failing calls included. -/
namespace MetadataIndex
open Std Relation
variable {φ : Type}

section Outcomes
variable {ε δ α β : Type} {outcome : Except ε α} {f : α → β} {g : ε → δ} {a : α} {b : β} {e : ε}

theorem mapOk : outcome.map f = .ok b ↔ ∃ a, outcome = .ok a ∧ f a = b := by
  cases outcome with
  | error e => simp [Except.map]
  | ok a => simp [Except.map]

theorem mapErrorOk : outcome.mapError g = .ok a ↔ outcome = .ok a := by
  cases outcome with
  | error e => simp [Except.mapError]
  | ok a => simp [Except.mapError]

def failure? : Except ε α → Option ε
  | .ok _ => none
  | .error e => some e

theorem failureIff : failure? outcome = some e ↔ outcome = .error e := by
  cases outcome <;> simp [failure?]

end Outcomes

def Universe.Extends (u v : Universe φ) : Prop :=
  ∀ name d, u.find? name = some d → v.find? name = some d

namespace CodeModule

theorem openedTwice (m : CodeModule φ) : m.opened.opened = m.opened := by
  by_cases h : m.instrumented <;> simp [opened, h, RecordTable.openedTwice]

theorem openedInstrumented (m : CodeModule φ) : m.opened.instrumented = m.instrumented := by
  by_cases h : m.instrumented <;> simp [opened, h]

theorem alikeId {m n : CodeModule φ} (same : n.opened = m.opened) : n.id = m.id := by
  rw [← n.openedId, same, m.openedId]

theorem alikeInstrumented {m n : CodeModule φ} (same : n.opened = m.opened) : n.instrumented = m.instrumented := by
  rw [← n.openedInstrumented, same, m.openedInstrumented]

theorem alikeDerive {m n : CodeModule φ} (same : n.opened = m.opened) (u : Universe φ) : n.derive u = m.derive u := by
  rw [← n.openedDerive, same, m.openedDerive]

theorem openedOnce {m k n : CodeModule φ} (first : k = m ∨ k = m.opened) (next : n = k ∨ n = k.opened) :
    n = m ∨ n = m.opened := by
  rcases next with same | same
  · exact same ▸ first
  · refine .inr ?_
    rcases first with eq | eq
    · rw [same, eq]
    · rw [same, eq, m.openedTwice]

theorem openedRuns (m : CodeModule φ) :
    m.opened.table.runs ≤ m.table.runs + if m.table.ready then 0 else 1 := by
  unfold opened
  split
  · exact Nat.le_of_eq m.table.openedRuns
  · exact Nat.le_add_right _ _

end CodeModule

namespace Program
variable {p : Program φ} {m n : CodeModule φ} {id : ModuleId}

theorem moduleFound (found : p.module? id = some m) : m ∈ p.modules ∧ m.id = id :=
  ⟨List.mem_of_find?_eq_some found, by simpa using List.find?_some found⟩

theorem moduleMissing (missing : p.module? id = none) : id ∉ p.modules.map CodeModule.id := by
  intro member
  obtain ⟨m, inside, same⟩ := List.mem_map.1 member
  simpa [same] using List.find?_eq_none.1 missing m inside

theorem loadFresh (fresh : p.module? m.id = none) : (p.load m).2.modules = p.modules ++ [m] := by
  simp [load, fresh]

theorem loadRefused (known : p.module? m.id = some n) : (p.load m).2 = p := by
  simp [load, known]

theorem idsLoad (ids : (p.modules.map CodeModule.id).Nodup) : ((p.load m).2.modules.map CodeModule.id).Nodup := by
  cases known : p.module? m.id with
  | some n =>
      rw [loadRefused known]
      exact ids
  | none =>
      rw [loadFresh known, List.map_append, List.nodup_append]
      refine ⟨ids, by simp, ?_⟩
      intro a before b added same
      rw [List.mem_singleton.1 added] at same
      exact moduleMissing known (same ▸ before)

theorem loadExtends : p.knownTypes.Extends (p.load m).2.knownTypes := by
  intro name d found
  unfold load
  split
  · exact found
  · rw [Universe.findExtend, found]
    rfl

theorem openedModules :
    (p.opened id).modules = p.modules.map fun m => if m.id = id then m.opened else m := by
  simp [opened, openedWhere]

theorem openedIds : (p.opened id).modules.map CodeModule.id = p.modules.map CodeModule.id := by
  rw [openedModules, List.map_map]
  refine List.map_congr_left fun m _ => ?_
  simp only [Function.comp]
  split
  · exact m.openedId
  · rfl

def Holds (p : Program φ) (m : CodeModule φ) : Prop := ∃ n ∈ p.modules, n.opened = m.opened

theorem holdsMember (member : m ∈ p.modules) : p.Holds m := ⟨m, member, rfl⟩

theorem holdsOpened (held : p.Holds m) : (p.opened id).Holds m := by
  obtain ⟨k, member, same⟩ := held
  refine ⟨if k.id = id then k.opened else k, ?_, ?_⟩
  · rw [openedModules]
    exact List.mem_map.2 ⟨k, member, rfl⟩
  · split
    · rw [k.openedTwice, same]
    · exact same

theorem keptByOpening (member : m ∈ p.modules) :
    ∃ n ∈ (p.opened id).modules, n = m ∨ n = m.opened := by
  refine ⟨if m.id = id then m.opened else m, ?_, ?_⟩
  · rw [openedModules]
    exact List.mem_map.2 ⟨m, member, rfl⟩
  · split
    · exact .inr rfl
    · exact .inl rfl

theorem heldBeforeOpening (member : m ∈ (p.opened id).modules) :
    ∃ n ∈ p.modules, m = n ∨ m = n.opened := by
  rw [openedModules] at member
  obtain ⟨n, inside, same⟩ := List.mem_map.1 member
  refine ⟨n, inside, ?_⟩
  split at same
  · exact .inr same.symm
  · exact .inl same.symm

end Program

namespace Registry

def merged (r : Registry φ) (m : CodeModule φ) (c : Contribution φ) : Registry φ :=
  { ((r.opened m.id).commit c).2 with stored := r.stored.insert (m.id, c) }

def joined (r : Registry φ) (m : CodeModule φ) : Registry φ := { r with program := (r.program.load m).2 }

inductive Move : Registry φ → Registry φ → Prop where
  | opened {r : Registry φ} (id : ModuleId) : Move r (r.opened id)
  | merged {r : Registry φ} {m : CodeModule φ} {c : Contribution φ} (held : r.program.Holds m)
      (instrumented : m.instrumented = true) (fresh : r.contribution? m.id = none)
      (derived : m.derive r.program.knownTypes = .ok c) : Move r (r.merged m c)

abbrev Moves : Registry φ → Registry φ → Prop := ReflTransGen Move

inductive Operation (φ : Type := Recipe) where
  | load (m : CodeModule φ)
  | sync
  | ingest (id : ModuleId)

def perform (r : Registry φ) : Operation φ → Registry φ
  | .load m => (r.load m).2
  | .sync => r.sync.2
  | .ingest id =>
      match r.program.module? id with
      | none => r
      | some m => (r.ingest m).2

def run (r : Registry φ) (operations : List (Operation φ)) : Registry φ := operations.foldl perform r

section Moves
variable {r after : Registry φ} {m : CodeModule φ} {id : ModuleId} {c : Contribution φ}

theorem ingestRefused (plain : m.instrumented = false) : r.ingest m = (.ok none, r) := by
  simp [ingest, plain]

theorem ingestStored (instrumented : m.instrumented = true) (known : r.contribution? m.id = some c) :
    r.ingest m = (.ok (some c), r) := by
  simp [ingest, instrumented, known]

theorem ingestFailed {e : IngestError} (instrumented : m.instrumented = true)
    (fresh : r.contribution? m.id = none) (failed : m.derive r.program.knownTypes = .error e) :
    r.ingest m = (.error e, r.opened m.id) := by
  simp [ingest, instrumented, fresh, failed]

theorem ingestDerived (instrumented : m.instrumented = true) (fresh : r.contribution? m.id = none)
    (derived : m.derive r.program.knownTypes = .ok c) :
    r.ingest m = (.ok (some c), r.merged m c) := by
  simp only [ingest, instrumented, if_true, fresh, derived]
  rfl

theorem ingestMoves (held : r.program.Holds m) : Moves r (r.ingest m).2 := by
  cases instrumented : m.instrumented with
  | false =>
      rw [ingestRefused instrumented]
  | true =>
      cases known : r.contribution? m.id with
      | some c =>
          rw [ingestStored instrumented known]
      | none =>
          cases derived : m.derive r.program.knownTypes with
          | error e =>
              rw [ingestFailed instrumented known derived]
              exact .single (.opened m.id)
          | ok c =>
              rw [ingestDerived instrumented known derived]
              exact .single (.merged held instrumented known derived)

theorem moveOpens (move : Move r after) : ∃ id, after.program = r.program.opened id := by
  cases move with
  | opened id => exact ⟨id, rfl⟩
  | merged _ _ _ _ => exact ⟨_, rfl⟩

theorem movesKeep {holds : Registry φ → Prop} (keep : ∀ {r after}, Move r after → holds r → holds after)
    (moves : Moves r after) (start : holds r) : holds after := by
  induction moves with
  | refl => exact start
  | tail _ move ih => exact keep move ih

theorem movesProgram {P : Program φ → Prop} (keep : ∀ {p id}, P p → P (p.opened id)) (moves : Moves r after)
    (start : P r.program) : P after.program := by
  induction moves with
  | refl => exact start
  | tail _ move ih =>
      obtain ⟨id, same⟩ := moveOpens move
      rw [same]
      exact keep ih

theorem movesHold (moves : Moves r after) (held : r.program.Holds m) : after.program.Holds m :=
  movesProgram (P := fun p => p.Holds m) Program.holdsOpened moves held

theorem ingestAllMoves {ms : List (CodeModule φ)} (held : ∀ m ∈ ms, r.program.Holds m) :
    Moves r (r.ingestAll ms).2 := by
  induction ms generalizing r with
  | nil => exact .refl
  | cons m rest ih =>
      have first : Moves r (r.ingest m).2 := ingestMoves (held m (List.mem_cons_self ..))
      have later : ∀ n ∈ rest, (r.ingest m).2.program.Holds n := fun n member =>
        movesHold first (held n (List.mem_cons_of_mem _ member))
      rw [ingestAll]
      split
      · next e next eq =>
        rw [eq] at first
        exact first
      · next x next eq =>
        rw [eq] at first later
        exact first.trans (ih later)

theorem pendingHeld : ∀ m ∈ r.pending, r.program.Holds m :=
  fun _ member => Program.holdsMember (List.mem_filter.1 member).1

theorem syncMoves : Moves r r.sync.2 := ingestAllMoves pendingHeld

theorem movesTypes (moves : Moves r after) : after.program.knownTypes = r.program.knownTypes :=
  movesProgram (P := fun p => p.knownTypes = r.program.knownTypes) (fun same => same) moves rfl

theorem movesIds (moves : Moves r after) :
    after.program.modules.map CodeModule.id = r.program.modules.map CodeModule.id :=
  movesProgram (P := fun p => p.modules.map CodeModule.id = r.program.modules.map CodeModule.id)
    Program.openedIds.trans moves rfl

theorem movesModules {n : CodeModule φ} (moves : Moves r after) (member : n ∈ after.program.modules) :
    ∃ m ∈ r.program.modules, n = m ∨ n = m.opened := by
  refine movesProgram (P := fun p => ∀ n ∈ p.modules, ∃ m ∈ r.program.modules, n = m ∨ n = m.opened) ?_ moves
    (fun n inside => ⟨n, inside, .inl rfl⟩) n member
  intro p id before n inside
  obtain ⟨k, earlier, eq⟩ := Program.heldBeforeOpening inside
  obtain ⟨m, first, same⟩ := before k earlier
  exact ⟨m, first, CodeModule.openedOnce same eq⟩

theorem moduleBefore {n : CodeModule φ} (moves : Moves r after) (member : n ∈ after.program.modules) :
    ∃ m ∈ r.program.modules, m.id = n.id ∧ m.instrumented = n.instrumented := by
  obtain ⟨m, inside, same⟩ := movesModules moves member
  refine ⟨m, inside, ?_⟩
  rcases same with eq | eq
  · rw [eq]
    exact ⟨rfl, rfl⟩
  · rw [eq]
    exact ⟨m.openedId.symm, m.openedInstrumented.symm⟩

theorem loadCases : (r.load m).2 = r ∨ r.program.module? m.id = none ∧ (r.load m).2 = r.joined m := by
  cases known : r.program.module? m.id with
  | none => exact .inr ⟨rfl, rfl⟩
  | some n =>
      refine .inl ?_
      change { r with program := (r.program.load m).2 } = r
      rw [Program.loadRefused known]

theorem performMoves {op : Operation φ} (quiet : ∀ m, op ≠ .load m) : Moves r (r.perform op) := by
  cases op with
  | load m => exact absurd rfl (quiet m)
  | sync => exact syncMoves
  | ingest id =>
      simp only [perform]
      split
      · exact .refl
      · next m found => exact ingestMoves (Program.holdsMember (Program.moduleFound found).1)

theorem runKeeps {holds : Registry φ → Prop} (joins : ∀ {r m}, r.program.module? m.id = none → holds r →
      holds (r.joined m))
    (moves : ∀ {r after}, Move r after → holds r → holds after) {r : Registry φ} (operations : List (Operation φ))
    (start : holds r) : holds (r.run operations) := by
  induction operations generalizing r with
  | nil => exact start
  | cons op rest ih =>
      refine ih ?_
      cases op with
      | load m =>
          change holds (r.load m).2
          rcases loadCases (r := r) (m := m) with same | ⟨fresh, same⟩
          · rw [same]
            exact start
          · rw [same]
            exact joins fresh start
      | sync => exact movesKeep moves syncMoves start
      | ingest id => exact movesKeep moves (performMoves fun _ same => by cases same) start

theorem runAppend (first rest : List (Operation φ)) : r.run (first ++ rest) = (r.run first).run rest := by
  simp [run]

end Moves
end Registry
end MetadataIndex
