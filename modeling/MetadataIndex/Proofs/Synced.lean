import MetadataIndex.Proofs.IndexRun

/-! What a successful sync leaves: every instrumented module of the program has its contribution, so
a module's contribution can be had without any further change. -/
namespace MetadataIndex
open Std Relation
variable {φ : Type}

namespace Registry
variable {r after : Registry φ} {m : CodeModule φ} {id : ModuleId} {c : Contribution φ}

def Synced (r : Registry φ) : Prop := ∀ m ∈ r.program.modules, m.instrumented = true → r.isIngested m.id = true

theorem ingestedOf (found : r.contribution? id = some c) : r.isIngested id = true := by
  simp [isIngested, found]

theorem movesIngested (moves : Moves r after) (ingested : r.isIngested id = true) :
    after.isIngested id = true := by
  obtain ⟨c, found⟩ := Option.isSome_iff_exists.1 ingested
  exact ingestedOf (movesStay moves found)

theorem ingestStores {answer : Option (Contribution φ)} (instrumented : m.instrumented = true)
    (ok : (r.ingest m).1 = .ok answer) : (r.ingest m).2.isIngested m.id = true := by
  cases known : r.contribution? m.id with
  | some c =>
      rw [ingestStored instrumented known]
      exact ingestedOf known
  | none =>
      cases derived : m.derive r.program.knownTypes with
      | error e =>
          rw [ingestFailed instrumented known derived] at ok
          cases ok
      | ok c =>
          rw [ingestDerived instrumented known derived]
          have stored : (m.id, c) ∈ (r.merged m c).stored.toList := by
            rw [mergedStored known]
            exact List.mem_append_right _ (List.mem_singleton.2 rfl)
          exact ingestedOf (contributionIff.2 stored)

theorem ingestAllStores {ms : List (CodeModule φ)} (held : ∀ m ∈ ms, r.program.Holds m)
    (instrumented : ∀ m ∈ ms, m.instrumented = true) (ok : (r.ingestAll ms).1 = .ok ()) :
    ∀ m ∈ ms, (r.ingestAll ms).2.isIngested m.id = true := by
  induction ms generalizing r with
  | nil => simp
  | cons m rest ih =>
      have heldHere : r.program.Holds m := held m (List.mem_cons_self ..)
      have first : Moves r (r.ingest m).2 := ingestMoves heldHere
      have heldLater : ∀ n ∈ rest, (r.ingest m).2.program.Holds n := fun n member =>
        movesHold first (held n (List.mem_cons_of_mem _ member))
      cases outcome : r.ingest m with
      | mk answer mid =>
          rw [ingestAll, outcome] at ok ⊢
          rw [outcome] at heldLater
          cases answer with
          | error e => cases ok
          | ok answer =>
              have stored : mid.isIngested m.id = true := by
                have here := ingestStores (r := r) (instrumented m (List.mem_cons_self ..)) (congrArg Prod.fst outcome)
                rwa [outcome] at here
              intro n member
              rcases List.mem_cons.1 member with same | later
              · exact same ▸ movesIngested (ingestAllMoves heldLater) stored
              · exact ih heldLater (fun k inside => instrumented k (List.mem_cons_of_mem _ inside)) ok n later

theorem syncOk {n : Nat} (ok : r.sync.1 = .ok n) : (r.ingestAll r.pending).1 = .ok () := by
  change ((r.ingestAll r.pending).1.map fun _ => r.pending.length) = .ok n at ok
  obtain ⟨done, ingested, _⟩ := mapOk.1 ok
  exact ingested

theorem syncSynced {n : Nat} (ok : r.sync.1 = .ok n) : r.sync.2.Synced := by
  intro m member instrumented
  obtain ⟨k, inside, sameId, sameMark⟩ := moduleBefore syncMoves member
  rw [← sameId]
  cases ingested : r.isIngested k.id with
  | true => exact movesIngested syncMoves ingested
  | false =>
      refine ingestAllStores pendingHeld (fun n waits => ?_) (syncOk ok) k ?_
      · exact (Bool.and_eq_true_iff.1 (List.mem_filter.1 waits).2).1
      · exact List.mem_filter.2 ⟨inside, by simp [sameMark, instrumented, ingested]⟩

end Registry

namespace Index
variable {ix : Index φ} {id : ModuleId}

def synced (ix : Index φ) : Index φ := { ix with registry := ix.registry.sync.2 }

theorem afterSync : ix.after Query.sync = ix.synced := rfl

theorem answerSync {n : Nat} (ok : ix.answer Query.sync = .ok n) : ix.registry.sync.1 = .ok n := mapErrorOk.1 ok

theorem syncedOf {n : Nat} (ok : ix.answer Query.sync = .ok n) : ix.synced.registry.Synced :=
  Registry.syncSynced (answerSync ok)

theorem ingestKnown {m : CodeModule φ} {c : Contribution φ} (instrumented : m.instrumented = true)
    (known : ix.registry.contribution? m.id = some c) :
    ix.answer (Query.ingest m) = .ok (some c) ∧ ix.after (Query.ingest m) = ix := by
  have quiet := Registry.ingestStored instrumented known
  constructor
  · change (ix.registry.ingest m).1.mapError QueryError.ingest = .ok (some c)
    rw [quiet]
    rfl
  · change ({ ix with registry := (ix.registry.ingest m).2 } : Index φ) = ix
    rw [quiet]

theorem answerContribution {found : Option (Contribution φ)} (ok : ix.answer (Query.contribution id) = .ok found) :
    (found = none ∧ ∀ m, ix.registry.program.module? id = some m → m.instrumented = false) ∨
      ∃ c n, found = some c ∧ ix.answer Query.sync = .ok n ∧
        ix.synced.registry.contribution? id = some c ∧ ix.after (Query.contribution id) = ix.synced := by
  rw [contributionEq] at ok ⊢
  obtain ⟨looked, read, rest⟩ := answerBind.1 ok
  rw [afterNext read]
  cases read
  rw [afterRead] at rest ⊢
  cases known : ix.registry.program.module? id with
  | none =>
      rw [known] at rest
      cases rest
      exact .inl ⟨rfl, by simp⟩
  | some m =>
      rw [known] at rest
      cases instrumented : m.instrumented with
      | false =>
          simp only [instrumented] at rest
          cases rest
          refine .inl ⟨rfl, fun n same => ?_⟩
          cases same
          exact instrumented
      | true =>
          simp only [instrumented, if_true] at rest ⊢
          obtain ⟨n, synced, ingested⟩ := answerBind.1 rest
          obtain ⟨member, same⟩ := Program.moduleFound known
          have held : ix.synced.registry.program.Holds m :=
            Registry.movesHold Registry.syncMoves (Program.holdsMember member)
          obtain ⟨k, inside, opened⟩ := held
          have sameId : k.id = id := (CodeModule.alikeId opened).trans same
          have stored : ix.synced.registry.isIngested k.id = true :=
            syncedOf synced k inside ((CodeModule.alikeInstrumented opened).trans instrumented)
          obtain ⟨c, found⟩ := Option.isSome_iff_exists.1 stored
          rw [sameId] at found
          -- the sync has stored it, so ingesting it again does nothing
          obtain ⟨answered, still⟩ := ingestKnown instrumented (same.symm ▸ found)
          refine .inr ⟨c, n, ?_, synced, found, ?_⟩
          · rw [afterSync, answered] at ingested
            cases ingested
            rfl
          · rw [afterNext synced, afterSync, still]

end Index
end MetadataIndex
