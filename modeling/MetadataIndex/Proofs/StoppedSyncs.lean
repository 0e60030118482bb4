import MetadataIndex.Proofs.RegistryConsistency

/-! What a sync leaves behind, whether it succeeds or stops. The pending modules are merged one after the
other in load order up to the first whose derivation fails; of that one and those after it nothing is
kept but the opened record table. So a second sync over the same modules has nothing to do, or stops at
the same error, and changes nothing. Contributions committed from outside make no difference. -/
namespace MetadataIndex
open Std
variable {φ : Type}

namespace Program
variable {p : Program φ} {chosen more : ModuleId → Bool}

theorem openedMore : (p.openedWhere chosen).openedWhere more = p.openedWhere fun id => chosen id || more id := by
  ext1
  simp only [openedWhere, List.map_map]
  refine List.map_congr_left fun m _ => ?_
  by_cases first : chosen m.id = true
  · by_cases next : more m.id = true <;> simp [first, next, m.openedId, m.openedTwice]
  · simp [first]

end Program

namespace Registry

inductive Event (φ : Type := Recipe) where
  | operation (op : Operation φ)
  | commit (c : Contribution φ)

def undergo (r : Registry φ) : Event φ → Registry φ
  | .operation op => r.perform op
  | .commit c => (r.commit c).2

def undergone (r : Registry φ) (events : List (Event φ)) : Registry φ := events.foldl undergo r

def committed (r : Registry φ) (cs : List (Contribution φ)) : Registry φ := cs.foldl (fun r c => (r.commit c).2) r

abbrev Part (φ : Type) := CodeModule φ × Contribution φ

structure Merges (r : Registry φ) (parts : List (Part φ)) (read : List ModuleId) (after : Registry φ) : Prop where
  derived : ∀ part ∈ parts, part.1.derive r.program.knownTypes = .ok part.2
  stored : after.stored.toList = r.stored.toList ++ parts.map fun part => (part.1.id, part.2)
  global : after.global = (r.committed (parts.map Prod.snd)).global
  graph : after.graph = (r.committed (parts.map Prod.snd)).graph
  generation : after.generation = (r.committed (parts.map Prod.snd)).generation
  program : after.program = r.program.openedWhere fun id => decide (id ∈ read)

inductive SyncCourse (r : Registry φ) : Except IngestError Nat → Registry φ → Prop where
  | whole {parts : List (Part φ)} {after : Registry φ} (all : r.pending = parts.map Prod.fst)
      (merges : r.Merges parts (parts.map fun part => part.1.id) after) (again : after.sync = (.ok 0, after)) :
      SyncCourse r (.ok r.pending.length) after
  | stopped {parts : List (Part φ)} {m : CodeModule φ} {rest : List (CodeModule φ)} {e : IngestError}
      {after : Registry φ}
      (split : r.pending = parts.map Prod.fst ++ m :: rest) (failed : m.derive r.program.knownTypes = .error e)
      (merges : r.Merges parts (parts.map (fun part => part.1.id) ++ [m.id]) after)
      (again : after.sync = (.error e, after)) : SyncCourse r (.error e) after

variable {r after : Registry φ} {m : CodeModule φ} {c : Contribution φ} {cs : List (Contribution φ)}
  {parts : List (Part φ)}
  {ms : List (CodeModule φ)} {id : ModuleId} {read : List ModuleId}

theorem committedWith (r : Registry φ) (p : Program φ)
    (s : OrderedSet (Prod.fst : ModuleId × Contribution φ → ModuleId)) :
    ({ r with program := p, stored := s } : Registry φ).committed cs =
      { r.committed cs with program := p, stored := s } := by
  induction cs generalizing r with
  | nil => rfl
  | cons c rest ih => exact ih (r.commit c).2

def mergedAll (r : Registry φ) (parts : List (Part φ)) : Registry φ :=
  parts.foldl (fun r part => r.merged part.1 part.2) r

theorem mergedAllEq : r.mergedAll parts = { r.committed (parts.map Prod.snd) with
    program := r.program.openedWhere fun id => decide (id ∈ parts.map fun part => part.1.id)
    stored := r.stored.insertAll (parts.map fun part => (part.1.id, part.2)) } := by
  induction parts generalizing r with
  | nil =>
      have still : r.program.openedWhere (fun _ => false) = r.program := by
        ext1
        exact List.map_id _
      change r = { r with program := r.program.openedWhere fun _ => false }
      rw [still]
  | cons part rest ih =>
      have read : (r.program.opened part.1.id).openedWhere (fun id => decide (id ∈ rest.map fun part => part.1.id)) =
          r.program.openedWhere fun id => decide (id ∈ (part :: rest).map fun part => part.1.id) := by
        rw [Program.opened, Program.openedMore]
        refine congrArg r.program.openedWhere (funext fun id => ?_)
        rw [← Bool.decide_or]
        exact decide_eq_decide.2 List.mem_cons.symm
      change (r.merged part.1 part.2).mergedAll rest = _
      rw [ih]
      change ({ ({ (r.commit part.2).2 with
            program := r.program.opened part.1.id
            stored := r.stored.insert (part.1.id, part.2) } : Registry φ).committed (rest.map Prod.snd) with
          program := (r.program.opened part.1.id).openedWhere _
          stored := (r.stored.insert (part.1.id, part.2)).insertAll _ } : Registry φ) = _
      rw [committedWith, read]
      rfl

structure Unmet (r : Registry φ) (ms : List (CodeModule φ)) : Prop where
  ids : (ms.map CodeModule.id).Nodup
  instrumented : ∀ m ∈ ms, m.instrumented = true
  fresh : ∀ m ∈ ms, m.id ∉ r.stored.keys

theorem unmetMerged (unmet : r.Unmet (m :: ms)) : (r.merged m c).Unmet ms where
  ids := (List.nodup_cons.1 unmet.ids).2
  instrumented := fun n member => unmet.instrumented n (List.mem_cons_of_mem _ member)
  fresh := by
    intro n member stored
    rcases OrderedSet.keysInsert.1 stored with old | same
    · exact unmet.fresh n (List.mem_cons_of_mem _ member) old
    · exact (List.nodup_cons.1 unmet.ids).1 (List.mem_map.2 ⟨n, member, same⟩)

theorem unmetFirst {rest : List (CodeModule φ)} (unmet : r.Unmet (ms ++ rest)) : r.Unmet ms where
  ids := unmet.ids.sublist ((List.sublist_append_left ms rest).map _)
  instrumented := fun m member => unmet.instrumented m (List.mem_append_left _ member)
  fresh := fun m member => unmet.fresh m (List.mem_append_left _ member)

theorem ingestAllCourse (unmet : r.Unmet ms) :
    (∃ parts, ms = parts.map Prod.fst ∧ (∀ part ∈ parts, part.1.derive r.program.knownTypes = .ok part.2) ∧
        r.ingestAll ms = (.ok (), r.mergedAll parts)) ∨
      ∃ parts m rest e, ms = parts.map Prod.fst ++ m :: rest ∧
        (∀ part ∈ parts, part.1.derive r.program.knownTypes = .ok part.2) ∧
        m.derive r.program.knownTypes = .error e ∧ r.ingestAll ms = (.error e, (r.mergedAll parts).opened m.id) := by
  induction ms generalizing r with
  | nil => exact .inl ⟨[], rfl, fun _ member => (nomatch member), rfl⟩
  | cons m rest ih =>
      have instrumented : m.instrumented = true := unmet.instrumented m (List.mem_cons_self ..)
      have fresh : r.contribution? m.id = none := contributionNone.2 (unmet.fresh m (List.mem_cons_self ..))
      cases derived : m.derive r.program.knownTypes with
      | error e =>
          refine .inr ⟨[], m, rest, e, rfl, fun _ member => (nomatch member), derived, ?_⟩
          rw [ingestAll, ingestFailed instrumented fresh derived]
          rfl
      | ok c =>
          have next : r.ingestAll (m :: rest) = (r.merged m c).ingestAll rest := by
            rw [ingestAll, ingestDerived instrumented fresh derived]
          have joined : ∀ parts : List (Part φ), (∀ part ∈ parts, part.1.derive r.program.knownTypes = .ok part.2) →
              ∀ part ∈ (m, c) :: parts, part.1.derive r.program.knownTypes = .ok part.2 :=
            fun parts each => List.forall_mem_cons.2 ⟨derived, each⟩
          rcases ih (unmetMerged unmet) with ⟨parts, all, each, done⟩ | ⟨parts, n, later, e, split, each, failed, done⟩
          · exact .inl ⟨(m, c) :: parts, congrArg _ all, joined parts each, next.trans done⟩
          · exact .inr ⟨(m, c) :: parts, n, later, e, congrArg _ split, joined parts each, failed, next.trans done⟩

theorem mergesAll (unmet : r.Unmet (parts.map Prod.fst))
    (each : ∀ part ∈ parts, part.1.derive r.program.knownTypes = .ok part.2) :
    r.Merges parts (parts.map fun part => part.1.id) (r.mergedAll parts) := by
  have keys : (parts.map fun part => (part.1.id, part.2)).map Prod.fst = (parts.map Prod.fst).map CodeModule.id := by
    simp [List.map_map, Function.comp_def]
  rw [mergedAllEq]
  refine ⟨each, OrderedSet.insertAllFresh (keys ▸ unmet.ids) fun s member => ?_, rfl, rfl, rfl, rfl⟩
  obtain ⟨part, inside, same⟩ := List.mem_map.1 member
  subst same
  exact unmet.fresh part.1 (List.mem_map.2 ⟨part, inside, rfl⟩)

theorem mergesOpened (merges : r.Merges parts read after) : r.Merges parts (read ++ [id]) (after.opened id) where
  derived := merges.derived
  stored := merges.stored
  global := merges.global
  graph := merges.graph
  generation := merges.generation
  program := by
    change after.program.opened id = _
    rw [merges.program, Program.opened, Program.openedMore]
    refine congrArg r.program.openedWhere (funext fun other => ?_)
    rw [← Bool.decide_or]
    refine decide_eq_decide.2 ?_
    rw [List.mem_append, List.mem_singleton]

theorem mergesIngested (merges : r.Merges parts read after) :
    after.isIngested id = true ↔ r.isIngested id = true ∨ id ∈ parts.map fun part => part.1.id := by
  rw [ingestedIff, ingestedIff, OrderedSet.keys, merges.stored, List.map_append, List.mem_append, List.map_map]
  rfl

def unmerged (parts : List (Part φ)) (m : CodeModule φ) : Bool := decide (m.id ∉ parts.map fun part => part.1.id)

def openedIn (read : List ModuleId) (m : CodeModule φ) : CodeModule φ := if decide (m.id ∈ read) then m.opened else m

theorem openedInSame : (openedIn read m).id = m.id ∧ (openedIn read m).instrumented = m.instrumented := by
  unfold openedIn
  split
  · exact ⟨m.openedId, m.openedInstrumented⟩
  · exact ⟨rfl, rfl⟩

theorem pendingAfter (merges : r.Merges parts read after) :
    after.pending = (r.pending.filter (unmerged parts)).map (openedIn read) := by
  have waits : ∀ m : CodeModule φ, ((openedIn read m).instrumented && !after.isIngested (openedIn read m).id) =
      (unmerged parts m && (m.instrumented && !r.isIngested m.id)) := by
    intro m
    have known : after.isIngested m.id = true ↔ r.isIngested m.id = true ∨ m.id ∈ parts.map fun part => part.1.id :=
      mergesIngested merges
    rw [openedInSame.1, openedInSame.2, unmerged, Bool.eq_iff_iff]
    simp only [Bool.and_eq_true, Bool.not_eq_true', ← Bool.not_eq_true, known, decide_eq_true_eq, not_or]
    tauto
  rw [pending, merges.program, pending, List.filter_filter]
  change (r.program.modules.map (openedIn read)).filter _ = _
  simp only [List.filter_map, Function.comp_def, waits]

theorem pendingUnmet (ids : (r.program.modules.map CodeModule.id).Nodup) : r.Unmet r.pending where
  ids := ids.sublist (List.filter_sublist.map _)
  instrumented := fun m member => (Bool.and_eq_true_iff.1 (List.mem_filter.1 member).2).1
  fresh := by
    intro m member stored
    have waits := (Bool.and_eq_true_iff.1 (List.mem_filter.1 member).2).2
    rw [ingestedIff.2 stored] at waits
    cases waits

-- none of the merged modules is pending any more
theorem filterUnmerged {rest : List (CodeModule φ)} :
    (parts.map Prod.fst ++ rest).filter (unmerged parts) = rest.filter (unmerged parts) := by
  have settled : (parts.map Prod.fst).filter (unmerged parts) = [] := by
    refine List.filter_eq_nil_iff.2 fun m member waits => ?_
    obtain ⟨part, inside, same⟩ := List.mem_map.1 member
    subst same
    exact of_decide_eq_true waits (List.mem_map.2 ⟨part, inside, rfl⟩)
  rw [List.filter_append, settled, List.nil_append]

theorem againWhole (all : r.pending = parts.map Prod.fst) (merges : r.Merges parts read after) :
    after.sync = (.ok 0, after) := by
  have settled : (parts.map Prod.fst).filter (unmerged parts) = [] := by
    rw [← List.append_nil (parts.map Prod.fst), filterUnmerged]
    rfl
  have nothing : after.pending = [] := by rw [pendingAfter merges, all, settled, List.map_nil]
  rw [sync, nothing]
  rfl

theorem openedAgain (merges : r.Merges parts read after) (opened : id ∈ read) : after.opened id = after := by
  have same : after.program.opened id = after.program := by
    rw [merges.program, Program.opened, Program.openedMore]
    refine congrArg r.program.openedWhere (funext fun other => ?_)
    rw [← Bool.decide_or]
    exact decide_eq_decide.2 (or_iff_left_of_imp fun same => same ▸ opened)
  change { after with program := after.program.opened id } = after
  rw [same]

theorem againStopped {rest : List (CodeModule φ)} {e : IngestError} (unmet : r.Unmet (parts.map Prod.fst ++ m :: rest))
    (split : r.pending = parts.map Prod.fst ++ m :: rest) (failed : m.derive r.program.knownTypes = .error e)
    (merges : r.Merges parts read after) (opened : m.id ∈ read) : after.sync = (.error e, after) := by
  have member : m ∈ parts.map Prod.fst ++ m :: rest := List.mem_append_right _ (List.mem_cons_self ..)
  have apart : m.id ∉ parts.map fun part => part.1.id := by
    intro merged
    obtain ⟨part, inside, same⟩ := List.mem_map.1 merged
    have ids := unmet.ids
    rw [List.map_append, List.nodup_append] at ids
    exact ids.2.2 _ (List.mem_map.2 ⟨part.1, List.mem_map.2 ⟨part, inside, rfl⟩, rfl⟩) _ (List.mem_cons_self ..) same
  have still : unmerged parts m = true := decide_eq_true apart
  obtain ⟨later, waits⟩ : ∃ later, after.pending = m.opened :: later := by
    rw [pendingAfter merges, split, filterUnmerged, List.filter_cons_of_pos still, List.map_cons,
      openedIn, if_pos (decide_eq_true opened)]
    exact ⟨_, rfl⟩
  have fresh : after.contribution? m.opened.id = none := by
    rw [contributionNone, m.openedId]
    intro stored
    rcases (mergesIngested merges).1 (ingestedIff.2 stored) with old | merged
    · exact unmet.fresh m member (ingestedIff.1 old)
    · exact apart merged
  have failedAgain : m.opened.derive after.program.knownTypes = .error e := by
    rw [m.openedDerive, merges.program]
    exact failed
  have stops : after.ingest m.opened = (.error e, after) := by
    rw [ingestFailed (m.openedInstrumented.trans (unmet.instrumented m member)) fresh failedAgain, m.openedId,
      openedAgain merges opened]
  rw [sync, waits, ingestAll, stops]
  rfl

theorem syncGoes (ids : (r.program.modules.map CodeModule.id).Nodup) : r.SyncCourse r.sync.1 r.sync.2 := by
  have unmet := pendingUnmet ids
  rcases ingestAllCourse unmet with ⟨parts, all, each, done⟩ | ⟨parts, m, rest, e, split, each, failed, done⟩
  · have merges := mergesAll (all ▸ unmet) each
    have outcome : r.sync = (.ok r.pending.length, r.mergedAll parts) := by
      rw [sync, done]
      rfl
    rw [outcome]
    exact .whole all merges (againWhole all merges)
  · rw [split] at unmet
    have merges : r.Merges parts _ ((r.mergedAll parts).opened m.id) := mergesOpened (mergesAll (unmetFirst unmet) each)
    have outcome : r.sync = (.error e, (r.mergedAll parts).opened m.id) := by
      rw [sync, done]
      rfl
    rw [outcome]
    refine .stopped split failed merges (againStopped unmet split failed merges ?_)
    exact List.mem_append_right _ (List.mem_singleton.2 rfl)

theorem idsUndergone (ids : (r.program.modules.map CodeModule.id).Nodup) (events : List (Event φ)) :
    ((r.undergone events).program.modules.map CodeModule.id).Nodup := by
  induction events generalizing r with
  | nil => exact ids
  | cons event rest ih =>
      refine ih (r := r.undergo event) ?_
      cases event with
      | commit c => exact ids
      | operation op =>
          cases op with
          | load m => exact Program.idsLoad ids
          | sync =>
              have same := movesIds (syncMoves (r := r))
              exact same ▸ ids
          | ingest id =>
              have moves : Moves r (r.perform (.ingest id)) := performMoves fun _ same => by cases same
              have same := movesIds moves
              exact same ▸ ids

theorem syncsInOrder (events : List (Event φ)) : (({} : Registry φ).undergone events).SyncCourse
    (({} : Registry φ).undergone events).sync.1 (({} : Registry φ).undergone events).sync.2 := by
  have ids : (({} : Registry φ).program.modules.map CodeModule.id).Nodup := List.nodup_nil
  exact syncGoes (idsUndergone ids events)

end Registry
end MetadataIndex
