import MetadataIndex.Proofs.SkewScope

/-! Ingestion in different orders. What the ingestion of a module comes to is a function of the program,
since its types are all loaded before. So an order that ingests every module fails for the modules for
which any other one fails, and where none does the indexes match. -/
namespace MetadataIndex
open Std Relation
variable {φ : Type}

namespace Program
variable {p q : Program φ} {id : ModuleId}

def eligible (p : Program φ) : List ModuleId := (p.modules.filter CodeModule.instrumented).map CodeModule.id

def ingestion (p : Program φ) (id : ModuleId) : Except IngestError (Option (Contribution φ)) :=
  match p.module? id with
  | none => .ok none
  | some m => if m.instrumented then (m.derive p.knownTypes).map some else .ok none

theorem ingestionOpened (p : Program φ) :
    p.ingestion id = match (p.module? id).map CodeModule.opened with
      | none => .ok none
      | some m => if m.instrumented then (m.derive p.knownTypes).map some else .ok none := by
  unfold ingestion
  cases p.module? id with
  | none => rfl
  | some m => simp only [Option.map_some, m.openedInstrumented, m.openedDerive]

theorem alikeIngestion (alike : p.Alike q) : p.ingestion id = q.ingestion id := by
  rw [p.ingestionOpened, q.ingestionOpened, alikeModule alike, alikeTypes alike]

theorem plainIngestion (plain : id ∉ p.eligible) : p.ingestion id = .ok none := by
  unfold ingestion
  cases known : p.module? id with
  | none => rfl
  | some m =>
      obtain ⟨member, sameId⟩ := moduleFound known
      cases instrumented : m.instrumented with
      | false => simp only [instrumented, Bool.false_eq_true, if_false]
      | true => exact absurd (List.mem_map.2 ⟨m, List.mem_filter.2 ⟨member, instrumented⟩, sameId⟩) plain

end Program

namespace Registry
variable {r after : Registry φ} {m : CodeModule φ}

theorem ingestOutcome (inv : r.Coherent) (derived : r.Derived (· = r.program.knownTypes))
    (member : m ∈ r.program.modules) :
    (r.ingest m).1 = if m.instrumented then (m.derive r.program.knownTypes).map some else .ok none := by
  cases instrumented : m.instrumented with
  | false =>
      rw [ingestRefused instrumented]
      rfl
  | true =>
      rw [if_pos rfl]
      cases known : r.contribution? m.id with
      | some c =>
          -- what is stored was derived over the types that are known now
          obtain ⟨n, inside, u, now, sameId, _, derivation⟩ := derived _ (contributionIff.1 known)
          have same : n = m := moduleUnique inv inside member sameId
          subst same now
          rw [ingestStored instrumented known, derivation]
          rfl
      | none =>
          cases derivation : m.derive r.program.knownTypes with
          | error e =>
              rw [ingestFailed instrumented known derivation]
              rfl
          | ok c =>
              rw [ingestDerived instrumented known derivation]
              rfl

theorem syncedMoves (moves : Moves r after) (synced : r.Synced) : after.Synced := by
  intro n member instrumented
  obtain ⟨m, inside, sameId, sameMark⟩ := moduleBefore moves member
  rw [← sameId]
  exact movesIngested moves (synced m inside (sameMark.trans instrumented))

theorem fullMoves (moves : Moves r after) (full : r.Full) : after.Full where
  coherent := coherentMoves full.coherent moves
  derived := derivedMoves full.derived moves
  synced := syncedMoves moves full.synced

end Registry

namespace Index
variable {ix iy : Index φ} {id : ModuleId} {order first second : List ModuleId}

def ingestionOf (ix : Index φ) (id : ModuleId) : Except QueryError (Option (Contribution φ)) :=
  match ix.registry.program.module? id with
  | none => .ok none
  | some m => ix.answer (Query.ingest m)

theorem ingestionEq {p : Program φ} (inv : ix.registry.Coherent)
    (derived : ix.registry.Derived (· = ix.registry.program.knownTypes)) (alike : ix.registry.program.Alike p) :
    ix.ingestionOf id = (p.ingestion id).mapError .ingest := by
  rw [← Program.alikeIngestion alike]
  unfold ingestionOf Program.ingestion
  cases known : ix.registry.program.module? id with
  | none => rfl
  | some m =>
      change (ix.registry.ingest m).1.mapError QueryError.ingest = _
      rw [Registry.ingestOutcome inv derived (Program.moduleFound known).1]

theorem quietIngests : ∀ action ∈ order.map (@Action.ingest φ), action.quiet = true := by
  intro action member
  obtain ⟨_, _, same⟩ := List.mem_map.1 member
  subst same
  rfl

theorem quietAfter {asked : List (Action φ)} (quiet : ∀ a ∈ asked, a.quiet = true) :
    ∀ a ∈ order.map .ingest ++ asked, a.quiet = true := by
  intro a member
  rcases List.mem_append.1 member with first | later
  · exact quietIngests a first
  · exact quiet a later

theorem configSteps : Steps fun ix after : Index φ => after.config = ix.config where
  same := fun _ => rfl
  chain := fun first rest => rest.trans first
  sync := fun _ => rfl
  ingest := fun _ _ _ => rfl
  collect := fun _ _ => rfl
  typeView := fun _ => rfl
  attributeView := fun _ => rfl
  hold := fun _ _ _ => rfl
  drop := fun _ _ => rfl
  release := fun _ => rfl
  invalidate := fun _ => rfl

theorem derivedLoaded {config : Config} {limit : Nat} {modules : List (CodeModule φ)} :
    (ofProgram config limit (.ofModules modules)).registry.Derived (· = (Program.ofModules modules).knownTypes) := by
  intro s member
  cases member

variable [Preserving φ]

def ingestions (ix : Index φ) : List ModuleId → List (ModuleId × Except QueryError (Option (Contribution φ)))
  | [] => []
  | id :: rest => (id, ix.ingestionOf id) :: (ix.perform (.ingest id)).ingestions rest

def Ingests (ix : Index φ) (order : List ModuleId) : Prop := ∀ i ∈ ix.ingestions order, ∃ answer, i.2 = .ok answer

theorem ingestMoves (ix : Index φ) (id : ModuleId) :
    Registry.Moves ix.registry (ix.perform (.ingest id)).registry := registrySteps.perform rfl

theorem ingestAlone (same : ix.registry = iy.registry) :
    (ix.perform (.ingest id)).registry = (iy.perform (.ingest id)).registry := by
  rw [perform, perform, same]
  cases iy.registry.program.module? id with
  | none => exact same
  | some m => exact congrArg (fun r => (Registry.ingest r m).2) same

theorem ingestionsAlone (same : ix.registry = iy.registry) :
    (ix.run (order.map .ingest)).registry = (iy.run (order.map .ingest)).registry := by
  induction order generalizing ix iy with
  | nil => exact same
  | cons id rest ih => exact ih (ingestAlone same)

theorem ingestionsEq {p : Program φ} (inv : ix.registry.Coherent)
    (derived : ix.registry.Derived (· = ix.registry.program.knownTypes)) (alike : ix.registry.program.Alike p) :
    ix.ingestions order = order.map fun id => (id, (p.ingestion id).mapError .ingest) := by
  induction order generalizing ix with
  | nil => rfl
  | cons id rest ih =>
      have moves := ix.ingestMoves id
      rw [ingestions, List.map_cons, ingestionEq inv derived alike]
      congr 1
      exact ih (Registry.coherentMoves inv moves) (Registry.derivedMoves derived moves)
        ((Registry.movesAlike moves).trans alike)

theorem ingestionStores {m : CodeModule φ} {answer : Option (Contribution φ)} (inv : ix.registry.Coherent)
    (held : ix.registry.program.Holds m) (instrumented : m.instrumented = true)
    (ok : ix.ingestionOf m.id = .ok answer) : (ix.perform (.ingest m.id)).registry.isIngested m.id = true := by
  obtain ⟨k, member, opened⟩ := held
  have sameId := CodeModule.alikeId opened
  have known := Registry.moduleKnown inv member
  rw [← sameId, ingestionOf, known] at ok
  have done : (ix.registry.ingest k).1 = .ok answer := mapErrorOk.1 ok
  rw [← sameId, perform, known]
  exact Registry.ingestStores ((CodeModule.alikeInstrumented opened).trans instrumented) done

theorem ingestionsStore {m : CodeModule φ} (inv : ix.registry.Coherent) (held : ix.registry.program.Holds m)
    (instrumented : m.instrumented = true) (listed : m.id ∈ order)
    (succeeds : ix.Ingests order) :
    (ix.run (order.map .ingest)).registry.isIngested m.id = true := by
  induction order generalizing ix with
  | nil => cases listed
  | cons id rest ih =>
      obtain ⟨⟨answer, ok⟩, others⟩ := List.forall_mem_cons.1 succeeds
      have moves := ix.ingestMoves id
      rcases List.mem_cons.1 listed with same | later
      · subst same
        have after : Registry.Moves (ix.perform (.ingest m.id)).registry
            ((ix.perform (.ingest m.id)).run (rest.map .ingest)).registry := registrySteps.run quietIngests
        exact Registry.movesIngested after (ingestionStores inv held instrumented ok)
      · exact ih (Registry.coherentMoves inv moves) (Registry.movesHold moves held) later others

theorem ingestionsFull (inv : ix.registry.Coherent)
    (derived : ix.registry.Derived (· = ix.registry.program.knownTypes))
    (complete : ix.registry.program.eligible ⊆ order)
    (succeeds : ix.Ingests order) :
    (ix.run (order.map .ingest)).registry.Full := by
  have moves : Registry.Moves ix.registry (ix.run (order.map .ingest)).registry := registrySteps.run quietIngests
  refine ⟨Registry.coherentMoves inv moves, Registry.derivedMoves derived moves, fun n member instrumented => ?_⟩
  obtain ⟨m, inside, sameId, sameMark⟩ := Registry.moduleBefore moves member
  have marked : m.instrumented = true := sameMark.trans instrumented
  rw [← sameId]
  refine ingestionsStore inv (Program.holdsMember inside) marked (complete ?_) succeeds
  exact List.mem_map.2 ⟨m, List.mem_filter.2 ⟨inside, marked⟩, rfl⟩

theorem runsMatch {actions others : List (Action φ)} (quiet : ∀ a ∈ actions, a.quiet = true)
    (quietToo : ∀ a ∈ others, a.quiet = true) (views : ix.Views ix.types) (full : (ix.run actions).registry.Full)
    (fullToo : (ix.run others).registry.Full) : (ix.run actions).Matching (ix.run others) := by
  have config : (ix.run actions).config = ix.config := configSteps.run quiet
  have configToo : (ix.run others).config = ix.config := configSteps.run quietToo
  have keeps : ix.Keeps (ix.run actions) := viewSteps.run quiet
  have keepsToo : ix.Keeps (ix.run others) := viewSteps.run quietToo
  have moves : Registry.Moves ix.registry (ix.run actions).registry := registrySteps.run quiet
  have movesToo : Registry.Moves ix.registry (ix.run others).registry := registrySteps.run quietToo
  exact {
    strict := by rw [config, configToo]
    limit := keeps.limit.trans keepsToo.limit.symm
    alike := (Registry.movesAlike moves).trans (Registry.movesAlike movesToo).symm
    full
    fullToo
    views := viewsTimely keeps views
    viewsToo := viewsTimely keepsToo views }

theorem ranMaterializer {actions : List (Action φ)} (quiet : ∀ a ∈ actions, a.quiet = true) :
    (ix.run actions).materializer = ix.materializer := by
  have keeps : ix.Keeps (ix.run actions) := viewSteps.run quiet
  have moves : Registry.Moves ix.registry (ix.run actions).registry := registrySteps.run quiet
  rw [materializer, materializer, keeps.limit]
  exact congrArg (Materializer.mk · ix.walkLimit) (Registry.movesTypes moves)

theorem ingestionsUnbuilt {type : TypeName} {e : QueryError} (views : ix.Views ix.types)
    (full : (ix.run (order.map .ingest)).registry.Full) (accepted : ix.checkAnnotationType type = .ok ())
    (failed : (ix.materializer.pickCalls ∅
      (AttributeGroups.calls (ix.run (order.map .ingest)).registry.global)).2 = .error e) :
    (ix.run (order.map .ingest)).answer (Query.attributes type) = .error e := by
  have keeps : ix.Keeps (ix.run (order.map .ingest)) := viewSteps.run quietIngests
  have config : (ix.run (order.map .ingest)).config = ix.config := configSteps.run quietIngests
  have kept : (ix.run (order.map .ingest)).materializer = ix.materializer := ranMaterializer quietIngests
  refine attributesUnbuilt (viewsTimely keeps views) full ?_ (kept ▸ failed)
  rw [sameTypeCheck (congrArg Materializer.types kept) (congrArg Config.strict config)]
  exact accepted

section Orders
variable {config : Config} {limit : Nat} {modules : List (CodeModule φ)} {asked : List (Action φ)}

theorem ingestionsLoaded : (ofProgram config limit (.ofModules modules)).ingestions order =
    order.map fun id => (id, ((Program.ofModules modules).ingestion id).mapError .ingest) :=
  ingestionsEq (Registry.coherentLoaded modules) derivedLoaded rfl

theorem ingestionsFail {e : IngestError} (listed : id ∈ order)
    (failed : (Program.ofModules modules).ingestion id = .error e) :
    (id, .error (.ingest e)) ∈ (ofProgram config limit (.ofModules modules)).ingestions order := by
  rw [ingestionsLoaded]
  refine List.mem_map.2 ⟨id, listed, ?_⟩
  rw [failed]
  rfl

theorem ingestionsSucceed (works : ∀ id ∈ (Program.ofModules modules).eligible,
      ∃ answer, (Program.ofModules modules).ingestion id = .ok answer) :
    (ofProgram config limit (.ofModules modules)).Ingests order := by
  intro i member
  rw [ingestionsLoaded] at member
  obtain ⟨id, _, same⟩ := List.mem_map.1 member
  subst same
  by_cases listed : id ∈ (Program.ofModules modules).eligible
  · obtain ⟨answer, ok⟩ := works id listed
    exact ⟨answer, mapErrorOk.2 ok⟩
  · exact ⟨none, mapErrorOk.2 (Program.plainIngestion listed)⟩

theorem orderedFull (complete : (Program.ofModules modules).eligible ⊆ order)
    (succeeds : (ofProgram config limit (.ofModules modules)).Ingests order)
    (quiet : ∀ a ∈ asked, a.quiet = true) :
    ((ofProgram config limit (.ofModules modules)).run (order.map .ingest ++ asked)).registry.Full := by
  rw [run, List.foldl_append]
  have full := ingestionsFull (Registry.coherentLoaded modules) derivedLoaded complete succeeds
  exact Registry.fullMoves (registrySteps.run quiet) full

end Orders

/-- Two orders that bring in every instrumented module: there is a module that fails in both, for one
cause, or no module fails in either, and the queries match from then on, whatever is asked first. They
fail for one cause too, unless the limit cuts off a supertype walk, which an order can put first. -/
theorem ingestionOrder (config : Config) (limit : Nat) (modules : List (CodeModule φ)) (first second : List ModuleId)
    (complete : (Program.ofModules modules).eligible ⊆ first)
    (completeToo : (Program.ofModules modules).eligible ⊆ second) (asked askedToo : List (Action φ))
    (quiet : ∀ a ∈ asked, a.quiet = true) (quietToo : ∀ a ∈ askedToo, a.quiet = true) :
    (∃ id e, (id, .error e) ∈ (ofProgram config limit (.ofModules modules)).ingestions first ∧
      (id, .error e) ∈ (ofProgram config limit (.ofModules modules)).ingestions second) ∨
    ((ofProgram config limit (.ofModules modules)).Ingests first ∧
      (ofProgram config limit (.ofModules modules)).Ingests second ∧
      ((ofProgram config limit (.ofModules modules)).run (first.map .ingest ++ asked)).AnswersMatch
        (Materializer.SameUnlessStuck ⟨(Program.ofModules modules).knownTypes, limit⟩)
        ((ofProgram config limit (.ofModules modules)).run (second.map .ingest ++ askedToo)) ∧
      ((Program.ofModules modules).knownTypes.Suffices limit →
        ((ofProgram config limit (.ofModules modules)).run (first.map .ingest ++ asked)).AnswersMatch
          QueryError.SameCause
          ((ofProgram config limit (.ofModules modules)).run (second.map .ingest ++ askedToo)))) := by
  -- whether a module fails is a matter of the program, so it is asked before any order is looked at
  by_cases works : ∀ id ∈ (Program.ofModules modules).eligible,
      ∃ answer, (Program.ofModules modules).ingestion id = .ok answer
  · have succeeds : (ofProgram config limit (.ofModules modules)).Ingests first := ingestionsSucceed works
    have succeedsToo : (ofProgram config limit (.ofModules modules)).Ingests second := ingestionsSucceed works
    have matching := runsMatch (quietAfter quiet) (quietAfter quietToo) (viewsAtFirst config limit modules)
      (orderedFull complete succeeds quiet) (orderedFull completeToo succeedsToo quietToo)
    have kept : ((ofProgram config limit (.ofModules modules)).run (first.map .ingest ++ asked)).materializer =
        ⟨(Program.ofModules modules).knownTypes, limit⟩ := ranMaterializer (quietAfter quiet)
    refine .inr ⟨succeeds, succeedsToo, answersMatch matching ?_, fun enough => answersMatch matching ?_⟩
    · rw [kept]
      exact fun _ _ => id
    · rw [kept]
      exact fun _ _ => Materializer.causeOfUnless enough
  · obtain ⟨id, failing⟩ := not_forall.1 works
    obtain ⟨listed, stuck⟩ := Classical.not_imp.1 failing
    cases outcome : (Program.ofModules modules).ingestion id with
    | ok answer => exact absurd ⟨answer, outcome⟩ stuck
    | error e =>
        exact .inl ⟨id, .ingest e, ingestionsFail (complete listed) outcome,
          ingestionsFail (completeToo listed) outcome⟩

def pairedModules : List CodeModule :=
  [({ id := "Runtime" } : CodeModule).define { name := "Base", owner := "Runtime", kind := .classType },
    (({ id := "X" } : CodeModule).define
      { name := "A", owner := "X", kind := .classType, base := some { name := "Base" } }).withRecords
      (.eager [{ type := "A" }]),
    (({ id := "Y" } : CodeModule).define
      { name := "B", owner := "Y", kind := .classType, base := some { name := "Base" } }).withRecords
      (.eager [{ type := "B" }])]

def pairedIndex : Index := ofProgram {} 10 (.ofModules pairedModules)

theorem swappedMatch :
    (pairedIndex.run [.ingest "X", .ingest "Y", .sync]).answer (Query.subtypes { name := "Base" }) = .ok ["A", "B"] ∧
      (pairedIndex.run [.ingest "Y", .ingest "X", .instances]).answer (Query.subtypes { name := "Base" }) =
        .ok ["B", "A"] ∧
      (pairedIndex.run [.ingest "X", .ingest "Y", .sync]).AnswersMatch QueryError.SameCause
        (pairedIndex.run [.ingest "Y", .ingest "X", .instances]) := by
  refine ⟨by decide +kernel, by decide +kernel, ?_⟩
  have orders := ingestionOrder {} 10 pairedModules ["X", "Y"] ["Y", "X"] (by decide +kernel) (by decide +kernel)
    [.sync] [.instances] (by decide) (by decide)
  rcases orders with ⟨id, e, failed, _⟩ | ⟨_, _, _, answers⟩
  · have works : ∀ i ∈ pairedIndex.ingestions ["X", "Y"], i.2.toBool = true := by decide +kernel
    cases works _ failed
  · have missed : ∀ d ∈ (Program.ofModules pairedModules).knownTypes.defs.toList,
        (Program.ofModules pairedModules).knownTypes.assignable? 10 d.name ⟨"Nowhere", []⟩ = some false := by
      decide +kernel
    exact answers (Universe.sufficesOfMissed missed)

def bareTarget : TypeDef where
  name := "T1"
  owner := "X"
  kind := .classType

def grownTarget : TypeDef where
  name := "T2"
  owner := "Y"
  kind := .classType
  attachments := [⟨"Grow", .plain false, 0⟩]

def twistedModules : List CodeModule :=
  [({ id := "Runtime" } : CodeModule)
      |>.define { name := "Retrieve", owner := "Runtime", kind := .annotationType, retrievable := true }
      |>.define { name := "Tag", owner := "Runtime", kind := .annotationType, base := some { name := "Retrieve" } }
      |>.define (growType "Runtime" .annotationType),
    (({ id := "X" } : CodeModule).define bareTarget).withRecords (.eager [{ type := "T1", marker := some "Tag" }]),
    (({ id := "Y" } : CodeModule).define grownTarget).withRecords (.eager [{ type := "T2", marker := some "Tag" }])]

def twistedIndex (limit : Nat) : Index := ofProgram {} limit (.ofModules twistedModules)

theorem twistedIngests (limit : Nat) (order : List ModuleId) : (twistedIndex limit).Ingests order := by
  refine ingestionsSucceed fun id listed => ?_
  have works : ∀ id ∈ (Program.ofModules twistedModules).eligible,
      ((Program.ofModules twistedModules).ingestion id).toBool = true := by decide +kernel
  have worked := works id listed
  cases outcome : (Program.ofModules twistedModules).ingestion id with
  | ok answer => exact ⟨answer, rfl⟩
  | error e =>
      rw [outcome] at worked
      cases worked

theorem twistedFails {limit : Nat} {order : List ModuleId} {e : QueryError} {marked : List Declaration}
    (complete : (Program.ofModules twistedModules).eligible ⊆ order)
    (table : ((twistedIndex 0).run (order.map .ingest)).registry.global.markTable = [("Tag", marked)])
    (failed : ((twistedIndex limit).materializer.pickCalls ∅ [⟨marked, "Tag", "Tag"⟩]).2 = .error e) :
    ((twistedIndex limit).run (order.map .ingest)).answer (Query.attributes "Tag") = .error e := by
  have full : ((twistedIndex limit).run (order.map .ingest)).registry.Full :=
    ingestionsFull (Registry.coherentLoaded twistedModules) derivedLoaded complete (twistedIngests limit order)
  have registry : ((twistedIndex limit).run (order.map .ingest)).registry =
      ((twistedIndex 0).run (order.map .ingest)).registry := ingestionsAlone rfl
  refine ingestionsUnbuilt (viewsAtFirst {} limit twistedModules) full ?_ ?_
  · change (twistedIndex 0).checkAnnotationType "Tag" = .ok ()
    decide +kernel
  · rw [registry, AttributeGroups.calls, table]
    exact failed

theorem skewedOrEndless : (Program.ofModules twistedModules).eligible = ["X", "Y"] ∧ ∀ limit,
    (twistedIndex limit).Ingests ["X", "Y"] ∧ (twistedIndex limit).Ingests ["Y", "X"] ∧
      ((twistedIndex limit).run (["X", "Y"].map .ingest)).answer (Query.attributes "Tag") =
        .error (.metadataSkew "T1" "Tag") ∧
      ((twistedIndex limit).run (["Y", "X"].map .ingest)).answer (Query.attributes "Tag") =
        .error (.undecided "Grow" ⟨"Tag", []⟩) := by
  have eligible : (Program.ofModules twistedModules).eligible = ["X", "Y"] := by decide +kernel
  refine ⟨eligible, fun limit => ⟨twistedIngests limit _, twistedIngests limit _, ?_, ?_⟩⟩
  · have table : ((twistedIndex 0).run (["X", "Y"].map .ingest)).registry.global.markTable =
        [("Tag", [⟨bareTarget, none⟩, ⟨grownTarget, none⟩])] := by decide +kernel
    have failed : ((twistedIndex limit).materializer.pickCalls ∅
        [⟨[⟨bareTarget, none⟩, ⟨grownTarget, none⟩], "Tag", "Tag"⟩]).2 = .error (.metadataSkew "T1" "Tag") := by rfl
    exact twistedFails (by simp [eligible]) table failed
  · have table : ((twistedIndex 0).run (["Y", "X"].map .ingest)).registry.global.markTable =
        [("Tag", [⟨grownTarget, none⟩, ⟨bareTarget, none⟩])] := by decide +kernel
    have known : (twistedIndex limit).types.find? "Grow" = some (growType "Runtime" .annotationType) := by rfl
    have other : (⟨"Tag", []⟩ : TypeRef).name ≠ "Grow" := by decide
    have cut : (twistedIndex limit).materializer.assignable "Grow" "Tag" = .error (.undecided "Grow" ⟨"Tag", []⟩) :=
      Materializer.assignableCut (Universe.growsUndecided known growTypeGrows other limit)
    have failed : ((twistedIndex limit).materializer.pickCalls ∅
        [⟨[⟨grownTarget, none⟩, ⟨bareTarget, none⟩], "Tag", "Tag"⟩]).2 = .error (.undecided "Grow" ⟨"Tag", []⟩) := by
      simp [Materializer.pickCalls, Materializer.pickDeclarations, Materializer.carries, cut,
        Declaration.attachments, Declaration.member?, grownTarget]
    exact twistedFails (by simp [eligible]) table failed

end Index
end MetadataIndex
