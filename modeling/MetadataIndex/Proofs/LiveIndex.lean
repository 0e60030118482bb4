import MetadataIndex.Proofs.RegistryConsistency
import MetadataIndex.Proofs.Synced

/-! The index against the live metadata. When no two modules define a type of one name and all are
loaded before the first query, every stored edge is a step up of the known types, and the edges told
by a type record hold all steps above its type. A path down the graph is then a path up the types. -/
namespace MetadataIndex
open Std Relation
variable {φ : Type}

def CodeModule.Apart (m n : CodeModule φ) : Prop := ∀ d ∈ m.types.toList, ∀ e ∈ n.types.toList, d.name ≠ e.name

instance : DecidableRel (@CodeModule.Apart φ) := fun m n =>
  inferInstanceAs (Decidable (∀ d ∈ m.types.toList, ∀ e ∈ n.types.toList, d.name ≠ e.name))

namespace Universe
variable {u v : Universe φ} {name above : TypeName} {owner : TypeDef φ}

theorem directSupertypeExtends (known : u.Extends v) (step : u.DirectSupertype name above) :
    v.DirectSupertype name above := by
  obtain ⟨d, found, member⟩ := step
  exact ⟨d, known _ _ found, member⟩

theorem extendsWithFirst (known : u.Extends v) (owned : v.find? owner.name = some owner) :
    (u.withFirst owner).Extends v := by
  intro name d found
  rw [findWithFirst] at found
  split at found
  · next same =>
    cases found
    exact same ▸ owned
  · exact known name d found

end Universe

namespace Program

def records (p : Program φ) : List Record := p.modules.flatMap CodeModule.recordList

def recordsIn (p : Program φ) (id : ModuleId) : List Record :=
  match p.module? id with
  | none => []
  | some m => m.recordList

def Unshadowed (p : Program φ) : Prop :=
  ∀ m ∈ p.modules, ∀ d ∈ m.types.toList, p.knownTypes.find? d.name = some d

theorem unshadowed {p : Program φ} (apart : p.modules.Pairwise CodeModule.Apart) : p.Unshadowed := by
  intro m member d inside
  rw [findKnown]
  generalize p.modules = modules at apart member
  induction apart with
  | nil => cases member
  | @cons first rest differ apart ih =>
      -- a name is looked up in the first module, then in the rest
      rw [definitionsOf, List.flatMap_cons, List.find?_append, ← definitionsOf]
      rcases List.mem_cons.1 member with same | later
      · subst same
        have found : (m.types.toList.find? fun e => e.name = d.name) = some d := by
          cases search : m.types.toList.find? fun e => e.name = d.name with
          | none => simpa using List.find?_eq_none.1 search d inside
          | some e =>
              have key : e.name = d.name := by simpa using List.find?_some search
              rw [OrderedSet.sameOfKey (List.mem_of_find?_eq_some search) inside key]
        rw [found]
        rfl
      · have absent : (first.types.toList.find? fun e => e.name = d.name) = none := by
          refine List.find?_eq_none.2 fun e other => ?_
          simpa using differ m later e other d inside
        rw [absent, ih later]
        rfl

theorem loadSublist {p : Program φ} {m : CodeModule φ} : (p.load m).2.modules.Sublist (p.modules ++ [m]) := by
  unfold load
  split
  · exact List.sublist_append_left _ _
  · exact List.Sublist.refl _

theorem modulesSublist (modules : List (CodeModule φ)) : (ofModules modules).modules.Sublist modules := by
  -- loading is a fold, so the program loaded into has to vary
  have general : ∀ (ms : List (CodeModule φ)) (p : Program φ),
      (ms.foldl (fun p m => (p.load m).2) p).modules.Sublist (p.modules ++ ms) := by
    intro ms
    induction ms with
    | nil => intro p; simp
    | cons m rest ih =>
        intro p
        have wider : ((p.load m).2.modules ++ rest).Sublist (p.modules ++ m :: rest) := by
          rw [List.append_cons]
          exact loadSublist.append_right rest
        exact (ih _).trans wider
  exact general modules {}

section Opened
variable {p : Program φ} {id : ModuleId}

theorem openedRecords : (p.opened id).records = p.records := by
  rw [records, openedModules, List.flatMap_map, records]
  congr 1
  funext m
  split
  · exact m.openedRecordList
  · rfl

theorem openedRecordsIn {other : ModuleId} : (p.opened id).recordsIn other = p.recordsIn other := by
  have sameIds : ((fun m : CodeModule φ => decide (m.id = other)) ∘ fun m => if m.id = id then m.opened else m) =
      fun m => decide (m.id = other) := by
    funext m
    simp only [Function.comp]
    split
    · rw [m.openedId]
    · rfl
  unfold recordsIn module?
  rw [openedModules, List.find?_map, sameIds]
  cases p.modules.find? fun m => m.id = other with
  | none => rfl
  | some m =>
      simp only [Option.map_some]
      split
      · exact m.openedRecordList
      · rfl

theorem openedUnshadowed (unshadowed : p.Unshadowed) : (p.opened id).Unshadowed := by
  intro n member d inside
  obtain ⟨m, before, same⟩ := heldBeforeOpening member
  refine unshadowed m before d ?_
  rcases same with eq | eq
  · rwa [eq] at inside
  · rwa [eq, m.openedTypes] at inside

end Opened

end Program

namespace Registry
variable {r after : Registry φ} {m : CodeModule φ} {c : Contribution φ} {id : ModuleId} {e : Edge}
  {base above name : TypeName} {ρ : Record}

structure Current (r : Registry φ) : Prop where
  coherent : r.Coherent
  derived : r.Derived (· = r.program.knownTypes)
  unshadowed : r.program.Unshadowed

theorem currentTold (current : r.Current) (found : r.contribution? id = some c) :
    ∃ m ∈ r.program.modules, m.id = id ∧ c = m.told r.program.knownTypes ∧
      ∀ ρ ∈ m.recordList, ∃ owner, m.find? ρ.type = some owner := by
  obtain ⟨m, member, u, same, sameId, _, derivation⟩ := current.derived _ (contributionIff.1 found)
  subst same
  exact ⟨m, member, sameId, CodeModule.deriveOk derivation, fun ρ inside => CodeModule.deriveResolved derivation inside⟩

theorem sameSteps (current : r.Current) {owner : TypeDef φ} (member : m ∈ r.program.modules)
    (found : m.find? name = some owner) :
    (r.program.knownTypes.withFirst owner).DirectSupertype = r.program.knownTypes.DirectSupertype := by
  have known := current.unshadowed m member owner (OrderedSet.findIff.1 found).1
  exact Universe.directSupertypeOfLookup (Universe.findWithKnown known)

theorem edgeJustified (inv : r.Coherent) (unshadowed : r.program.Unshadowed) (member : e ∈ r.global.edges.toList) :
    r.program.knownTypes.DirectSupertype e.derived e.base := by
  obtain ⟨id, c, found, inside⟩ := (memGlobalEdges inv e).1 member
  obtain ⟨m, module, u, known, _, _, told⟩ := storedTold inv found
  subst told
  obtain ⟨_, ρ, _, edge⟩ := CodeModule.memToldEdges.1 inside
  rcases CodeModule.recordEdgeStep edge with ⟨owner, resolved, step⟩ | step
  · have owned := unshadowed m module owner (OrderedSet.findIff.1 resolved).1
    exact Universe.directSupertypeExtends (Universe.extendsWithFirst known owned) step
  · exact Universe.directSupertypeExtends known step

theorem edgeStep (current : r.Current) (member : e ∈ r.global.edges.toList) :
    r.program.knownTypes.DirectSupertype e.derived e.base :=
  edgeJustified current.coherent current.unshadowed member

theorem recordTells (current : r.Current) (found : r.contribution? m.id = some c)
    (member : m ∈ r.program.modules) (record : ρ ∈ m.recordList) (whole : ρ.member = none)
    (path : ReflTransGen r.program.knownTypes.DirectSupertype ρ.type name)
    (step : r.program.knownTypes.DirectSupertype name above) (differ : above ≠ name) :
    ∃ kind, ⟨above, name, kind⟩ ∈ c.edges.toList := by
  obtain ⟨n, inside, same, told, resolved⟩ := currentTold current found
  have sameModule : n = m := moduleUnique current.coherent inside member same
  subst sameModule
  subst told
  obtain ⟨owner, owned⟩ := resolved ρ record
  have named : owner.name = ρ.type := (OrderedSet.findIff.1 owned).2
  rw [← sameSteps current member owned] at path step
  rw [← named] at path
  obtain ⟨kind, edge⟩ := Universe.edgeInLineage path step
  refine ⟨kind, CodeModule.memToldEdges.2 ⟨by simpa [Edge.proper] using differ, ρ, record, ?_⟩⟩
  refine List.mem_append_left _ ?_
  simp only [CodeModule.supertypeEdges, owned, whole]
  exact edge

theorem linkedDerives (inv : r.Coherent) (unshadowed : r.program.Unshadowed)
    (path : ReflTransGen (fun b d => d ∈ (r.graph.below b).toList) base name) :
    ReflTransGen r.program.knownTypes.DirectSupertype name base := by
  induction path with
  | refl => exact .refl
  | tail _ link ih =>
      obtain ⟨kind, edge⟩ := (memGraphBelow inv _ _).1 link
      exact .head (edgeJustified inv unshadowed edge) ih

theorem reachedDerives (path : ReflTransGen (fun b d => d ∈ (r.graph.below b).toList) base name)
    (current : r.Current) : ReflTransGen r.program.knownTypes.DirectSupertype name base :=
  linkedDerives current.coherent current.unshadowed path

structure Speaks (r : Registry φ) (scope : Contribution φ) (records : List Record) : Prop where
  known : ∀ e ∈ scope.edges.toList, e ∈ r.global.edges.toList
  named : ∀ t, t ∈ scope.types.toList ↔ ∃ ρ ∈ records, ρ.type = t
  tells : ∀ ρ ∈ records, ρ.member = none → ∀ name above,
    ReflTransGen r.program.knownTypes.DirectSupertype ρ.type name →
      r.program.knownTypes.DirectSupertype name above → above ≠ name →
        ∃ kind, ⟨above, name, kind⟩ ∈ scope.edges.toList

theorem moduleSpeaks (current : r.Current) (member : m ∈ r.program.modules)
    (found : r.contribution? m.id = some c) : r.Speaks c m.recordList where
  known := fun e inside => (memGlobalEdges current.coherent e).2 ⟨m.id, c, found, inside⟩
  named := by
    intro t
    obtain ⟨n, inside, same, told, _⟩ := currentTold current found
    have sameModule : n = m := moduleUnique current.coherent inside member same
    subst sameModule
    subst told
    exact CodeModule.memToldTypes
  tells := fun ρ record whole name above path step differ =>
    recordTells current found member record whole path step differ

theorem memRecords {p : Program φ} : ρ ∈ p.records ↔ ∃ m ∈ p.modules, ρ ∈ m.recordList := List.mem_flatMap

theorem recordInstrumented (record : ρ ∈ m.recordList) : m.instrumented = true := by
  unfold CodeModule.recordList at record
  split at record
  · next instrumented => exact instrumented
  · cases record

theorem globalSpeaks (current : r.Current) (synced : r.Synced) : r.Speaks r.global r.program.records := by
  have stored : ∀ ρ ∈ r.program.records, ∃ m ∈ r.program.modules, ρ ∈ m.recordList ∧
      ∃ c, r.contribution? m.id = some c := by
    intro ρ record
    obtain ⟨m, member, inside⟩ := memRecords.1 record
    exact ⟨m, member, inside, Option.isSome_iff_exists.1 (synced m member (recordInstrumented inside))⟩
  constructor
  · exact fun e inside => inside
  · intro t
    rw [memGlobalTypes current.coherent]
    constructor
    · intro ⟨id, c, found, inside⟩
      obtain ⟨m, member, _, told, _⟩ := currentTold current found
      subst told
      obtain ⟨ρ, record, named⟩ := CodeModule.memToldTypes.1 inside
      exact ⟨ρ, memRecords.2 ⟨m, member, record⟩, named⟩
    · intro ⟨ρ, record, named⟩
      obtain ⟨m, member, inside, c, found⟩ := stored ρ record
      exact ⟨m.id, c, found, ((moduleSpeaks current member found).named t).2 ⟨ρ, inside, named⟩⟩
  · intro ρ record whole name above path step differ
    obtain ⟨m, member, inside, c, found⟩ := stored ρ record
    obtain ⟨kind, edge⟩ := recordTells current found member inside whole path step differ
    exact ⟨kind, (memGlobalEdges current.coherent _).2 ⟨m.id, c, found, edge⟩⟩

theorem derivesReached {scope : Contribution φ} {records : List Record} (current : r.Current)
    (speaks : r.Speaks scope records) (record : ρ ∈ records) (whole : ρ.member = none)
    (start : ReflTransGen r.program.knownTypes.DirectSupertype ρ.type name)
    (path : ReflTransGen r.program.knownTypes.DirectSupertype name base) :
    ReflTransGen (fun b d => d ∈ (r.graph.below b).toList) base name := by
  -- upwards, so that each step starts where a step from the record has led
  induction path using ReflTransGen.head_induction_on with
  | refl => exact .refl
  | @head lower upper step rest ih =>
      have further := ih (start.tail step)
      by_cases same : upper = lower
      · exact same ▸ further
      · obtain ⟨kind, edge⟩ := speaks.tells ρ record whole lower upper start step same
        exact further.tail ((memGraphBelow current.coherent _ _).2 ⟨kind, speaks.known _ edge⟩)

theorem movesRecords (moves : Moves r after) :
    after.program.records = r.program.records ∧
      ∀ id, after.program.recordsIn id = r.program.recordsIn id := by
  refine movesProgram (P := fun p => p.records = r.program.records ∧ ∀ id, p.recordsIn id = r.program.recordsIn id)
    (fun before => ?_) moves ⟨rfl, fun _ => rfl⟩
  exact ⟨Program.openedRecords.trans before.1, fun k => Program.openedRecordsIn.trans (before.2 k)⟩

theorem currentAfter {modules : List (CodeModule φ)} (apart : modules.Pairwise CodeModule.Apart)
    (moves : Moves { program := .ofModules modules } r) : r.Current where
  coherent := coherentMoves (coherentLoaded modules) moves
  derived := by
    refine derivedMoves ?_ moves
    intro s member
    cases member
  unshadowed := movesProgram Program.openedUnshadowed moves
    (Program.unshadowed (apart.sublist (Program.modulesSublist modules)))

theorem recordsOfModule (inv : r.Coherent) (member : m ∈ r.program.modules) :
    r.program.recordsIn m.id = m.recordList := by
  rw [Program.recordsIn, moduleKnown inv member]

end Registry
end MetadataIndex
