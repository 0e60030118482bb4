import MetadataIndex.Proofs.BoundInstances
import MetadataIndex.Proofs.FiniteWalks
import MetadataIndex.Proofs.ViewAnswers

/-! Where the instances of an attribute query come from. In every index that a run reaches, an answer
repeats no target and type, each target is designated by a record, and each value was made from the
first attachment of its type there and told its target once. The type is the asked one or lies below
it in the graph; every step of the graph is a step of the live types when no name is defined twice. -/
namespace MetadataIndex
open Std Relation
variable {φ : Type}

namespace Registry
variable {r : Registry φ} {id : ModuleId} {c : Contribution φ} {mark : Mark φ} {d : Declaration φ}
  {above name : TypeName}

def Designates (r : Registry φ) (id : ModuleId) (d : Declaration φ) : Prop :=
  r.isIngested id = true ∧ ∃ m ∈ r.program.modules, m.id = id ∧ ∃ ρ ∈ m.recordList, d ∈ m.designated ρ

theorem markDesignated (inv : r.Coherent) (found : r.contribution? id = some c) (member : mark ∈ c.marks.toList) :
    r.Designates id mark.target := by
  obtain ⟨m, inside, u, _, same, _, told⟩ := storedTold inv found
  subst told
  obtain ⟨ρ, record, marked⟩ := CodeModule.memOfToldMarks member
  obtain ⟨d, designates, marker⟩ := List.mem_flatMap.1 marked
  obtain ⟨_, _, equal⟩ := List.mem_map.1 marker
  subst equal
  exact ⟨ingestedOf found, m, inside, same, ρ, record, designates⟩

theorem belowLinked (inv : r.Coherent) (below : r.Below above name) :
    ReflTransGen (fun b d => (b, d) ∈ r.graph.links) above name :=
  ((belowGraph inv).1 below).lift id fun _ _ => SubtypeGraph.memLinks.2

theorem belowDerives (inv : r.Coherent) (unshadowed : r.program.Unshadowed) (below : r.Below above name) :
    ReflTransGen r.program.knownTypes.DirectSupertype name above :=
  linkedDerives inv unshadowed ((belowGraph inv).1 below)

end Registry

structure Justified (r : Registry φ) (asked : ModuleId → Prop) (answer : List (Instance φ)) : Prop where
  once : (answer.map Instance.id).Nodup
  designated : ∀ i ∈ answer, ∃ id, asked id ∧ r.Designates id i.target
  made : ∀ i ∈ answer, i.Made
  received : ∀ i ∈ answer, i.value.received = [i.target]

namespace Index
variable {ix : Index φ} {w : Universe φ} {type : TypeName} {id : ModuleId} {answer : List (Instance φ)}

def Reachable [Preserving φ] (ix : Index φ) : Prop :=
  ∃ config limit modules actions, ix = (ofProgram config limit (.ofModules modules)).run actions

theorem reachableViews [Preserving φ] (reached : ix.Reachable) : ∃ w, ix.Views w := by
  obtain ⟨config, limit, modules, actions, same⟩ := reached
  exact ⟨_, same ▸ viewsRun actions (viewsAtFirst config limit modules)⟩

theorem candidatesNodup (r : Registry φ) (limit : Nat) (type : TypeName) :
    (type :: (r.search limit).candidates r.global false type).Nodup := by
  refine List.nodup_cons.2 ⟨fun member => ?_, firstOccurrencesNodup _⟩
  exact (SubtypeSearch.memCandidates.1 member).2.1 rfl

theorem checkedKnown (checked : ix.answer (Query.read (·.checkAnnotationType type)) = .ok ()) :
    ∃ d, ix.types.find? type = some d := by
  rw [answerRead, checkAnnotationType] at checked
  cases found : ix.types.find? type with
  | none =>
      rw [found] at checked
      cases checked
  | some d => exact ⟨d, rfl⟩

theorem attributesMade (views : ix.Views w) (ok : ix.answer (Query.attributes type) = .ok answer) :
    Justified ix.synced.registry (fun _ => True) answer ∧
      ∀ i ∈ answer, ix.synced.registry.Below type i.type := by
  have coherent := (viewsSynced views).coherent
  obtain ⟨groups, given, same⟩ := answerAttributes views ok
  obtain ⟨t, built⟩ := given.built
  have origin : ∀ i ∈ answer, ix.synced.registry.Below type i.type ∧ i.Made ∧
      ∃ id, ix.synced.registry.Designates id i.target := by
    intro i member
    rw [same] at member
    obtain ⟨candidate, made, mark, marked, target⟩ := AttributeGroups.buildMade built member
    obtain ⟨id, c, found, inside⟩ := (Registry.memGlobalMarks coherent mark).1 marked
    exact ⟨(Registry.candidateBelow coherent).1 candidate, made, id,
      target ▸ Registry.markDesignated coherent found inside⟩
  refine ⟨⟨?_, fun i member => ?_, fun i member => (origin i member).2.1, fun i member => ?_⟩,
    fun i member => (origin i member).1⟩
  · rw [same]
    exact AttributeGroups.ofTypesNodup built (candidatesNodup _ _ _)
  · obtain ⟨id, designates⟩ := (origin i member).2.2
    exact ⟨id, trivial, designates⟩
  · exact Instance.madeReceived (origin i member).2.1

theorem attributesInMade (views : ix.Views w) (ok : ix.answer (Query.attributesIn type id) = .ok answer) :
    Justified ix.synced.registry (· = id) answer ∧ ∀ i ∈ answer, ix.types.Assignable i.type ⟨type, []⟩ := by
  rcases answerAttributesIn ok with ⟨nothing, _⟩ | ⟨c, stored, collected⟩
  · subst nothing
    refine ⟨⟨List.nodup_nil, ?_, ?_, ?_⟩, ?_⟩ <;> simp
  · have origin : ∀ i ∈ answer, i.Made ∧ ix.synced.registry.Designates id i.target ∧
        ix.materializer.assignable i.type type = .ok true := by
      intro i member
      obtain ⟨made, call, called, marked, accepted⟩ := Materializer.collectMade collected member
      rw [Contribution.callsEq] at called
      obtain ⟨key, _, same⟩ := List.mem_map.1 called
      subst same
      exact ⟨made, Registry.markDesignated (viewsSynced views).coherent stored (Contribution.memMarkedWith.1 marked),
        accepted⟩
    refine ⟨⟨Materializer.collectNodup collected, fun i member => ⟨id, rfl, (origin i member).2.1⟩,
      fun i member => (origin i member).1, fun i member => Instance.madeReceived (origin i member).1⟩, ?_⟩
    intro i member
    exact ⟨ix.walkLimit, Materializer.assignableAccepted (origin i member).2.2⟩

theorem belowAssignable (coherent : ix.synced.registry.Coherent)
    (apart : ix.registry.program.modules.Pairwise CodeModule.Apart)
    (plain : ∀ m ∈ ix.registry.program.modules, m.Plain) (known : ∃ d, ix.types.find? type = some d)
    {name : TypeName} (below : ix.synced.registry.Below type name) : ix.types.Assignable name ⟨type, []⟩ := by
  have unshadowed : ix.synced.registry.program.Unshadowed :=
    Registry.movesProgram Program.openedUnshadowed Registry.syncMoves (Program.unshadowed apart)
  have path := Registry.belowDerives coherent unshadowed below
  have same : ix.synced.registry.program.knownTypes = ix.types := syncedTypes
  rw [same] at path
  refine Universe.plainAssignable (Program.plainTypes plain) ?_ path
  -- a type with a supertype is known, and the asked type was checked to be
  rcases ReflTransGen.cases_head path with equal | ⟨_, ⟨d, found, _⟩, _⟩
  · exact equal ▸ known
  · exact ⟨d, found⟩

/-- What attribute queries return in any index that a run reaches is justified, over the whole index
and for one module. -/
theorem attributesJustified [Preserving φ] (reached : ix.Reachable) (type : TypeName) :
    (∀ answer, ix.answer (Query.attributes type) = .ok answer →
      Justified ix.synced.registry (fun _ => True) answer ∧
      (∀ i ∈ answer, ReflTransGen (fun b d => (b, d) ∈ ix.synced.registry.graph.links) type i.type) ∧
      (ix.registry.program.modules.Pairwise CodeModule.Apart →
        (∀ m ∈ ix.registry.program.modules, m.Plain) →
          ∀ i ∈ answer, ix.types.Assignable i.type ⟨type, []⟩)) ∧
    ∀ id answer, ix.answer (Query.attributesIn type id) = .ok answer →
      Justified ix.synced.registry (· = id) answer ∧
      ∀ i ∈ answer, ix.types.Assignable i.type ⟨type, []⟩ := by
  obtain ⟨w, views⟩ := reachableViews reached
  have coherent := (viewsSynced views).coherent
  refine ⟨fun answer ok => ?_, fun id answer ok => attributesInMade views ok⟩
  obtain ⟨justified, below⟩ := attributesMade views ok
  refine ⟨justified, fun i member => Registry.belowLinked coherent (below i member), ?_⟩
  intro apart plain i member
  exact belowAssignable coherent apart plain (checkedKnown (checkedAttributes ok)) (below i member)

def taggedTarget : TypeDef where
  name := "T"
  owner := "X"
  kind := .classType
  attachments := [⟨"Tag", .plain false, 0⟩, ⟨"Tag", .route "again", 1⟩]

def taggedModules : List CodeModule :=
  [({ id := "Runtime" } : CodeModule)
      |>.define { name := "Retrieve", owner := "Runtime", kind := .annotationType, retrievable := true }
      |>.define { name := "Tag", owner := "Runtime", kind := .annotationType, base := some { name := "Retrieve" } },
    (({ id := "X" } : CodeModule).define taggedTarget).withRecords (.delayed [{ type := "T" }, { type := "T" }])]

def taggedIndex : Index := (ofProgram {} 10 (.ofModules taggedModules)).run [.sync, .release]

def taggedInstance : Instance := ⟨"Tag", ⟨taggedTarget, none⟩, ⟨.plain false, 0, [⟨taggedTarget, none⟩]⟩⟩

theorem taggedJustified :
    taggedIndex.answer (Query.attributes "Retrieve") = .ok [taggedInstance] ∧
      Justified taggedIndex.synced.registry (fun _ => True) [taggedInstance] ∧
      taggedIndex.types.Assignable "Tag" ⟨"Retrieve", []⟩ ∧
      taggedIndex.answer (Query.attributesIn "Retrieve" "X") = .ok [taggedInstance] ∧
      Justified taggedIndex.synced.registry (· = "X") [taggedInstance] := by
  have reached : taggedIndex.Reachable := ⟨{}, 10, taggedModules, [.sync, .release], rfl⟩
  have whole : taggedIndex.answer (Query.attributes "Retrieve") = .ok [taggedInstance] := by decide +kernel
  have alone : taggedIndex.answer (Query.attributesIn "Retrieve" "X") = .ok [taggedInstance] := by decide +kernel
  obtain ⟨overall, each⟩ := attributesJustified reached "Retrieve"
  obtain ⟨justified, _, assignable⟩ := overall _ whole
  have fits := assignable (by decide +kernel) (by decide +kernel) taggedInstance (List.mem_singleton.2 rfl)
  exact ⟨whole, justified, fits, alone, (each "X" _ alone).1⟩

end Index
end MetadataIndex
