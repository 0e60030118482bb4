import MetadataIndex.Proofs.IngestionTypes
import MetadataIndex.Proofs.JustifiedInstances

/-! No indexed annotation is lost. What a record without a claimed marker finds on a declaration when
its module is ingested is found later by a query for any annotation type of the base lineage, once.
Over the whole index the way leads from the asked type down the lineage told at ingestion; in the
module's own contribution the type must also be assignable to the asked one, as it is along bases
without arguments. -/
namespace MetadataIndex
open Std Relation
variable {φ : Type}

namespace Universe
variable {u : Universe φ} {name above : TypeName} {d : TypeDef φ}

def PlainBase (u : Universe φ) (name above : TypeName) : Prop := ∃ d, u.find? name = some d ∧ d.base = some ⟨above, []⟩

theorem plainBaseStep (step : u.PlainBase name above) : u.Supertype ⟨name, []⟩ ⟨above, []⟩ := by
  obtain ⟨d, found, base⟩ := step
  have inside : (⟨above, []⟩ : TypeRef) ∈ d.supertypes := List.mem_append_left _ (by simp [base])
  exact ⟨d, found, List.mem_map.2 ⟨_, inside, TypeRef.substitutePlain _ rfl⟩⟩

theorem basesAssignable (found : u.find? name = some d) (plain : d.parameters = [])
    (path : ReflTransGen u.PlainBase name above) : u.AssignableTo name ⟨above, []⟩ := by
  have start : d.selfRef = ⟨name, []⟩ := by
    rw [TypeDef.selfRef, plain, nameOfFind found]
    rfl
  exact ⟨d, found, start ▸ path.lift (fun n => (⟨n, []⟩ : TypeRef)) fun _ _ => plainBaseStep⟩

theorem knownOfAnnotation (known : u.isAnnotationType name = true) : ∃ d, u.find? name = some d := by
  cases found : u.find? name with
  | none => simp [isAnnotationType, found] at known
  | some d => exact ⟨d, rfl⟩

end Universe

structure CodeModule.Announces (m : CodeModule φ) (u : Universe φ) (d : Declaration φ) (type : TypeName) : Prop where
  designated : ∃ ρ ∈ m.recordList, ρ.marker = none ∧ d ∈ m.designated ρ
  attached : ∃ a ∈ d.attachments, a.type = type
  retrievable : u.isRetrievableAnnotationType type = true
  plain : ∀ e, u.find? type = some e → e.parameters = []

open Classical in
def Once (answer : List (Instance φ)) (type : TypeName) (d : Declaration φ) : Prop :=
  answer.countP (fun i => i.type = type ∧ i.target = d) = 1

theorem onceOf {answer : List (Instance φ)} {type : TypeName} {d : Declaration φ}
    (distinct : (answer.map Instance.id).Nodup)
    (targets : ∀ i ∈ answer, i.target.id = d.id → i.target = d) (shown : ⟨type, d.id⟩ ∈ answer.map Instance.id) :
    Once answer type d := by
  have counted : (answer.map Instance.id).count ⟨type, d.id⟩ = 1 := List.count_eq_one_of_mem distinct shown
  rw [List.count, List.countP_map] at counted
  rw [Once, ← counted]
  refine List.countP_congr fun i member => ?_
  simp only [decide_eq_true_eq, Function.comp, beq_iff_eq, Instance.id, Tag.mk.injEq]
  constructor
  · intro ⟨sameType, sameTarget⟩
    exact ⟨sameType, congrArg Declaration.id sameTarget⟩
  · intro ⟨sameType, sameId⟩
    exact ⟨sameType, targets i member sameId⟩

namespace CodeModule
variable {m : CodeModule φ} {u : Universe φ} {d : Declaration φ} {type : TypeName}

theorem announcedMarker {ρ : Record} (free : ρ.marker = none) (attached : ∃ a ∈ d.attachments, a.type = type)
    (retrievable : u.isRetrievableAnnotationType type = true) : type ∈ u.markers ρ d := by
  obtain ⟨a, inside, same⟩ := attached
  subst same
  simp only [Universe.markers, free]
  exact List.mem_filter.2 ⟨List.mem_map.2 ⟨a, inside, rfl⟩, retrievable⟩

theorem announcedMark (announces : m.Announces u d type) : ⟨type, d⟩ ∈ (m.told u).marks.toList := by
  obtain ⟨ρ, record, free, designates⟩ := announces.designated
  have marker := announcedMarker free announces.attached announces.retrievable
  exact memToldMarks.2 ⟨ρ, record, List.mem_flatMap.2 ⟨d, designates, List.mem_map.2 ⟨type, marker, rfl⟩⟩⟩

theorem announcedEdge {e : Edge} (announces : m.Announces u d type) (member : e ∈ u.markerEdges type)
    (proper : e.proper = true) : e ∈ (m.told u).edges.toList := by
  obtain ⟨ρ, record, free, designates⟩ := announces.designated
  have marker := announcedMarker free announces.attached announces.retrievable
  refine memToldEdges.2 ⟨proper, ρ, record, List.mem_append_right _ ?_⟩
  exact List.mem_flatMap.2 ⟨d, designates, List.mem_flatMap.2 ⟨type, List.mem_append_left _ marker, member⟩⟩

theorem announcesOpened (announces : m.Announces u d type) : m.opened.Announces u d type := by
  obtain ⟨ρ, record, free, designates⟩ := announces.designated
  refine ⟨⟨ρ, ?_, free, ?_⟩, announces.attached, announces.retrievable, announces.plain⟩
  · rwa [m.openedRecordList]
  · rwa [m.openedDesignated]

end CodeModule

namespace Registry
variable {r after : Registry φ} {m : CodeModule φ} {u v : Universe φ} {d : Declaration φ} {type : TypeName}
  {b : TypeDef φ}

theorem announcedBelow (inv : r.Coherent) (stored : r.contribution? m.id = some (m.told u))
    (announces : m.Announces u d type) (member : b ∈ u.baseLineage type) : r.Below b.name type := by
  have known := (Bool.and_eq_true_iff.1 announces.retrievable).1
  obtain ⟨e, found⟩ := Universe.knownOfAnnotation known
  have head := Universe.lineageHead found
  cases lineage : u.baseLineage type with
  | nil =>
      rw [lineage] at member
      cases member
  | cons first rest =>
      rw [lineage] at member head
      cases head
      rw [← Universe.nameOfFind found]
      refine zipReaches (f := TypeDef.name) (fun pair inside => ?_) member
      have told : ⟨pair.2.name, pair.1.name, .inherits⟩ ∈ u.markerEdges type := by
        simp only [Universe.markerEdges, lineage]
        exact List.mem_map.2 ⟨pair, inside, rfl⟩
      by_cases same : pair.2.name = pair.1.name
      · rw [same]
      · refine .single ⟨.inherits, (memGlobalEdges inv _).2 ⟨m.id, _, stored, ?_⟩⟩
        exact CodeModule.announcedEdge announces told (by simpa [Edge.proper] using same)

-- an announced type is known, as it was, to all types that hold those of every ingestion
theorem announcedKnown (derived : r.Derived fun w => w.Extends v) (stored : r.contribution? m.id = some (m.told u))
    (announces : m.Announces u d type) (older : v.Extends r.program.knownTypes)
    (known : u.Extends r.program.knownTypes) : v.AssignableTo type ⟨type, []⟩ := by
  obtain ⟨n, _, w, extended, _, _, derivation⟩ := derived _ (contributionIff.1 stored)
  have marked := CodeModule.deriveMarked derivation (CodeModule.announcedMark announces)
  obtain ⟨e, found⟩ := Universe.knownOfAnnotation marked
  have shown : v.find? type = some e := extended _ _ found
  -- the types of the ingestion and those of the view agree on what both know
  obtain ⟨f, first⟩ := Universe.knownOfAnnotation (Bool.and_eq_true_iff.1 announces.retrievable).1
  have same : e = f := Option.some.inj ((older _ _ shown).symm.trans (known _ _ first))
  exact Universe.basesAssignable shown (same ▸ announces.plain f first) .refl

theorem announcedShown (inv : r.Coherent) (derived : r.Derived fun w => w.Extends v)
    (stored : r.contribution? m.id = some (m.told u)) (announces : m.Announces u d type)
    (older : v.Extends r.program.knownTypes) (known : u.Extends r.program.knownTypes) :
    r.global.Shows v ⟨type, d.id⟩ := by
  have marked := (memGlobalMarks inv _).2 ⟨m.id, _, stored, CodeModule.announcedMark announces⟩
  obtain ⟨a, attached, same⟩ := announces.attached
  refine ⟨⟨type, d⟩, marked, a, attached, ?_, by rw [same]⟩
  rw [same]
  exact announcedKnown derived stored announces older known

theorem designatedUnique (inv : r.Coherent) {e : Declaration φ} {id other : ModuleId} (first : r.Designates id d)
    (second : r.Designates other e) (same : d.id = e.id) : d = e := by
  obtain ⟨_, m, inside, _, _, _, designates⟩ := first
  obtain ⟨_, n, insideToo, _, _, _, designatesToo⟩ := second
  exact ownedUnique inv inside insideToo (CodeModule.designatedOwner designates).1
    (CodeModule.designatedOwner designatesToo).1 same

theorem moduleAfter (moves : Moves r after) (member : m ∈ r.program.modules) :
    ∃ n ∈ after.program.modules, n = m ∨ n = m.opened := by
  refine movesProgram (P := fun p => ∃ n ∈ p.modules, n = m ∨ n = m.opened) ?_ moves ⟨m, member, .inl rfl⟩
  intro p id ⟨n, inside, same⟩
  obtain ⟨k, later, eq⟩ : ∃ k ∈ (p.opened id).modules, k = n ∨ k = n.opened := Program.keptByOpening inside
  exact ⟨k, later, CodeModule.openedOnce same eq⟩

theorem announcedAfter (inv : r.Coherent) (moves : Moves r after) (member : m ∈ r.program.modules)
    (derived : r.DerivedOver m.id u) (announces : m.Announces u d type) :
    ∃ n ∈ after.program.modules, n.id = m.id ∧ after.contribution? n.id = some (n.told u) ∧
      n.Announces u d type := by
  obtain ⟨k, inside, same, c, found, derivation⟩ := derived
  rw [moduleUnique inv inside member same] at derivation
  obtain ⟨n, later, eq⟩ := moduleAfter moves member
  refine ⟨n, later, ?_⟩
  rcases eq with eq | eq
  · subst eq
    exact ⟨rfl, CodeModule.deriveOk derivation ▸ movesStay moves found, announces⟩
  · subst eq
    rw [m.openedId, ← CodeModule.deriveOk ((m.openedDerive u).trans derivation)]
    exact ⟨rfl, movesStay moves found, CodeModule.announcesOpened announces⟩

theorem announcedDesignates (member : m ∈ r.program.modules) (stored : r.contribution? m.id = some (m.told u))
    (announces : m.Announces u d type) : r.Designates m.id d := by
  obtain ⟨ρ, record, _, designates⟩ := announces.designated
  exact ⟨ingestedOf stored, m, member, rfl, ρ, record, designates⟩

end Registry

namespace Index
variable {ix : Index φ} {w u : Universe φ} {m : CodeModule φ} {d : Declaration φ} {type : TypeName} {b : TypeDef φ}
  {answer : List (Instance φ)}

theorem announcedAttributes (views : ix.Views w) (grounded : ix.Grounded w)
    (member : m ∈ ix.registry.program.modules) (derived : ix.registry.DerivedOver m.id u)
    (known : u.Extends ix.types) (announces : m.Announces u d type) (above : b ∈ u.baseLineage type)
    (ok : ix.answer (Query.attributes b.name) = .ok answer) : Once answer type d := by
  have coherent := (viewsSynced views).coherent
  obtain ⟨n, inside, _, stored, announcesToo⟩ :=
    Registry.announcedAfter views.coherent Registry.syncMoves member derived announces
  obtain ⟨justified, _⟩ := attributesMade views ok
  have keeps : ix.Keeps (ix.after (Query.attributes b.name)) := viewSteps.attributes b.name
  have types : ix.synced.registry.program.knownTypes = ix.types := syncedTypes
  have older : (ix.shownOver (ix.after (Query.attributes b.name)) w).Extends
      ix.synced.registry.program.knownTypes := by
    rw [types, ← keeps.types]
    exact (keeps.views w views).older
  refine onceOf justified.once (fun i member same => ?_) ((attributesShow views ok).2 ⟨?_, ?_⟩)
  · obtain ⟨_, _, designates⟩ := justified.designated i member
    exact Registry.designatedUnique coherent designates (Registry.announcedDesignates inside stored announcesToo) same
  · exact Registry.announcedShown coherent (shownGrounded views grounded ok) stored announcesToo older (types ▸ known)
  · exact Registry.announcedBelow coherent stored announcesToo above

theorem announcedAttributesIn (views : ix.Views w) (member : m ∈ ix.registry.program.modules)
    (derived : ix.registry.DerivedOver m.id u) (known : u.Extends ix.types) (announces : m.Announces u d type)
    (above : b ∈ u.baseLineage type) (bases : ReflTransGen u.PlainBase type b.name)
    (ok : ix.answer (Query.attributesIn b.name m.id) = .ok answer) : Once answer type d := by
  have coherent := (viewsSynced views).coherent
  obtain ⟨n, inside, sameId, stored, announcesToo⟩ :=
    Registry.announcedAfter views.coherent Registry.syncMoves member derived announces
  obtain ⟨justified, _⟩ := attributesInMade views ok
  obtain ⟨ρ, record, _, _⟩ := announces.designated
  obtain ⟨c, found, shows⟩ := attributesInShow views member (Registry.recordInstrumented record) ok
  rw [← sameId] at found
  have same : c = n.told u := Option.some.inj (found.symm.trans stored)
  subst same
  obtain ⟨e, first⟩ := Universe.knownOfAnnotation (Bool.and_eq_true_iff.1 announces.retrievable).1
  have assignable := Universe.assignableExtends known (Universe.basesAssignable first (announces.plain e first) bases)
  refine onceOf justified.once (fun i member same => ?_)
    ((shows _).2 ⟨_, CodeModule.announcedMark announcesToo, ?_, ?_⟩)
  · obtain ⟨_, _, designates⟩ := justified.designated i member
    exact Registry.designatedUnique coherent designates (Registry.announcedDesignates inside stored announcesToo) same
  · exact Registry.announcedBelow coherent stored announcesToo above
  · obtain ⟨a, attached, same⟩ := announces.attached
    exact ⟨a, attached, same.symm ▸ assignable, by rw [same]⟩

/-- What a module announces when it is ingested, queries for the lineage of its type find once. -/
theorem annotationsKept [Preserving φ] (config : Config) (limit : Nat) (modules : List (CodeModule φ))
    (actions : List (Action φ))
    (m : CodeModule φ)
    (loaded : m ∈ ((ofProgram config limit (.ofModules modules)).run actions).registry.program.modules)
    (ingested : ((ofProgram config limit (.ofModules modules)).run actions).registry.isIngested m.id = true) :
    ∃ u, (ofProgram config limit (.ofModules modules)).ingestionTypes m.id actions = some u ∧
      ∀ d type, m.Announces u d type → ∀ above ∈ u.baseLineage type,
        (∀ answer, ((ofProgram config limit (.ofModules modules)).run actions).answer
          (Query.attributes above.name) = .ok answer → Once answer type d) ∧
        (ReflTransGen u.PlainBase type above.name →
          ∀ answer, ((ofProgram config limit (.ofModules modules)).run actions).answer
            (Query.attributesIn above.name m.id) = .ok answer → Once answer type d) := by
  have first := viewsAtFirst config limit modules
  have views := viewsRun actions first
  have grounded := groundedRun actions first fun _ none => by cases none
  obtain ⟨u, noted, derived, known⟩ := ingestedOver actions rfl ingested
  refine ⟨u, noted, fun d type announces above member => ⟨fun answer ok => ?_, fun bases answer ok => ?_⟩⟩
  · exact announcedAttributes views grounded loaded derived known announces member ok
  · exact announcedAttributesIn views loaded derived known announces member bases ok

def retrieveType : TypeDef where
  name := "Retrieve"
  owner := "Runtime"
  kind := .annotationType
  retrievable := true

def handlerType : TypeDef where
  name := "Handler"
  owner := "X"
  kind := .classType
  members := [⟨"run", .method, [⟨"Route", .route "first", 0⟩]⟩, ⟨"run", .method, [⟨"Route", .route "second", 1⟩]⟩]

def handlerModule : CodeModule :=
  (({ id := "X" } : CodeModule).define handlerType).withRecords (.eager [{ type := "Handler", member := some "run" }])

def handlerModules : List CodeModule :=
  [({ id := "Runtime" } : CodeModule)
      |>.define retrieveType
      |>.define { name := "Route", owner := "Runtime", kind := .annotationType, base := some { name := "Retrieve" } },
    handlerModule]

def handlerIndex : Index :=
  (ofProgram {} 10 (.ofModules handlerModules)).run [.instances, .load { id := "Late" }, .release]

def handlerInstance (ordinal : Nat) (path : String) : Instance :=
  ⟨"Route", ⟨handlerType, some ordinal⟩, ⟨.route path, 1, [⟨handlerType, some ordinal⟩]⟩⟩

def handlerInstances : List Instance := [handlerInstance 0 "first", handlerInstance 1 "second"]

theorem overloadKept :
    (handlerIndex.answer (Query.attributes "Retrieve") = .ok handlerInstances ∧
      Once handlerInstances "Route" ⟨handlerType, some 1⟩) ∧
    handlerIndex.answer (Query.attributesIn "Retrieve" "X") = .ok handlerInstances ∧
      Once handlerInstances "Route" ⟨handlerType, some 1⟩ := by
  obtain ⟨u, noted, kept⟩ := annotationsKept {} 10 handlerModules [.instances, .load { id := "Late" }, .release]
    handlerModule (by decide +kernel) (by decide +kernel)
  have same : u = (Program.ofModules handlerModules).knownTypes :=
    Option.some.inj (noted.symm.trans (by decide +kernel))
  subst same
  have announces : handlerModule.Announces (Program.ofModules handlerModules).knownTypes
      ⟨handlerType, some 1⟩ "Route" := by
    refine ⟨⟨{ type := "Handler", member := some "run" }, by decide +kernel, rfl, by decide +kernel⟩,
      ⟨⟨"Route", .route "second", 1⟩, by decide +kernel, rfl⟩, by decide +kernel, fun e found => ?_⟩
    cases found
    rfl
  have bases : ReflTransGen (Program.ofModules handlerModules).knownTypes.PlainBase "Route" "Retrieve" :=
    .single ⟨_, rfl, rfl⟩
  obtain ⟨whole, alone⟩ := kept _ _ announces retrieveType (by decide +kernel)
  have both : handlerIndex.answer (Query.attributes "Retrieve") = .ok handlerInstances := by decide +kernel
  have bothToo : handlerIndex.answer (Query.attributesIn "Retrieve" "X") = .ok handlerInstances := by decide +kernel
  exact ⟨⟨both, whole _ both⟩, bothToo, alone bases _ bothToo⟩

end Index
end MetadataIndex
