import MetadataIndex.Proofs.RenamedParameters
import MetadataIndex.Proofs.StrictQueries
import Mathlib.Data.List.Forall2

/-! Modules whose definitions have other names for their generic parameters. No name of a parameter is
read outside a supertype walk: the walks over names visit definitions that are renamed one by one, and the
modules tell the same edges and types and fail for the same cause. So an index over the renamed modules
answers a subtype query with the same set. -/
namespace MetadataIndex
open Std Relation
variable {φ : Type}

section Related
variable {α β γ : Type} {R : α → β → Prop} {as : List α} {bs : List β}

theorem relatedMap {f : α → γ} {g : β → γ} (related : List.Forall₂ R as bs) (same : ∀ a b, R a b → f a = g b) :
    as.map f = bs.map g := by
  induction related with
  | nil => rfl
  | cons first _ ih => rw [List.map_cons, List.map_cons, same _ _ first, ih]

theorem relatedFlatMap {f : α → List γ} {g : β → List γ} (related : List.Forall₂ R as bs)
    (same : ∀ a b, R a b → f a = g b) : as.flatMap f = bs.flatMap g := by
  rw [List.flatMap_def, List.flatMap_def, relatedMap related same]

theorem relatedAny {f : α → Bool} {g : β → Bool} (related : List.Forall₂ R as bs)
    (same : ∀ a b, R a b → f a = g b) : as.any f = bs.any g := by
  induction related with
  | nil => rfl
  | cons first _ ih => rw [List.any_cons, List.any_cons, same _ _ first, ih]

theorem relatedFind {f : α → Bool} {g : β → Bool} (related : List.Forall₂ R as bs)
    (same : ∀ a b, R a b → f a = g b) : Option.Rel R (as.find? f) (bs.find? g) := by
  induction related with
  | nil => exact .none
  | @cons a b _ _ first _ ih =>
      rw [List.find?_cons, List.find?_cons, same a b first]
      cases g b with
      | true => exact .some first
      | false => exact ih

theorem relatedOption {f : α → Bool} {g : β → Bool} {first : Option α} {second : Option β}
    (related : Option.Rel R first second) (same : ∀ a b, R a b → f a = g b) : first.any f = second.any g := by
  cases related with
  | none => rfl
  | some held => exact same _ _ held

theorem relatedExists {P : α → Prop} {Q : β → Prop} (related : List.Forall₂ R as bs)
    (same : ∀ a b, R a b → (P a ↔ Q b)) : (∃ a ∈ as, P a) ↔ ∃ b ∈ bs, Q b := by
  induction related with
  | nil => simp
  | cons first _ ih => simp only [List.mem_cons, exists_eq_or_imp, same _ _ first, ih]

end Related

namespace OrderedSet
variable {α κ : Type} [Ord κ] [TransOrd κ] [LawfulEqOrd κ] [DecidableEq κ] {key : α → κ} {R : α → α → Prop}
  {s t table other seen seenToo : OrderedSet key} {targets : α → List κ} {order : Order} {pending : List κ} {k : κ}

theorem findRelated (related : List.Forall₂ R s.toList t.toList) (keys : ∀ a b, R a b → key a = key b) (k : κ) :
    Option.Rel R (s.find? k) (t.find? k) := by
  rw [findList, findList]
  exact relatedFind related fun a b held => by rw [keys a b held]

omit [DecidableEq κ] in
theorem containsRelated (related : List.Forall₂ R s.toList t.toList) (keys : ∀ a b, R a b → key a = key b) :
    s.contains k = t.contains k := by
  have same : s.keys = t.keys := relatedMap related keys
  rw [Bool.eq_iff_iff, containsIff, containsIff, same]

omit [DecidableEq κ] in
theorem exploreRelated (found : ∀ k, Option.Rel R (table.find? k) (other.find? k))
    (keys : ∀ a b, R a b → key a = key b) (same : ∀ a b, R a b → targets a = targets b)
    (related : List.Forall₂ R seen.toList seenToo.toList) :
    List.Forall₂ R (table.explore targets order seen pending).toList
      (other.explore targets order seenToo pending).toList := by
  fun_induction table.explore targets order seen pending generalizing seenToo with
  | case1 seen =>
      rw [explore]
      exact related
  | case2 seen k pending visited ih =>
      rw [exploreVisited (containsRelated related keys ▸ visited)]
      exact ih related
  | case3 seen k pending fresh missing ih =>
      have missingToo : other.find? k = none := relatedNone (missing ▸ found k)
      rw [exploreMissing (containsRelated related keys ▸ fresh) missingToo]
      exact ih related
  | case4 seen k pending fresh a here ih =>
      obtain ⟨b, there, held⟩ := relatedSome (here ▸ found k)
      have freshToo : ¬ seenToo.contains k = true := containsRelated related keys ▸ fresh
      rw [exploreFound freshToo there, ← same a b held]
      refine ih ?_
      rw [insertFresh, insertFresh]
      · exact List.rel_append related (.cons held .nil)
      · rw [(findIff.1 there).2]
        exact fun old => freshToo (containsIff.2 old)
      · rw [(findIff.1 here).2]
        exact fun old => fresh (containsIff.2 old)

end OrderedSet

namespace TypeDef
variable {d e : TypeDef φ}

theorem renamedReads {α : Type} (reading : TypeDef φ → α) (kept : ∀ d f, reading (rename f d) = reading d)
    (renamed : d.Renamed e) : reading d = reading e := by
  obtain ⟨f, _, whole⟩ := renamed
  rw [whole, kept]

theorem renamedName (renamed : d.Renamed e) : d.name = e.name := renamedReads name (fun _ _ => rfl) renamed

theorem renamedBases (renamed : d.Renamed e) : d.baseNames = e.baseNames := by
  refine renamedReads baseNames (fun d f => ?_) renamed
  simp only [baseNames, rename]
  cases d.base <;> rfl

theorem renamedSupertypes (renamed : d.Renamed e) : d.supertypeNames = e.supertypeNames := by
  refine renamedReads supertypeNames (fun d f => ?_) renamed
  rw [supertypeNames, supertypeNames, supertypesRename, List.map_map]
  rfl

theorem renamedEdges (renamed : d.Renamed e) : d.edges = e.edges := by
  refine renamedReads edges (fun d f => ?_) renamed
  simp only [edges, rename, List.map_map]
  cases d.base <;> rfl

end TypeDef

namespace Universe
variable {u v : Universe φ} {name marker : TypeName} {d e : TypeDef φ} {r : Record} {first second : Declaration φ}

theorem closureRenamed (renamed : u.Renamed v) :
    List.Forall₂ TypeDef.Renamed (u.supertypeClosure name) (v.supertypeClosure name) :=
  OrderedSet.exploreRelated renamed (fun _ _ => TypeDef.renamedName) (fun _ _ => TypeDef.renamedSupertypes) .nil

theorem lineageRenamed (renamed : u.Renamed v) :
    List.Forall₂ TypeDef.Renamed (u.baseLineage name) (v.baseLineage name) :=
  OrderedSet.exploreRelated renamed (fun _ _ => TypeDef.renamedName) (fun _ _ => TypeDef.renamedBases) .nil

theorem withFirstRenamed (renamed : u.Renamed v) (same : d.Renamed e) : (u.withFirst d).Renamed (v.withFirst e) := by
  intro name
  rw [findWithFirst, findWithFirst, TypeDef.renamedName same]
  split
  · exact .some same
  · exact renamed name

theorem lineageEdgesRenamed (renamed : u.Renamed v) (same : d.Renamed e) : u.lineageEdges d = v.lineageEdges e := by
  rw [lineageEdges, lineageEdges, TypeDef.renamedName same]
  exact relatedFlatMap (closureRenamed (withFirstRenamed renamed same)) fun _ _ => TypeDef.renamedEdges

theorem markerEdgesNamed (u : Universe φ) (marker : TypeName) :
    u.markerEdges marker = (((u.baseLineage marker).map TypeDef.name).zip
      ((u.baseLineage marker).map TypeDef.name).tail).map fun pair => ⟨pair.2, pair.1, .inherits⟩ := by
  rw [← List.map_tail, List.zip_map, List.map_map]
  rfl

theorem markerEdgesRenamed (renamed : u.Renamed v) : u.markerEdges marker = v.markerEdges marker := by
  rw [markerEdgesNamed, markerEdgesNamed, relatedMap (lineageRenamed renamed) fun _ _ => TypeDef.renamedName]

theorem annotationRenamed (renamed : u.Renamed v) : u.isAnnotationType = v.isAnnotationType := by
  funext name
  exact relatedOption (renamed name) fun _ _ => TypeDef.renamedReads (decide <| ·.kind = .annotationType) fun _ _ => rfl

theorem retrievableRenamed (renamed : u.Renamed v) :
    u.isRetrievableAnnotationType = v.isRetrievableAnnotationType := by
  funext name
  rw [isRetrievableAnnotationType, isRetrievableAnnotationType, annotationRenamed renamed,
    relatedAny (lineageRenamed renamed) fun _ _ => TypeDef.renamedReads TypeDef.retrievable fun _ _ => rfl]

theorem collectsRenamed (renamed : u.Renamed v) : u.collectsSubtypes = v.collectsSubtypes := by
  funext name
  exact relatedAny (closureRenamed renamed) fun _ _ => TypeDef.renamedReads (·.collects.isSome) fun _ _ => rfl

end Universe

def Declaration.Renamed (first second : Declaration φ) : Prop :=
  first.owner.Renamed second.owner ∧ first.ordinal = second.ordinal

namespace Universe
variable {u v : Universe φ} {r : Record} {first second : Declaration φ}

theorem declarationRenamed (same : first.Renamed second) : ∃ f, second = ⟨first.owner.rename f, first.ordinal⟩ := by
  obtain ⟨⟨f, _, whole⟩, place⟩ := same
  exact ⟨f, congrArg₂ Declaration.mk whole place.symm⟩

theorem attachmentsRenamed (same : first.Renamed second) : first.attachments = second.attachments := by
  obtain ⟨f, whole⟩ := declarationRenamed same
  exact whole ▸ rfl

theorem textRenamed (same : first.Renamed second) : first.text = second.text := by
  obtain ⟨f, whole⟩ := declarationRenamed same
  exact whole ▸ rfl

theorem retrievableTypesRenamed (renamed : u.Renamed v) (same : first.Renamed second) :
    u.retrievableTypes first = v.retrievableTypes second := by
  rw [retrievableTypes, retrievableTypes, attachmentsRenamed same, retrievableRenamed renamed]

theorem annotationEdgesRenamed (renamed : u.Renamed v) (same : first.Renamed second) :
    u.annotationEdges r first = v.annotationEdges r second := by
  have edges : u.markerEdges = v.markerEdges := funext fun _ => markerEdgesRenamed renamed
  simp only [annotationEdges, markers, retrievableTypesRenamed renamed same, edges]

end Universe

structure CodeModule.Renamed (m n : CodeModule φ) : Prop where
  id : m.id = n.id
  instrumented : m.instrumented = n.instrumented
  records : m.recordList = n.recordList
  types : List.Forall₂ TypeDef.Renamed m.types.toList n.types.toList

theorem failureFold {ε α β γ δ : Type} {R : γ → δ → Prop} {step : α → γ → Except ε α} {other : β → δ → Except ε β}
    {first : List γ} {second : List δ} (related : List.Forall₂ R first second)
    (same : ∀ c d, R c d → ∀ a b, failure? (step a c) = failure? (other b d)) (a : α) (b : β) :
    failure? (first.foldlM step a) = failure? (second.foldlM other b) := by
  induction related generalizing a b with
  | nil => rfl
  | @cons c d _ _ held _ ih =>
      have here := same c d held a b
      rw [List.foldlM_cons, List.foldlM_cons]
      cases done : step a c with
      | error e =>
          cases doneToo : other b d with
          | error d =>
              rw [done, doneToo] at here
              exact here
          | ok _ => simp [done, doneToo, failure?] at here
      | ok next =>
          cases doneToo : other b d with
          | error d => simp [done, doneToo, failure?] at here
          | ok nextToo => exact ih next nextToo

namespace CodeModule
variable {m n : CodeModule φ} {u v : Universe φ} {r : Record} {first second : Declaration φ} {c after : Contribution φ}

theorem findRenamed (same : m.Renamed n) (name : TypeName) :
    Option.Rel TypeDef.Renamed (m.find? name) (n.find? name) :=
  OrderedSet.findRelated same.types (fun _ _ => TypeDef.renamedName) name

theorem declarationsRenamed {d e : TypeDef φ} (same : d.Renamed e) (name : String) :
    List.Forall₂ Declaration.Renamed (d.declarationsNamed name) (e.declarationsNamed name) := by
  have ordinals : d.ordinalsNamed name = e.ordinalsNamed name :=
    TypeDef.renamedReads (·.ordinalsNamed name) (fun _ _ => rfl) same
  rw [TypeDef.declarationsNamed, TypeDef.declarationsNamed, ordinals, List.forall₂_map_left_iff,
    List.forall₂_map_right_iff]
  exact List.forall₂_same.2 fun _ _ => ⟨same, rfl⟩

theorem designatedRenamed (same : m.Renamed n) (r : Record) :
    List.Forall₂ Declaration.Renamed (m.designated r) (n.designated r) := by
  have found := findRenamed same r.type
  unfold designated
  generalize m.find? r.type = here at found
  generalize n.find? r.type = there at found
  cases found with
  | none => exact .nil
  | some held =>
      cases r.member with
      | none => exact .cons ⟨held, rfl⟩ .nil
      | some name => exact declarationsRenamed held name

theorem recordEdgesRenamed (renamed : u.Renamed v) (same : m.Renamed n) (r : Record) :
    m.recordEdges u r = n.recordEdges v r := by
  have lineages : m.supertypeEdges u r = n.supertypeEdges v r := by
    have found := findRenamed same r.type
    unfold supertypeEdges
    generalize m.find? r.type = here at found
    generalize n.find? r.type = there at found
    cases found with
    | none => rfl
    | some held =>
        cases r.member with
        | none => exact Universe.lineageEdgesRenamed renamed held
        | some name => rfl
  rw [recordEdges, recordEdges, lineages, relatedFlatMap (designatedRenamed same r) fun _ _ =>
    Universe.annotationEdgesRenamed renamed]

theorem toldEdgesRenamed (renamed : u.Renamed v) (same : m.Renamed n) :
    (m.told u).edges.toList = (n.told v).edges.toList := by
  have each : m.recordEdges u = n.recordEdges v := funext (recordEdgesRenamed renamed same)
  rw [toldEdges, toldEdges, same.records, each]

theorem toldTypesRenamed (same : m.Renamed n) : (m.told u).types.toList = (n.told v).types.toList := by
  rw [toldTypes, toldTypes, same.records]

theorem markDeclarationRenamed (renamed : u.Renamed v) (same : m.Renamed n) (held : first.Renamed second)
    (must : Bool) (c after : Contribution φ) :
    failure? (m.markDeclaration u r must c first) = failure? (n.markDeclaration v r must after second) := by
  have markers : m.markersFor u r first = n.markersFor v r second := by
    rw [markersFor, markersFor, Universe.annotationRenamed renamed, same.id,
      Universe.retrievableTypesRenamed renamed held]
  rw [markDeclaration, markDeclaration, markers]
  cases n.markersFor v r second with
  | error e => rfl
  | ok markers =>
      cases nothing : markers.isEmpty with
      | false => simp [bind, Except.bind, nothing, failure?]
      | true => cases must <;> simp [bind, Except.bind, nothing, failure?, same.id, Universe.textRenamed held]

theorem deriveRecordRenamed (renamed : u.Renamed v) (same : m.Renamed n) (c after : Contribution φ) (r : Record) :
    failure? (m.deriveRecord u c r) = failure? (n.deriveRecord v after r) := by
  have found := findRenamed same r.type
  unfold deriveRecord
  generalize m.find? r.type = here at found
  generalize n.find? r.type = there at found
  cases found with
  | none => rw [same.id]
  | @some owner ownerToo held =>
      cases r.member with
      | none =>
          have whole : Declaration.Renamed ⟨owner, none⟩ ⟨ownerToo, none⟩ := ⟨held, rfl⟩
          exact markDeclarationRenamed renamed same whole false _ _
      | some name =>
          have declarations := declarationsRenamed held name
          simp only
          generalize owner.declarationsNamed name = ds at declarations
          generalize ownerToo.declarationsNamed name = es at declarations
          cases declarations with
          | nil => rw [same.id, TypeDef.renamedName held]
          | cons first rest =>
              exact failureFold (.cons first rest) (fun _ _ held => markDeclarationRenamed renamed same held true) _ _

theorem deriveRenamed (renamed : u.Renamed v) (same : m.Renamed n) :
    failure? (m.derive u) = failure? (n.derive v) := by
  rw [derive, derive, same.records]
  refine failureFold (R := Eq) (List.forall₂_same.2 fun _ _ => rfl) (fun r s equal c after => ?_) _ _
  exact equal ▸ deriveRecordRenamed renamed same c after r

end CodeModule

namespace Program
variable {p q : Program φ} {m n : CodeModule φ} {id : ModuleId}

def Renamed (p q : Program φ) : Prop := List.Forall₂ CodeModule.Renamed p.modules q.modules

theorem moduleRenamed (renamed : p.Renamed q) (id : ModuleId) :
    Option.Rel CodeModule.Renamed (p.module? id) (q.module? id) :=
  relatedFind renamed fun _ _ same => by rw [same.id]

theorem loadRenamed (renamed : p.Renamed q) (same : m.Renamed n) : (p.load m).2.Renamed (q.load n).2 := by
  have found := moduleRenamed renamed m.id
  cases known : p.module? m.id with
  | none =>
      have fresh : q.module? n.id = none := same.id ▸ relatedNone (known ▸ found)
      rw [Renamed, loadFresh known, loadFresh fresh]
      exact List.rel_append renamed (.cons same .nil)
  | some old =>
      obtain ⟨_, knownToo, _⟩ := relatedSome (known ▸ found)
      rw [loadRefused known, loadRefused (same.id ▸ knownToo)]
      exact renamed

theorem ofModulesRenamed {modules others : List (CodeModule φ)}
    (same : List.Forall₂ CodeModule.Renamed modules others) :
    (ofModules modules).Renamed (ofModules others) := by
  have folded : ∀ {p q : Program φ}, p.Renamed q →
      Program.Renamed (modules.foldl (fun p m => (p.load m).2) p) (others.foldl (fun p m => (p.load m).2) q) := by
    induction same with
    | nil => exact fun renamed => renamed
    | cons first _ ih => exact fun renamed => ih (loadRenamed renamed first)
  exact folded .nil

theorem definitionsRenamed {modules others : List (CodeModule φ)}
    (same : List.Forall₂ CodeModule.Renamed modules others) :
    List.Forall₂ TypeDef.Renamed (definitionsOf modules) (definitionsOf others) := by
  induction same with
  | nil => exact .nil
  | cons first _ ih => exact List.rel_append first.types ih

theorem typesRenamed (renamed : p.Renamed q) : p.knownTypes.Renamed q.knownTypes := by
  intro name
  rw [findKnown, findKnown]
  exact relatedFind (definitionsRenamed renamed) fun _ _ same => by rw [TypeDef.renamedName same]

theorem failureRenamed (renamed : p.Renamed q) : p.failure? = q.failure? := by
  funext id
  have found := moduleRenamed renamed id
  unfold failure? ingestion
  generalize p.module? id = here at found
  generalize q.module? id = there at found
  cases found with
  | none => rfl
  | @some m n same =>
      have derivations := CodeModule.deriveRenamed (typesRenamed renamed) same
      simp only [same.instrumented]
      cases n.instrumented with
      | false => rfl
      | true =>
          cases done : m.derive p.knownTypes <;> cases doneToo : n.derive q.knownTypes <;>
            simp_all [MetadataIndex.failure?, Except.map]

theorem firstFailureRenamed (renamed : p.Renamed q) : p.firstFailure? = q.firstFailure? := by
  rw [firstFailure?, firstFailure?, failureRenamed renamed, relatedMap renamed fun _ _ same => same.id]

end Program

namespace Registry
variable {r s : Registry φ} {p q : Program φ}

theorem fullContributions (full : r.Full) (alike : r.program.Alike p) (P : Contribution φ → Prop) :
    (∃ id c, r.contribution? id = some c ∧ P c) ↔
      ∃ m ∈ p.modules, m.instrumented = true ∧ P (m.told p.knownTypes) := by
  have types : r.program.knownTypes = p.knownTypes := Program.alikeTypes alike
  constructor
  · intro ⟨_, c, found, holds⟩
    obtain ⟨m, member, u, now, _, instrumented, told⟩ := derivedTold full.derived found
    subst now told
    obtain ⟨n, memberToo, opened⟩ := Program.alikeMember alike member
    refine ⟨n, memberToo, (CodeModule.alikeInstrumented opened).trans instrumented, ?_⟩
    rwa [CodeModule.alikeTold opened, ← types]
  · intro ⟨m, member, instrumented, holds⟩
    obtain ⟨n, memberToo, opened⟩ := Program.alikeMember (Eq.symm alike : p.Alike r.program) member
    have stored := fullStored full memberToo ((CodeModule.alikeInstrumented opened).trans instrumented)
    rw [CodeModule.alikeTold opened, types] at stored
    exact ⟨n.id, _, stored, holds⟩

variable (full : r.Full) (fullToo : s.Full) (alike : r.program.Alike p) (alikeToo : s.program.Alike q)
  (renamed : p.Renamed q)
include full fullToo alike alikeToo renamed

theorem heldRenamed (P : Contribution φ → Prop)
    (same : ∀ m n : CodeModule φ, m.Renamed n → (P (m.told p.knownTypes) ↔ P (n.told q.knownTypes))) :
    (∃ id c, r.contribution? id = some c ∧ P c) ↔ ∃ id c, s.contribution? id = some c ∧ P c := by
  rw [fullContributions full alike, fullContributions fullToo alikeToo]
  refine relatedExists renamed fun m n held => ?_
  rw [held.instrumented, same m n held]

theorem edgesRenamed (e : Edge) : e ∈ r.global.edges.toList ↔ e ∈ s.global.edges.toList := by
  rw [memGlobalEdges full.coherent, memGlobalEdges fullToo.coherent]
  refine heldRenamed full fullToo alike alikeToo renamed _ fun m n held => ?_
  rw [CodeModule.toldEdgesRenamed (Program.typesRenamed renamed) held]

theorem recordedRenamed (name : TypeName) : name ∈ r.global.types.toList ↔ name ∈ s.global.types.toList := by
  rw [memGlobalTypes full.coherent, memGlobalTypes fullToo.coherent]
  refine heldRenamed full fullToo alike alikeToo renamed _ fun m n held => ?_
  rw [CodeModule.toldTypesRenamed held]

theorem searchRenamed {limit limitToo : Nat} {base : TypeRef} {names namesToo : List TypeName}
    (ok : (r.search limit).subtypes r.global base = .ok names)
    (okToo : (s.search limitToo).subtypes s.global base = .ok namesToo) : SameMembers names namesToo := by
  intro name
  have below : r.Below base.name name ↔ s.Below base.name name := by
    simp only [Below, edgesRenamed full fullToo alike alikeToo renamed]
  have assignable : (base.shape = .constructed → r.program.knownTypes.AssignableTo name base) ↔
      (base.shape = .constructed → s.program.knownTypes.AssignableTo name base) := by
    rw [Program.alikeTypes alike, Program.alikeTypes alikeToo]
    exact forall_congr' fun constructed =>
      Universe.assignableRenamed (Program.typesRenamed renamed) (TypeRef.closedConstructed constructed)
  rw [subtypesFound full.coherent ok, subtypesFound fullToo.coherent okToo, below, assignable,
    recordedRenamed full fullToo alike alikeToo renamed]

end Registry

def Decided {α : Type} (outcome : Except QueryError α) : Prop :=
  ∀ e, outcome = .error e → ¬ Materializer.Undecided e

namespace Index
variable {ix iy : Index φ} {config : Config} {limit limitToo : Nat} {modules others : List (CodeModule φ)}
  {base : TypeRef}

theorem queriedTypes (queried : ix.Queried config limit modules) :
    ix.types = (Program.ofModules modules).knownTypes := Program.alikeTypes queried.alike

theorem baseCheckRenamed (renamed : ix.types.Renamed iy.types) (strict : ix.config = iy.config) (base : TypeRef) :
    ix.checkBase base = iy.checkBase base := by
  have known : (ix.types.find? base.name).isNone = (iy.types.find? base.name).isNone := by
    have found := renamed base.name
    generalize ix.types.find? base.name = here at found
    generalize iy.types.find? base.name = there at found
    cases found <;> rfl
  rw [checkBase, checkBase, isRetrievable, isRetrievable, known, strict, Universe.retrievableRenamed renamed,
    Universe.collectsRenamed renamed]

theorem subtypesSynced {n : Nat} (passed : ix.checkBase base = .ok ()) (ok : ix.answer Query.sync = .ok n) :
    ix.answer (Query.subtypes base) =
      (ix.synced.registry.search ix.walkLimit).subtypes ix.synced.registry.global base := by
  rw [Query.subtypesGuarded, guardedPassed passed, answerNext ok, afterSync]
  rfl

theorem searchesRenamed {n k : Nat} (queried : ix.Queried config limit modules)
    (queriedToo : iy.Queried config limitToo others) (same : List.Forall₂ CodeModule.Renamed modules others)
    (decided : base.shape = .constructed →
      Decided (ix.answer (Query.subtypes base)) ∧ Decided (iy.answer (Query.subtypes base)))
    (passed : ix.checkBase base = .ok ()) (passedToo : iy.checkBase base = .ok ())
    (ok : ix.answer Query.sync = .ok n) (okToo : iy.answer Query.sync = .ok k) :
    SameOutcome Eq SameMembers (ix.answer (Query.subtypes base)) (iy.answer (Query.subtypes base)) := by
  have bound : base.shape ≠ .partiallyBound := by
    intro shape
    rw [checkBase, if_pos shape] at passed
    cases passed
  -- a search that fails over such a base met the limit of a walk
  have answered : ∀ {iz : Index φ} {outcome}, iz.answer (Query.subtypes base) = outcome →
      outcome = (iz.synced.registry.search iz.walkLimit).subtypes iz.synced.registry.global base →
      (base.shape = .constructed → Decided (iz.answer (Query.subtypes base))) →
        ∃ names, outcome = .ok names := by
    intro iz outcome came search settled
    cases outcome with
    | ok names => exact ⟨names, rfl⟩
    | error e =>
        rcases SubtypeSearch.findFails search.symm with ⟨shape, _⟩ | ⟨constructed, t, _, stuck⟩
        · exact absurd shape bound
        · exact absurd ⟨t, base, stuck⟩ (settled constructed e came)
  have search := subtypesSynced passed ok
  have searchToo := subtypesSynced passedToo okToo
  obtain ⟨names, found⟩ := answered rfl search fun constructed => (decided constructed).1
  obtain ⟨namesToo, foundToo⟩ := answered rfl searchToo fun constructed => (decided constructed).2
  rw [found, foundToo]
  refine .answers (Registry.searchRenamed (syncedFullOf queried.views queried.derived ok)
    (syncedFullOf queriedToo.views queriedToo.derived okToo)
    ((Registry.movesAlike Registry.syncMoves).trans queried.alike)
    ((Registry.movesAlike Registry.syncMoves).trans queriedToo.alike) (Program.ofModulesRenamed same)
    (search.symm.trans found) (searchToo.symm.trans foundToo))

theorem subtypesRenamed (queried : ix.Queried config limit modules) (queriedToo : iy.Queried config limitToo others)
    (same : List.Forall₂ CodeModule.Renamed modules others)
    (decided : base.shape = .constructed →
      Decided (ix.answer (Query.subtypes base)) ∧ Decided (iy.answer (Query.subtypes base))) :
    SameOutcome Eq SameMembers (ix.answer (Query.subtypes base)) (iy.answer (Query.subtypes base)) := by
  have programs := Program.ofModulesRenamed same
  have types : ix.types.Renamed iy.types := by
    rw [queriedTypes queried, queriedTypes queriedToo]
    exact Program.typesRenamed programs
  have checks : ix.checkBase base = iy.checkBase base :=
    baseCheckRenamed types (queried.config.trans queriedToo.config.symm) base
  have outcome := syncOutcome queried.views.coherent queried.derived
  have outcomeToo := syncOutcome queriedToo.views.coherent queriedToo.derived
  rw [Program.alikeFirstFailure queried.alike, Program.firstFailureRenamed programs] at outcome
  rw [Program.alikeFirstFailure queriedToo.alike] at outcomeToo
  cases passed : ix.checkBase base with
  | error e =>
      rw [Query.subtypesGuarded, guardedRefused passed, guardedRefused (checks ▸ passed)]
      exact .fails rfl
  | ok _ =>
      have passedToo : iy.checkBase base = .ok () := checks ▸ passed
      cases failure : (Program.ofModules others).firstFailure? with
      | some e =>
          rw [failure] at outcome outcomeToo
          rw [Query.subtypesGuarded, guardedPassed passed, guardedPassed passedToo, answerStopped outcome,
            answerStopped outcomeToo]
          exact .fails rfl
      | none =>
          rw [failure] at outcome outcomeToo
          exact searchesRenamed queried queriedToo same decided passed passedToo outcome outcomeToo

end Index

structure ParametersImmaterial [Preserving φ] (u v : Universe φ) : Prop where
  assignable : ∀ candidate target, target.isClosed = true → ∀ limit limitToo answer answerToo,
    u.assignable? limit candidate target = some answer → v.assignable? limitToo candidate target = some answerToo →
      answer = answerToo
  ends : ∀ candidate, (u.Above candidate).Finite ↔ (v.Above candidate).Finite
  searches : ∀ graph scope recordedOnly base limit limitToo names namesToo,
    (⟨graph, u, limit⟩ : SubtypeSearch φ).find scope recordedOnly base = .ok names →
    (⟨graph, v, limitToo⟩ : SubtypeSearch φ).find scope recordedOnly base = .ok namesToo → names = namesToo
  plain : ∀ graph scope recordedOnly base limit limitToo, base.shape ≠ .constructed →
    (⟨graph, u, limit⟩ : SubtypeSearch φ).find scope recordedOnly base =
      (⟨graph, v, limitToo⟩ : SubtypeSearch φ).find scope recordedOnly base
  queries : ∀ modules others, (Program.ofModules modules).knownTypes = u → (Program.ofModules others).knownTypes = v →
    List.Forall₂ CodeModule.Renamed modules others → ∀ config limit limitToo actions actionsToo,
    (∀ a ∈ actions, a.quiet = true) → (∀ a ∈ actionsToo, a.quiet = true) → ∀ base,
    (base.shape = .constructed →
      Decided (((Index.ofProgram config limit (.ofModules modules)).run actions).answer (Query.subtypes base)) ∧
      Decided (((Index.ofProgram config limitToo (.ofModules others)).run actionsToo).answer (Query.subtypes base))) →
    SameOutcome Eq SameMembers
      (((Index.ofProgram config limit (.ofModules modules)).run actions).answer (Query.subtypes base))
      (((Index.ofProgram config limitToo (.ofModules others)).run actionsToo).answer (Query.subtypes base))

/-- The names of generic parameters are immaterial: other names, chosen for each definition by itself,
change no answer about a closed reference and no answer to a subtype query. -/
theorem parametersImmaterial [Preserving φ] (u v : Universe φ) (renamed : u.Renamed v) : ParametersImmaterial u v where
  assignable := fun _ _ closed _ _ _ _ decided decidedToo => Universe.answerRenamed renamed closed decided decidedToo
  ends := fun _ => Universe.finiteRenamed renamed
  searches := fun _ _ _ _ _ _ _ _ ok okToo => SubtypeSearch.findRenamed renamed ok okToo
  plain := by
    intro graph scope recordedOnly base limit limitToo other
    unfold SubtypeSearch.find
    cases shape : base.shape with
    | constructed => exact absurd shape other
    | nonGeneric | definition | partiallyBound => rfl
  queries := by
    intro modules others _ _ same config limit limitToo actions actionsToo quiet quietToo base decided
    exact Index.subtypesRenamed (Index.queriedRun config limit modules quiet)
      (Index.queriedRun config limitToo others quietToo) same decided

namespace Universe

def uncrossed : Universe := .ofDefs (crossedTypes.map fun d => d.rename (d.name ++ ·))

theorem crossedRenamed : crossed.Renamed uncrossed := by
  have apart : ∀ d ∈ crossedTypes, d.Apart (d.name ++ ·) := by decide +kernel
  have related : List.Forall₂ TypeDef.Renamed crossedTypes (crossedTypes.map fun d => d.rename (d.name ++ ·)) := by
    refine List.forall₂_map_right_iff.2 (List.forall₂_same.2 fun d member => ⟨_, apart d member, rfl⟩)
  intro name
  rw [crossed, uncrossed, findOfDefs, findOfDefs]
  exact relatedFind related fun d e same => by rw [TypeDef.renamedName same]

theorem scoresUncrossed : crossed.Renamed uncrossed ∧ ∀ limit answer, uncrossed.assignable? limit "Scores"
    ⟨"Repository", [.type "List" [.type "Pair" [.type "Int" [], .type "Text" []]]]⟩ = some answer → answer = true := by
  have decided : crossed.assignable? 4 "Scores"
      ⟨"Repository", [.type "List" [.type "Pair" [.type "Int" [], .type "Text" []]]]⟩ = some true := by decide +kernel
  refine ⟨crossedRenamed, fun limit answer decidedToo => ?_⟩
  exact ((parametersImmaterial crossed uncrossed crossedRenamed).assignable _ _ (by decide) _ _ _ _ decided
    decidedToo).symm

end Universe
end MetadataIndex
