import MetadataIndex.Proofs.Derived

/-! What a derivation gives, told from the records and the metadata alone. It fails at the first record
that names no type or no member of the module, claims a marker that is no annotation type, or designates
an unclaimed member without a retrievable annotation. Otherwise the types, marks and edges are those the
records declare: no edge is lost on the way up from a recorded type, and none is made up. -/
namespace MetadataIndex
open Std Relation
variable {φ : Type}

section Failures
variable {α β ε : Type} {fails : α → ε → Prop} {values : List α} {step : β → α → Except ε β} {start : β} {e : ε}

inductive FirstFails (fails : α → ε → Prop) : List α → ε → Prop where
  | here {a : α} {rest : List α} {e : ε} (failed : fails a e) : FirstFails fails (a :: rest) e
  | later {a : α} {rest : List α} {e : ε} (passed : ∀ d, ¬ fails a d) (next : FirstFails fails rest e) :
      FirstFails fails (a :: rest) e

theorem firstFailsSome : (∃ e, FirstFails fails values e) ↔ ∃ a ∈ values, ∃ e, fails a e := by
  constructor
  · intro ⟨e, first⟩
    induction first with
    | here failed => exact ⟨_, List.mem_cons_self .., _, failed⟩
    | later _ _ ih =>
        obtain ⟨a, member, failed⟩ := ih
        exact ⟨a, List.mem_cons_of_mem _ member, failed⟩
  · intro ⟨a, member, e, failed⟩
    induction values with
    | nil => cases member
    | cons first rest ih =>
        by_cases stops : ∃ d, fails first d
        · obtain ⟨d, failedFirst⟩ := stops
          exact ⟨d, .here failedFirst⟩
        · have passed : ∀ d, ¬ fails first d := fun d failedFirst => stops ⟨d, failedFirst⟩
          rcases List.mem_cons.1 member with same | inside
          · exact absurd (same ▸ failed) (passed e)
          · obtain ⟨d, next⟩ := ih inside
            exact ⟨d, .later passed next⟩

theorem foldlMFails (failing : ∀ b a e, step b a = .error e ↔ fails a e) :
    values.foldlM step start = .error e ↔ FirstFails fails values e := by
  induction values generalizing start with
  | nil =>
      constructor
      · intro failed
        cases failed
      · intro first
        cases first
  | cons a rest ih =>
      rw [List.foldlM_cons]
      cases outcome : step start a with
      | error d =>
          have failed : fails a d := (failing start a d).1 outcome
          constructor
          · intro same
            cases same
            exact .here failed
          · intro first
            cases first with
            | here failedToo =>
                rw [← (failing start a e).2 failedToo, outcome]
                rfl
            | later passed _ => exact absurd failed (passed d)
      | ok next =>
          have passed : ∀ d, ¬ fails a d := fun d failed => by
            rw [(failing start a d).2 failed] at outcome
            cases outcome
          refine ih.trans ⟨.later passed, fun first => ?_⟩
          cases first with
          | here failed => exact absurd failed (passed e)
          | later _ inside => exact inside

end Failures

inductive TypeDef.DirectEdge (d : TypeDef φ) : Edge → Prop where
  | base {r : TypeRef} (extended : d.base = some r) : DirectEdge d ⟨r.name, d.name, .inherits⟩
  | interface {r : TypeRef} (listed : r ∈ d.interfaces) : DirectEdge d ⟨r.name, d.name, .implements⟩

theorem TypeDef.memEdgesIff {d : TypeDef φ} {e : Edge} : e ∈ d.edges ↔ d.DirectEdge e := by
  rw [edges, List.mem_append, List.mem_map, List.mem_map]
  constructor
  · intro member
    rcases member with ⟨r, inside, rfl⟩ | ⟨r, inside, rfl⟩
    · exact .base (Option.mem_toList.1 inside)
    · exact .interface inside
  · intro edge
    cases edge with
    | base extended => exact .inl ⟨_, Option.mem_toList.2 extended, rfl⟩
    | interface listed => exact .inr ⟨_, listed, rfl⟩

theorem memZipTail {α : Type} {values : List α} {a b : α} :
    (a, b) ∈ values.zip values.tail ↔ [a, b] <:+: values := by
  induction values with
  | nil => simp
  | cons first rest ih =>
      cases rest with
      | nil => simp [List.infix_cons_iff]
      | cons second rest =>
          rw [List.infix_cons_iff, ← ih]
          simp [List.cons_prefix_cons]

namespace Universe
variable {u : Universe φ} {owner d : TypeDef φ} {name : TypeName} {e : Edge}

inductive InLineage (u : Universe φ) (owner : TypeDef φ) : TypeDef φ → Prop where
  | owner : InLineage u owner owner
  | above {d next : TypeDef φ} {r : TypeRef} (below : InLineage u owner d) (direct : r ∈ d.supertypes)
      (other : r.name ≠ owner.name) (found : u.find? r.name = some next) : InLineage u owner next

def LineageEdge (u : Universe φ) (type : TypeName) (e : Edge) : Prop :=
  ∃ derived base, [derived, base] <:+: u.baseLineage type ∧ e = ⟨base.name, derived.name, .inherits⟩

def Carries (u : Universe φ) (d : Declaration φ) (type : TypeName) : Prop :=
  ∃ a ∈ d.attachments, a.type = type ∧ u.isRetrievableAnnotationType type = true

def MarkedBy (u : Universe φ) (r : Record) (d : Declaration φ) (type : TypeName) : Prop :=
  r.marker = some type ∨ r.marker = none ∧ u.Carries d type

theorem lineageOfPath (path : ReflTransGen (u.withFirst owner).DirectSupertype owner.name name)
    (found : (u.withFirst owner).find? name = some d) : u.InLineage owner d := by
  induction path generalizing d with
  | refl =>
      rw [findWithFirst, if_pos rfl] at found
      cases found
      exact .owner
  | @tail below name _ step ih =>
      obtain ⟨lower, foundLower, direct⟩ := step
      obtain ⟨r, inside, same⟩ := List.mem_map.1 direct
      subst same
      rw [findWithFirst] at found
      split at found
      · cases found
        exact .owner
      · next other => exact .above (ih foundLower) inside (fun same => other same.symm) found

theorem pathOfLineage (inside : u.InLineage owner d) : (u.withFirst owner).find? d.name = some d ∧
    ReflTransGen (u.withFirst owner).DirectSupertype owner.name d.name := by
  induction inside with
  | owner => exact ⟨by rw [findWithFirst, if_pos rfl], .refl⟩
  | @above d next r _ direct other found ih =>
      have named : next.name = r.name := nameOfFind found
      rw [named]
      refine ⟨?_, ih.2.tail ⟨d, ih.1, List.mem_map.2 ⟨r, direct, rfl⟩⟩⟩
      rw [findWithFirst, if_neg fun same => other same.symm, found]

theorem memLineageEdgesIff : e ∈ u.lineageEdges owner ↔ ∃ d, u.InLineage owner d ∧ d.DirectEdge e := by
  rw [lineageEdges, List.mem_flatMap]
  refine exists_congr fun d => ?_
  rw [memClosure, TypeDef.memEdgesIff]
  exact and_congr_left fun _ => ⟨fun reached => lineageOfPath reached.2 reached.1, pathOfLineage⟩

theorem memMarkerEdgesIff : e ∈ u.markerEdges name ↔ u.LineageEdge name e := by
  rw [markerEdges, List.mem_map, Prod.exists]
  refine exists_congr fun derived => exists_congr fun base => ?_
  rw [memZipTail, eq_comm]

theorem memRetrievableTypes {d : Declaration φ} : name ∈ u.retrievableTypes d ↔ u.Carries d name := by
  rw [retrievableTypes, List.mem_filter, List.mem_map]
  constructor
  · intro ⟨⟨a, inside, same⟩, retrievable⟩
    exact ⟨a, inside, same, retrievable⟩
  · intro ⟨a, inside, same, retrievable⟩
    exact ⟨⟨a, inside, same⟩, retrievable⟩

theorem memMarkers {r : Record} {d : Declaration φ} : name ∈ u.markers r d ↔ u.MarkedBy r d name := by
  unfold markers MarkedBy
  cases r.marker with
  | none => simp [memRetrievableTypes]
  | some marker => simp [eq_comm]

end Universe

namespace CodeModule
variable {m : CodeModule φ} {u : Universe φ} {r : Record} {c : Contribution φ} {d : Declaration φ} {error : IngestError}

inductive Designates (m : CodeModule φ) (r : Record) : Declaration φ → Prop where
  | type {owner : TypeDef φ} (found : m.find? r.type = some owner) (whole : r.member = none) :
      Designates m r ⟨owner, none⟩
  | member {owner : TypeDef φ} {x : Member φ} {i : Nat} (found : m.find? r.type = some owner)
      (place : owner.members[i]? = some x) (named : r.member = some x.name) : Designates m r ⟨owner, some i⟩

inductive MarkFault (m : CodeModule φ) (u : Universe φ) (r : Record) (d : Declaration φ) : IngestError → Prop where
  | unknownMarker {marker : TypeName} (claimed : r.marker = some marker)
      (unknown : u.isAnnotationType marker = false) : MarkFault m u r d (.unresolvedMarker m.id r.text marker)
  | unmarkedMember (member : r.hasMember = true) (unclaimed : r.marker = none) (bare : ∀ type, ¬ u.Carries d type) :
      MarkFault m u r d (.unmarkedMember m.id (r.text ++ " (" ++ d.text ++ ")"))

inductive RecordFault (m : CodeModule φ) (u : Universe φ) (r : Record) : IngestError → Prop where
  | unknownType (missing : m.find? r.type = none) : RecordFault m u r (.unresolvedType m.id r.type)
  | unknownMember {owner : TypeDef φ} {name : String} (found : m.find? r.type = some owner)
      (named : r.member = some name) (missing : ∀ x ∈ owner.members, x.name ≠ name) :
      RecordFault m u r (.unresolvedMember m.id owner.name name)
  | declaration {error : IngestError} (first : FirstFails (m.MarkFault u r) (m.designated r) error) :
      RecordFault m u r error

structure Declares (m : CodeModule φ) (u : Universe φ) (c : Contribution φ) : Prop where
  modules : c.modules.toList = [m.id]
  types : ∀ name, name ∈ c.types.toList ↔ ∃ r ∈ m.recordList, ∃ owner, m.find? r.type = some owner ∧ owner.name = name
  marks : ∀ type d, ⟨type, d⟩ ∈ c.marks.toList ↔ ∃ r ∈ m.recordList, m.Designates r d ∧ u.MarkedBy r d type
  edges : ∀ e, e ∈ c.edges.toList ↔ e.base ≠ e.derived ∧ ∃ r ∈ m.recordList,
    (r.member = none ∧ ∃ owner d, m.find? r.type = some owner ∧ u.InLineage owner d ∧ d.DirectEdge e) ∨
    ∃ d type, m.Designates r d ∧ (u.MarkedBy r d type ∨ u.Carries d type) ∧ u.LineageEdge type e

structure DerivesDeclared (m : CodeModule φ) (u : Universe φ) : Prop where
  fails : ∀ error, m.derive u = .error error ↔ FirstFails (m.RecordFault u) m.recordList error
  faulty : (∃ error, m.derive u = .error error) ↔ ∃ r ∈ m.recordList, ∃ error, m.RecordFault u r error
  succeeds : ∀ c, m.derive u = .ok c → m.Declares u c

theorem memDesignated : d ∈ m.designated r ↔ m.Designates r d := by
  unfold designated
  constructor
  · intro member
    split at member
    · cases member
    · next owner found whole =>
      rw [List.mem_singleton.1 member]
      exact .type found whole
    · next owner name found named =>
      obtain ⟨i, inside, rfl⟩ := List.mem_map.1 member
      obtain ⟨x, place, same⟩ := TypeDef.memOrdinalsNamed.1 inside
      exact .member found place (same ▸ named)
  · intro designates
    cases designates with
    | type found whole => simp [found, whole]
    | member found place named =>
        simp only [found, named]
        exact List.mem_map.2 ⟨_, TypeDef.memOrdinalsNamed.2 ⟨_, place, rfl⟩, rfl⟩

theorem bareIff : (u.retrievableTypes d).isEmpty = true ↔ ∀ type, ¬ u.Carries d type := by
  rw [List.isEmpty_iff, List.eq_nil_iff_forall_not_mem]
  exact forall_congr' fun type => not_congr Universe.memRetrievableTypes

theorem claimedFails {must : Bool} {marker : TypeName} (claimed : r.marker = some marker) :
    m.markDeclaration u r must c d = .error error ↔
      u.isAnnotationType marker = false ∧ error = .unresolvedMarker m.id r.text marker := by
  simp only [markDeclaration, markersFor, claimed]
  cases u.isAnnotationType marker with
  | true => simp [bind, Except.bind]
  | false => simp [bind, Except.bind, eq_comm]

theorem unclaimedFails {must : Bool} (unclaimed : r.marker = none) :
    m.markDeclaration u r must c d = .error error ↔ must = true ∧ (u.retrievableTypes d).isEmpty = true ∧
      error = .unmarkedMember m.id (r.text ++ " (" ++ d.text ++ ")") := by
  simp only [markDeclaration, markersFor, unclaimed, bind, Except.bind]
  cases (u.retrievableTypes d).isEmpty with
  | false => simp
  | true => cases must <;> simp [eq_comm]

theorem markDeclarationFails :
    m.markDeclaration u r r.hasMember c d = .error error ↔ m.MarkFault u r d error := by
  cases claim : r.marker with
  | some marker =>
      rw [claimedFails claim]
      constructor
      · intro ⟨unknown, same⟩
        exact same ▸ .unknownMarker claim unknown
      · intro fault
        cases fault with
        | unknownMarker claimed unknown =>
            cases claim.symm.trans claimed
            exact ⟨unknown, rfl⟩
        | unmarkedMember _ unclaimed _ => cases claim.symm.trans unclaimed
  | none =>
      rw [unclaimedFails claim, bareIff]
      constructor
      · intro ⟨member, bare, same⟩
        exact same ▸ .unmarkedMember member claim bare
      · intro fault
        cases fault with
        | unknownMarker claimed _ => cases claim.symm.trans claimed
        | unmarkedMember member _ bare => exact ⟨member, bare, rfl⟩

theorem declarationsFail : (m.designated r).foldlM (m.markDeclaration u r r.hasMember) c = .error error ↔
    FirstFails (m.MarkFault u r) (m.designated r) error :=
  foldlMFails fun _ _ _ => markDeclarationFails

theorem typeRecordFails {owner : TypeDef φ} (found : m.find? r.type = some owner) (whole : r.member = none) :
    m.deriveRecord u c r = .error error ↔ FirstFails (m.MarkFault u r) (m.designated r) error := by
  have named : m.designated r = [⟨owner, none⟩] := by simp [designated, found, whole]
  have must : r.hasMember = false := by simp [Record.hasMember, whole]
  rw [← declarationsFail (c := ((c.addTypes [owner.name]).2.addEdges (u.lineageEdges owner)).2), named, must,
    List.foldlM_cons]
  simp only [deriveRecord, found, whole, List.foldlM_nil, bind_pure]

theorem memberRecordFails {owner : TypeDef φ} {name : String} (found : m.find? r.type = some owner)
    (named : r.member = some name) (some : m.designated r ≠ []) :
    m.deriveRecord u c r = .error error ↔ FirstFails (m.MarkFault u r) (m.designated r) error := by
  have members : m.designated r = owner.declarationsNamed name := by simp [designated, found, named]
  have must : r.hasMember = true := by simp [Record.hasMember, named]
  rw [← declarationsFail (c := (c.addTypes [owner.name]).2), must]
  rw [members] at some ⊢
  simp only [deriveRecord, found, named]

theorem undesignated {owner : TypeDef φ} {name : String} (found : m.find? r.type = some owner)
    (named : r.member = some name) : m.designated r = [] ↔ ∀ x ∈ owner.members, x.name ≠ name := by
  rw [List.eq_nil_iff_forall_not_mem]
  constructor
  · intro nothing x inside same
    obtain ⟨i, place⟩ := List.mem_iff_getElem?.1 inside
    exact nothing ⟨owner, i⟩ (memDesignated.2 (.member found place (same ▸ named)))
  · intro missing d member
    cases memDesignated.1 member with
    | type _ whole => cases named.symm.trans whole
    | member foundToo place namedToo =>
        cases found.symm.trans foundToo
        cases named.symm.trans namedToo
        exact missing _ (List.mem_of_getElem? place) rfl

theorem designatedFault (resolved : m.designated r ≠ []) :
    m.RecordFault u r error ↔ FirstFails (m.MarkFault u r) (m.designated r) error := by
  refine ⟨fun fault => ?_, .declaration⟩
  cases fault with
  | unknownType missing => exact absurd (by simp [designated, missing]) resolved
  | unknownMember found named missing => exact absurd ((undesignated found named).2 missing) resolved
  | declaration first => exact first

theorem undesignatedFault (nothing : m.designated r = []) : m.RecordFault u r error ↔
    m.find? r.type = none ∧ error = .unresolvedType m.id r.type ∨
      ∃ owner name, m.find? r.type = some owner ∧ r.member = some name ∧
        error = .unresolvedMember m.id owner.name name := by
  constructor
  · intro fault
    cases fault with
    | unknownType missing => exact .inl ⟨missing, rfl⟩
    | unknownMember found named _ => exact .inr ⟨_, _, found, named, rfl⟩
    | declaration first =>
        rw [nothing] at first
        cases first
  · intro fault
    rcases fault with ⟨missing, same⟩ | ⟨owner, name, found, named, same⟩
    · exact same ▸ .unknownType missing
    · exact same ▸ .unknownMember found named ((undesignated found named).1 nothing)

theorem deriveRecordFails : m.deriveRecord u c r = .error error ↔ m.RecordFault u r error := by
  cases found : m.find? r.type with
  | none =>
      have nothing : m.designated r = [] := by simp [designated, found]
      rw [undesignatedFault nothing]
      simp [deriveRecord, found, eq_comm]
  | some owner =>
      cases member : r.member with
      | none =>
          have resolved : m.designated r ≠ [] := by simp [designated, found, member]
          rw [typeRecordFails found member, designatedFault resolved]
      | some name =>
          by_cases nothing : m.designated r = []
          · have unnamed : owner.declarationsNamed name = [] := by simpa [designated, found, member] using nothing
            rw [undesignatedFault nothing]
            simp [deriveRecord, found, member, unnamed, eq_comm]
          · rw [memberRecordFails found member nothing, designatedFault nothing]

theorem deriveFails : m.derive u = .error error ↔ FirstFails (m.RecordFault u) m.recordList error :=
  foldlMFails fun _ _ _ => deriveRecordFails

theorem memRecordMarks {type : TypeName} :
    ⟨type, d⟩ ∈ m.recordMarks u r ↔ m.Designates r d ∧ u.MarkedBy r d type := by
  rw [recordMarks, List.mem_flatMap]
  constructor
  · rintro ⟨target, designates, marked⟩
    obtain ⟨marker, inside, same⟩ := List.mem_map.1 marked
    cases same
    exact ⟨memDesignated.1 designates, Universe.memMarkers.1 inside⟩
  · rintro ⟨designates, marks⟩
    exact ⟨d, memDesignated.2 designates, List.mem_map.2 ⟨type, Universe.memMarkers.2 marks, rfl⟩⟩

theorem memSupertypeEdges {e : Edge} : e ∈ m.supertypeEdges u r ↔
    r.member = none ∧ ∃ owner d, m.find? r.type = some owner ∧ u.InLineage owner d ∧ d.DirectEdge e := by
  unfold supertypeEdges
  constructor
  · intro member
    split at member
    · next owner found whole =>
      obtain ⟨d, above, edge⟩ := Universe.memLineageEdgesIff.1 member
      exact ⟨whole, owner, d, found, above, edge⟩
    · cases member
  · intro ⟨whole, owner, d, found, above, edge⟩
    rw [found, whole]
    exact Universe.memLineageEdgesIff.2 ⟨d, above, edge⟩

theorem memAnnotationEdges {e : Edge} : e ∈ (m.designated r).flatMap (u.annotationEdges r) ↔
    ∃ d type, m.Designates r d ∧ (u.MarkedBy r d type ∨ u.Carries d type) ∧ u.LineageEdge type e := by
  rw [List.mem_flatMap]
  refine exists_congr fun d => ?_
  rw [memDesignated, Universe.annotationEdges, List.mem_flatMap, ← exists_and_left]
  refine exists_congr fun type => ?_
  rw [List.mem_append, Universe.memMarkers, Universe.memRetrievableTypes, Universe.memMarkerEdgesIff]

theorem toldDeclares (ok : m.derive u = .ok c) : m.Declares u c := by
  have told := deriveOk ok
  subst told
  refine ⟨toldModules, fun name => ?_, fun type d => ?_, fun e => ?_⟩
  · rw [memToldTypes]
    refine exists_congr fun r => and_congr_right fun record => ?_
    obtain ⟨owner, found⟩ := deriveResolved ok record
    have named : owner.name = r.type := (OrderedSet.findIff.1 found).2
    constructor
    · intro same
      exact ⟨owner, found, named.trans same⟩
    · intro ⟨other, foundToo, same⟩
      cases found.symm.trans foundToo
      exact named.symm.trans same
  · rw [memToldMarks]
    exact exists_congr fun r => and_congr_right fun _ => memRecordMarks
  · rw [memToldEdges, Edge.proper, decide_eq_true_eq]
    refine and_congr_right fun _ => exists_congr fun r => and_congr_right fun _ => ?_
    rw [recordEdges, List.mem_append, memSupertypeEdges, memAnnotationEdges]

theorem derivesDeclared (m : CodeModule φ) (u : Universe φ) : m.DerivesDeclared u where
  fails := fun _ => deriveFails
  faulty := (exists_congr fun _ => deriveFails).trans firstFailsSome
  succeeds := fun _ => toldDeclares

end CodeModule
end MetadataIndex
