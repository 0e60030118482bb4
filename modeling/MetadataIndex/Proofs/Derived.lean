import MetadataIndex.Proofs.Supertypes
import MetadataIndex.Proofs.Union

/-! The contribution that a successful derivation gives, written down without its failures: the
records name types, designate declarations, and each designated declaration brings marks and the
lineages of its markers. What a module tells depends on its records, its types and the universe. -/
namespace MetadataIndex
open Std Relation
variable {φ : Type}

namespace Contribution

def add (c : Contribution φ) (types : List TypeName) (edges : List Edge) (marks : List (Mark φ)) : Contribution φ :=
  (((c.addTypes types).2.addEdges edges).2.addMarks marks).2

variable {c : Contribution φ} {types moreTypes : List TypeName} {edges moreEdges : List Edge}
  {marks moreMarks : List (Mark φ)}

theorem addNothing : c.add [] [] [] = c := rfl

theorem addAdd :
    (c.add types edges marks).add moreTypes moreEdges moreMarks =
      c.add (types ++ moreTypes) (edges ++ moreEdges) (marks ++ moreMarks) := by
  ext1
  · simp [add]
  · simp [add, OrderedSet.insertAllAppend]
  · simp [add, OrderedSet.insertAllAppend]
  · simp [add, OrderedSet.insertAllAppend]

theorem addEdgesEq : (c.addEdges edges).2 = c.add [] edges [] := rfl

theorem addTypesEq : (c.addTypes types).2 = c.add types [] [] := rfl

end Contribution

namespace Universe

def markers (u : Universe φ) (r : Record) (d : Declaration φ) : List TypeName :=
  match r.marker with
  | some marker => [marker]
  | none => u.retrievableTypes d

def marksOf (u : Universe φ) (r : Record) (d : Declaration φ) : List (Mark φ) := (u.markers r d).map (⟨·, d⟩)

def annotationEdges (u : Universe φ) (r : Record) (d : Declaration φ) : List Edge :=
  (u.markers r d ++ u.retrievableTypes d).flatMap u.markerEdges

end Universe

namespace CodeModule
variable {m : CodeModule φ} {u : Universe φ} {r : Record} {c after : Contribution φ} {d : Declaration φ}

def designated (m : CodeModule φ) (r : Record) : List (Declaration φ) :=
  match m.find? r.type, r.member with
  | none, _ => []
  | some owner, none => [⟨owner, none⟩]
  | some owner, some member => owner.declarationsNamed member

def supertypeEdges (m : CodeModule φ) (u : Universe φ) (r : Record) : List Edge :=
  match m.find? r.type, r.member with
  | some owner, none => u.lineageEdges owner
  | _, _ => []

def recordEdges (m : CodeModule φ) (u : Universe φ) (r : Record) : List Edge :=
  m.supertypeEdges u r ++ (m.designated r).flatMap (u.annotationEdges r)

def recordMarks (m : CodeModule φ) (u : Universe φ) (r : Record) : List (Mark φ) :=
  (m.designated r).flatMap (u.marksOf r)

def told (m : CodeModule φ) (u : Universe φ) : Contribution φ :=
  (Contribution.ofModule m.id).add (m.recordList.map Record.type) (m.recordList.flatMap (m.recordEdges u))
    (m.recordList.flatMap (m.recordMarks u))

theorem markersForOk {markers : List TypeName} (ok : m.markersFor u r d = .ok markers) :
    markers = u.markers r d := by
  cases claimed : r.marker with
  | none =>
      simp only [markersFor, claimed] at ok
      cases ok
      simp [Universe.markers, claimed]
  | some marker =>
      simp only [markersFor, claimed] at ok
      split at ok
      · cases ok
        simp [Universe.markers, claimed]
      · cases ok

theorem markDeclarationOk {must : Bool} (ok : m.markDeclaration u r must c d = .ok after) :
    after = c.add [] (u.annotationEdges r d) (u.marksOf r d) := by
  unfold markDeclaration at ok
  cases found : m.markersFor u r d with
  | error e => simp [found, bind, Except.bind] at ok
  | ok markers =>
      have same := markersForOk found
      subst same
      simp only [found, bind, Except.bind] at ok
      split at ok
      · next nothing =>
        split at ok
        · cases ok
        · cases ok
          have none := List.isEmpty_iff.1 nothing
          have unmarked : u.retrievableTypes d = [] := by
            unfold Universe.markers at none
            split at none
            · cases none
            · exact none
          simp [Universe.annotationEdges, Universe.marksOf, none, unmarked, Contribution.addNothing]
      · cases ok
        rfl

theorem markAllOk {must : Bool} {ds : List (Declaration φ)}
    (ok : ds.foldlM (m.markDeclaration u r must) c = .ok after) :
    after = c.add [] (ds.flatMap (u.annotationEdges r)) (ds.flatMap (u.marksOf r)) := by
  induction ds generalizing c with
  | nil =>
      cases ok
      rfl
  | cons d rest ih =>
      rw [List.foldlM_cons] at ok
      cases first : m.markDeclaration u r must c d with
      | error e => simp [first, bind, Except.bind] at ok
      | ok next =>
          simp only [first, bind, Except.bind] at ok
          rw [ih ok, markDeclarationOk first, Contribution.addAdd]
          rfl

theorem deriveRecordOk (ok : m.deriveRecord u c r = .ok after) :
    after = c.add [r.type] (m.recordEdges u r) (m.recordMarks u r) := by
  unfold deriveRecord at ok
  cases found : m.find? r.type with
  | none => simp [found] at ok
  | some owner =>
      have named : owner.name = r.type := (OrderedSet.findIff.1 found).2
      simp only [found] at ok
      cases member : r.member with
      | none =>
          simp only [member] at ok
          rw [markDeclarationOk ok, Contribution.addEdgesEq, Contribution.addTypesEq, Contribution.addAdd,
            Contribution.addAdd, named]
          simp [recordEdges, recordMarks, supertypeEdges, designated, found, member]
      | some name =>
          simp only [member] at ok
          split at ok
          · cases ok
          · rw [markAllOk ok, Contribution.addTypesEq, Contribution.addAdd, named]
            simp [recordEdges, recordMarks, supertypeEdges, designated, found, member]

theorem deriveAllOk {records : List Record} (ok : records.foldlM (m.deriveRecord u) c = .ok after) :
    after = c.add (records.map Record.type) (records.flatMap (m.recordEdges u))
      (records.flatMap (m.recordMarks u)) := by
  induction records generalizing c with
  | nil =>
      cases ok
      rfl
  | cons r rest ih =>
      rw [List.foldlM_cons] at ok
      cases first : m.deriveRecord u c r with
      | error e => simp [first, bind, Except.bind] at ok
      | ok next =>
          simp only [first, bind, Except.bind] at ok
          rw [ih ok, deriveRecordOk first, Contribution.addAdd]
          rfl

theorem deriveOk (ok : m.derive u = .ok c) : c = m.told u := deriveAllOk ok

theorem foldlMEach {ε α β : Type} {step : β → α → Except ε β} {values : List α} {start last : β} {a : α}
    (ok : values.foldlM step start = .ok last) (member : a ∈ values) : ∃ before after, step before a = .ok after := by
  induction values generalizing start with
  | nil => cases member
  | cons first rest ih =>
      rw [List.foldlM_cons] at ok
      cases outcome : step start first with
      | error e => simp [outcome, bind, Except.bind] at ok
      | ok next =>
          simp only [outcome, bind, Except.bind] at ok
          rcases List.mem_cons.1 member with same | later
          · exact ⟨start, next, same ▸ outcome⟩
          · exact ih ok later

theorem deriveResolved (ok : m.derive u = .ok c) (member : r ∈ m.recordList) :
    ∃ owner, m.find? r.type = some owner := by
  obtain ⟨before, after, done⟩ := foldlMEach ok member
  cases found : m.find? r.type with
  | none => simp [deriveRecord, found] at done
  | some owner => exact ⟨owner, rfl⟩

theorem openedDesignated (m : CodeModule φ) (r : Record) : m.opened.designated r = m.designated r := by
  rw [designated, designated, find?, m.openedTypes, find?]

theorem openedDerive (m : CodeModule φ) (u : Universe φ) : m.opened.derive u = m.derive u := by
  have sameStep : m.opened.deriveRecord u = m.deriveRecord u := by
    unfold opened
    split <;> rfl
  rw [derive, derive, sameStep, m.openedRecordList, m.openedId]

end CodeModule

namespace CodeModule
variable {m : CodeModule φ} {u : Universe φ} {d : Declaration φ} {e : Edge} {name : TypeName} {mark : Mark φ}

theorem toldModules : (m.told u).modules.toList = [m.id] := by
  simp only [told, Contribution.add, Contribution.addMarksModules, Contribution.addEdgesModules]
  rfl

theorem toldTypes : (m.told u).types.toList = firstOccurrences (m.recordList.map Record.type) := by
  simp only [told, Contribution.add, Contribution.addMarksTypes, Contribution.addEdgesTypes]
  rfl

theorem toldEdges :
    (m.told u).edges.toList = firstOccurrences ((m.recordList.flatMap (m.recordEdges u)).filter Edge.proper) := by
  simp only [told, Contribution.add, Contribution.addMarksEdges, Contribution.addEdgesEdges]
  rfl

theorem toldMarks : (m.told u).marks = .ofList Mark.id (m.recordList.flatMap (m.recordMarks u)) := by
  simp only [told, Contribution.add, Contribution.addMarksMarks, Contribution.addEdgesMarks]
  rfl

theorem memToldTypes : name ∈ (m.told u).types.toList ↔ ∃ r ∈ m.recordList, r.type = name := by
  rw [toldTypes, memFirstOccurrences, List.mem_map]

theorem memToldEdges :
    e ∈ (m.told u).edges.toList ↔ e.proper = true ∧ ∃ r ∈ m.recordList, e ∈ m.recordEdges u r := by
  rw [toldEdges, memFirstOccurrences, List.mem_filter, List.mem_flatMap, and_comm]

theorem memOfToldMarks (member : mark ∈ (m.told u).marks.toList) :
    ∃ r ∈ m.recordList, mark ∈ m.recordMarks u r := by
  rw [toldMarks] at member
  exact List.mem_flatMap.1 (OrderedSet.memOfList member)

theorem designatedOwner {r : Record} (member : d ∈ m.designated r) :
    d.owner ∈ m.types.toList ∧ d.owner.name = r.type := by
  unfold designated at member
  split at member
  · cases member
  · next owner found _ =>
    rw [List.mem_singleton.1 member]
    exact OrderedSet.findIff.1 found
  · next owner name found _ =>
    obtain ⟨i, _, same⟩ := List.mem_map.1 member
    subst same
    exact OrderedSet.findIff.1 found

theorem declarationUnique {e : Declaration φ} (owned : d.owner ∈ m.types.toList) (ownedToo : e.owner ∈ m.types.toList)
    (same : d.id = e.id) : d = e := by
  obtain ⟨owner, ordinal⟩ := d
  obtain ⟨ownerToo, ordinalToo⟩ := e
  simp only [Declaration.id, DeclarationId.mk.injEq] at same
  obtain ⟨_, sameName, sameOrdinal⟩ := same
  have sameOwner : owner = ownerToo := OrderedSet.sameOfKey owned ownedToo sameName
  rw [sameOwner, sameOrdinal]

theorem recordMarksOwner {r : Record} (member : mark ∈ m.recordMarks u r) : mark.target.owner ∈ m.types.toList := by
  obtain ⟨d, designates, marked⟩ := List.mem_flatMap.1 member
  obtain ⟨marker, _, same⟩ := List.mem_map.1 marked
  subst same
  exact (designatedOwner designates).1

theorem markOwner (member : mark ∈ (m.told u).marks.toList) : mark.target.owner ∈ m.types.toList := by
  obtain ⟨r, _, inside⟩ := memOfToldMarks member
  exact recordMarksOwner inside

theorem memToldMarks : mark ∈ (m.told u).marks.toList ↔ ∃ r ∈ m.recordList, mark ∈ m.recordMarks u r := by
  refine ⟨memOfToldMarks, fun ⟨r, record, marked⟩ => ?_⟩
  have listed : mark ∈ m.recordList.flatMap (m.recordMarks u) := List.mem_flatMap.2 ⟨r, record, marked⟩
  rw [toldMarks, OrderedSet.ofList]
  refine (OrderedSet.memInsertAllOfKeys fun twin inside same => ?_).2 (.inr listed)
  obtain ⟨_, _, twinMarked⟩ := List.mem_flatMap.1 inside
  obtain ⟨sameMarker, sameId⟩ := Tag.mk.inj same
  have sameTarget := declarationUnique (recordMarksOwner twinMarked) (recordMarksOwner marked) sameId
  obtain ⟨marker, target⟩ := mark
  obtain ⟨markerTwin, targetTwin⟩ := twin
  rw [show markerTwin = marker from sameMarker, show targetTwin = target from sameTarget]

theorem markersKnown {r : Record} {must : Bool} {c after : Contribution φ} {marker : TypeName}
    (ok : m.markDeclaration u r must c d = .ok after) (member : marker ∈ u.markers r d) :
    u.isAnnotationType marker = true := by
  unfold Universe.markers at member
  cases claimed : r.marker with
  | none =>
      simp only [claimed] at member
      exact (Bool.and_eq_true_iff.1 (List.mem_filter.1 member).2).1
  | some claim =>
      simp only [claimed, List.mem_singleton] at member
      subst member
      cases known : u.isAnnotationType marker with
      | true => rfl
      | false => simp [markDeclaration, markersFor, claimed, known, bind, Except.bind] at ok

theorem deriveRecordMarks {r : Record} {c after : Contribution φ} (ok : m.deriveRecord u c r = .ok after)
    (designates : d ∈ m.designated r) : ∃ must before next, m.markDeclaration u r must before d = .ok next := by
  unfold designated at designates
  unfold deriveRecord at ok
  split at designates
  · cases designates
  · next owner found whole =>
    rw [List.mem_singleton.1 designates]
    simp only [found, whole] at ok
    exact ⟨_, _, _, ok⟩
  · next owner name found named =>
    simp only [found, named] at ok
    split at ok
    · cases ok
    · obtain ⟨before, next, done⟩ := foldlMEach ok designates
      exact ⟨_, _, _, done⟩

theorem deriveMarked {c : Contribution φ} (ok : m.derive u = .ok c) (member : mark ∈ c.marks.toList) :
    u.isAnnotationType mark.marker = true := by
  rw [deriveOk ok] at member
  obtain ⟨r, record, inside⟩ := memOfToldMarks member
  obtain ⟨d, designates, marked⟩ := List.mem_flatMap.1 inside
  obtain ⟨marker, listed, same⟩ := List.mem_map.1 marked
  subst same
  obtain ⟨_, _, done⟩ := foldlMEach ok record
  obtain ⟨_, _, _, finished⟩ := deriveRecordMarks done designates
  exact markersKnown finished listed

theorem recordEdgeStep {r : Record} (member : e ∈ m.recordEdges u r) :
    (∃ owner, m.find? r.type = some owner ∧ (u.withFirst owner).DirectSupertype e.derived e.base) ∨
      u.DirectSupertype e.derived e.base := by
  rcases List.mem_append.1 member with lineage | annotation
  · unfold supertypeEdges at lineage
    split at lineage
    · next owner found _ => exact .inl ⟨owner, found, Universe.memLineageEdges lineage⟩
    · cases lineage
  · obtain ⟨d, _, inside⟩ := List.mem_flatMap.1 annotation
    obtain ⟨marker, _, edge⟩ := List.mem_flatMap.1 inside
    exact .inr (Universe.memMarkerEdges edge)

end CodeModule
end MetadataIndex
