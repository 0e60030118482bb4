import MetadataIndex.Contribution
import MetadataIndex.Error
import MetadataIndex.Program

/-! Deriving a module's contribution from its records. Every record names a type of the module; a
type record adds the edges of the whole supertype lineage, a member record designates every member
of that name. A designated declaration is marked by the claimed marker or by its own retrievable
annotation types, and annotation types join the subtype relation through their base chain. -/
namespace MetadataIndex
variable {φ : Type}

namespace Universe

def lineageEdges (u : Universe φ) (owner : TypeDef φ) : List Edge :=
  ((u.withFirst owner).supertypeClosure owner.name).flatMap TypeDef.edges

def markerEdges (u : Universe φ) (marker : TypeName) : List Edge :=
  let lineage := u.baseLineage marker
  (lineage.zip lineage.tail).map fun (derived, base) => ⟨base.name, derived.name, .inherits⟩

def retrievableTypes (u : Universe φ) (d : Declaration φ) : List TypeName :=
  (d.attachments.map Attachment.type).filter u.isRetrievableAnnotationType

end Universe

namespace CodeModule

def markersFor (m : CodeModule φ) (u : Universe φ) (r : Record) (d : Declaration φ) :
    Except IngestError (List TypeName) :=
  match r.marker with
  | some marker =>
      if u.isAnnotationType marker then .ok [marker]
      else .error (.unresolvedMarker m.id r.text marker)
  | none => .ok (u.retrievableTypes d)

def markDeclaration (m : CodeModule φ) (u : Universe φ) (r : Record) (must : Bool) (c : Contribution φ)
    (d : Declaration φ) : Except IngestError (Contribution φ) := do
  let markers ← m.markersFor u r d
  if markers.isEmpty then
    if must then .error (.unmarkedMember m.id (r.text ++ " (" ++ d.text ++ ")")) else .ok c
  else
    let lineages := (markers ++ u.retrievableTypes d).flatMap u.markerEdges
    .ok ((c.addEdges lineages).2.addMarks (markers.map (⟨·, d⟩))).2

def deriveRecord (m : CodeModule φ) (u : Universe φ) (c : Contribution φ) (r : Record) :
    Except IngestError (Contribution φ) :=
  match m.find? r.type with
  | none => .error (.unresolvedType m.id r.type)
  | some owner =>
      let c := (c.addTypes [owner.name]).2
      match r.member with
      | none => m.markDeclaration u r false (c.addEdges (u.lineageEdges owner)).2 ⟨owner, none⟩
      | some member =>
          match owner.declarationsNamed member with
          | [] => .error (.unresolvedMember m.id owner.name member)
          | declarations => declarations.foldlM (m.markDeclaration u r true) c

def derive (m : CodeModule φ) (u : Universe φ) : Except IngestError (Contribution φ) :=
  m.recordList.foldlM (m.deriveRecord u) (.ofModule m.id)

end CodeModule
end MetadataIndex
