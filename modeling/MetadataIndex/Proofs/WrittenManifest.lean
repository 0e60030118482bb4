import MetadataIndex.Manifest
import MetadataIndex.Proofs.GivenFields
import MetadataIndex.Proofs.JsonReading

/-! A manifest in its written form. Each entry is read back from the record that it was written as,
a member list that was left out included, and every record holds texts, flags and lists only, so the
text of a manifest gives the manifest back whatever its names. -/
namespace MetadataIndex.Manifest

section Lists
variable {α : Type} {write : α → Json} {read : Json → Option α}

theorem readAllWritten (back : ∀ a, read (write a) = some a) (values : List α) :
    readAll read (.array (values.map write)) = some values := by
  have each : List.Forall₂ (fun item a => read item = some a) (values.map write) values :=
    List.forall₂_map_left_iff.2 (List.forall₂_same.2 fun a _ => back a)
  exact Json.mapMSome.2 each

theorem printableAll (printable : ∀ a, Json.Printable (write a)) (values : List α) :
    Json.Printable (.array (values.map write)) := by
  refine .array fun item member => ?_
  obtain ⟨a, _, same⟩ := List.mem_map.1 member
  exact same ▸ printable a

end Lists

theorem readMemberWritten (m : MemberEntry) : readMember (memberToJson m) = some m := by
  have fields : (memberToJson m).recordFields ["kind", "name"] =
      some [some (.text (some m.kind.word)), some (.text (some m.name))] := by
    simp [memberToJson, Json.recordFields]
  simp only [readMember, fields, bind, Option.bind, Json.field, readKind, MemberKind.ofWordWord, Json.asText]

theorem readTypeWritten (t : TypeEntry) : readType (typeToJson t) = some t := by
  obtain ⟨name, wholeType, members⟩ := t
  have listed := readAllWritten readMemberWritten members
  cases members with
  | nil =>
      have fields : (typeToJson ⟨name, wholeType, []⟩).recordFields ["name", "whole_type", "members"] =
          some [some (.text (some name)), some (.bool wholeType), none] := by
        simp [typeToJson, Json.recordFields]
      simp only [readType, fields, bind, Option.bind, Json.field, Json.asText, Json.asBool, Json.fieldOr]
  | cons first rest =>
      have fields : (typeToJson ⟨name, wholeType, first :: rest⟩).recordFields ["name", "whole_type", "members"] =
          some [some (.text (some name)), some (.bool wholeType),
            some (.array ((first :: rest).map memberToJson))] := by
        simp [typeToJson, Json.recordFields]
      simp only [readType, fields, bind, Option.bind, Json.field, Json.asText, Json.asBool, Json.fieldOr, listed]

theorem readModuleWritten (m : ModuleEntry) : readModule (moduleToJson m) = some m := by
  have fields : (moduleToJson m).recordFields ["module", "types"] =
      some [some (.text (some m.id)), some (.array (m.types.map typeToJson))] := by
    simp [moduleToJson, Json.recordFields]
  simp only [readModule, fields, bind, Option.bind, Json.field, Json.asText,
    readAllWritten readTypeWritten m.types]

theorem ofToJson (m : Manifest) : ofJson? m.toJson = some m := by
  have fields : m.toJson.recordFields ["modules"] = some [some (.array (m.modules.map moduleToJson))] := by
    simp [toJson, Json.recordFields]
  simp only [ofJson?, fields, bind, Option.bind, Json.field, readAllWritten readModuleWritten m.modules]

theorem printableMember (m : MemberEntry) : (memberToJson m).Printable :=
  .object (by simp) (by simp [Json.Printable.text])

theorem printableType (t : TypeEntry) : (typeToJson t).Printable := by
  have members := printableAll printableMember t.members
  rw [typeToJson]
  split
  · exact .object (by simp) (by simp [Json.Printable.text, Json.Printable.bool])
  · exact .object (by simp) (by simp [Json.Printable.text, Json.Printable.bool, members])

theorem printableModule (m : ModuleEntry) : (moduleToJson m).Printable := by
  have types := printableAll printableType m.types
  exact .object (by simp) (by simp [Json.Printable.text, types])

theorem printableManifest (m : Manifest) : m.toJson.Printable := by
  have modules := printableAll printableModule m.modules
  exact .object (by simp) (by simp [modules])

/-- Reading the text of a manifest gives the manifest back. -/
theorem textReadBack (m : Manifest) : ofText? m.text = some m := by
  rw [ofText?, text, Json.parsePretty (printableManifest m), Option.bind_some, ofToJson]

example : ofText? (Manifest.text ⟨[⟨"\"\x01", [⟨"é", true, []⟩]⟩]⟩) = some ⟨[⟨"\"\x01", [⟨"é", true, []⟩]⟩]⟩ := by
  decide +kernel

end MetadataIndex.Manifest
