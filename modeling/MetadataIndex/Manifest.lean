import MetadataIndex.Definition
import MetadataIndex.Grouping
import MetadataIndex.Json.Printer
import MetadataIndex.Json.Reader
import MetadataIndex.OrderedSet
import MetadataIndex.Total

/-! What a linker must preserve, grouped by module and owning type. Modules and types are sorted by
name, members stand in the order of their first root, overloads once. The written form leaves empty
member lists out, and reading takes entries as they are given. -/
namespace MetadataIndex
variable {φ : Type}

structure MemberEntry where
  kind : MemberKind
  name : String
  deriving DecidableEq, Repr

structure TypeEntry where
  name : TypeName
  wholeType : Bool
  members : List MemberEntry := []
  deriving DecidableEq, Repr

structure ModuleEntry where
  id : ModuleId
  types : List TypeEntry
  deriving DecidableEq, Repr

structure Manifest where
  modules : List ModuleEntry := []
  deriving DecidableEq, Repr

namespace MemberKind

def word : MemberKind → String
  | .field => "field"
  | .method => "method"
  | .property => "property"
  | .event => "event"
  | .constructor => "constructor"
  | .enumConstant => "enumconstant"

def all : List MemberKind := [.field, .method, .property, .event, .constructor, .enumConstant]

def ofWord? (text : String) : Option MemberKind := all.find? fun kind => kind.word = text

theorem ofWordWord (kind : MemberKind) : ofWord? kind.word = some kind := by
  cases kind <;> decide

theorem sameOfWord {kind other : MemberKind} (same : kind.word = other.word) : kind = other := by
  have h := ofWordWord kind
  rw [same, ofWordWord] at h
  exact (Option.some.inj h).symm

end MemberKind

namespace MemberEntry

def word (m : MemberEntry) : String := m.kind.word

instance : Ord MemberEntry := ⟨compareLex (compareOn name) (compareOn word)⟩

instance : Std.TransOrd MemberEntry :=
  inferInstanceAs (Std.TransCmp (compareLex (compareOn name) (compareOn word)))

instance : Std.LawfulEqOrd MemberEntry where
  compare_self := Std.compare_self
  eq_of_compare {a b} h := by
    obtain ⟨sameName, sameWord⟩ := compareLex_eq_eq.1 h
    have sameKind : a.kind = b.kind := MemberKind.sameOfWord (Std.LawfulEqOrd.eq_of_compare sameWord)
    cases a
    cases b
    simp_all [compareOn]

end MemberEntry

namespace Manifest

def memberOf (d : Declaration φ) : Option MemberEntry := d.member?.map fun m => ⟨m.kind, m.name⟩

def typeEntry (name : TypeName) (roots : List (Declaration φ)) : TypeEntry :=
  { name
    wholeType := roots.any Declaration.isType
    members := firstOccurrences (roots.filterMap memberOf) }

def moduleEntry (id : ModuleId) (roots : List (Declaration φ)) : ModuleEntry :=
  { id
    types := (groupBy (·.owner.name) roots).toList.map fun (name, roots) => typeEntry name roots }

def ofRoots (roots : List (Declaration φ)) : Manifest :=
  ⟨(groupBy (·.owner.owner) roots).toList.map fun (id, roots) => moduleEntry id roots⟩

def rootCount (m : Manifest) : Nat :=
  total (fun t => (if t.wholeType then 1 else 0) + t.members.length)
    (m.modules.flatMap ModuleEntry.types)

def memberToJson (m : MemberEntry) : Json :=
  .object [(some "kind", .text (some m.kind.word)), (some "name", .text (some m.name))]

def typeToJson (t : TypeEntry) : Json :=
  let fields := [(some "name", .text (some t.name)), (some "whole_type", .bool t.wholeType)]
  .object <|
    if t.members.isEmpty then fields
    else fields ++ [(some "members", .array (t.members.map memberToJson))]

def moduleToJson (m : ModuleEntry) : Json :=
  .object [(some "module", .text (some m.id)), (some "types", .array (m.types.map typeToJson))]

def toJson (m : Manifest) : Json := .object [(some "modules", .array (m.modules.map moduleToJson))]

def text (m : Manifest) : String := m.toJson.pretty

def readKind : Json → Option MemberKind
  | .text (some word) => MemberKind.ofWord? word
  | .object [(some word, .null)] => MemberKind.ofWord? word
  | _ => none

def readMember (value : Json) : Option MemberEntry := do
  match ← value.recordFields ["kind", "name"] with
  | [kind, name] =>
      let kind ← Json.field readKind kind
      let name ← Json.field Json.asText name
      some ⟨kind, name⟩
  | _ => none

def readAll {α : Type} (read : Json → Option α) (value : Json) : Option (List α) := do
  let items ← value.asArray
  items.mapM read

def readType (value : Json) : Option TypeEntry := do
  match ← value.recordFields ["name", "whole_type", "members"] with
  | [name, wholeType, members] =>
      let name ← Json.field Json.asText name
      let wholeType ← Json.field Json.asBool wholeType
      let members ← Json.fieldOr [] (readAll readMember) members
      some ⟨name, wholeType, members⟩
  | _ => none

def readModule (value : Json) : Option ModuleEntry := do
  match ← value.recordFields ["module", "types"] with
  | [id, types] =>
      let id ← Json.field Json.asText id
      let types ← Json.field (readAll readType) types
      some ⟨id, types⟩
  | _ => none

def ofJson? (value : Json) : Option Manifest := do
  match ← value.recordFields ["modules"] with
  | [modules] =>
      let modules ← Json.field (readAll readModule) modules
      some ⟨modules⟩
  | _ => none

def ofText? (input : String) : Option Manifest := (Json.parse input).bind ofJson?

end Manifest
end MetadataIndex
