import MetadataIndex.Manifest
import MetadataIndex.Proofs.FirstOccurrences
import Mathlib.Data.Finset.Card
import Mathlib.Data.List.Forall2
import Mathlib.Data.String.Basic

/-! What a manifest made of roots holds. Modules and types are filed in ascending order, an entry stands
where a root belongs, and each item of a root is kept once: a type as a whole, or a member by its kind and
name. Roots in another order give the same entries, with their members in another order at most. -/
namespace MetadataIndex
open Std
variable {φ : Type}

structure RootItem where
  module : ModuleId
  type : TypeName
  member : Option MemberEntry
  deriving DecidableEq, Repr

namespace TypeEntry

def items (module : ModuleId) (t : TypeEntry) : List RootItem :=
  (if t.wholeType then [⟨module, t.name, none⟩] else []) ++ t.members.map fun x => ⟨module, t.name, some x⟩

structure Reordered (t s : TypeEntry) : Prop where
  name : t.name = s.name
  wholeType : t.wholeType = s.wholeType
  members : t.members.Perm s.members

end TypeEntry

namespace ModuleEntry

def items (e : ModuleEntry) : List RootItem := e.types.flatMap fun t => t.items e.id

structure Reordered (e f : ModuleEntry) : Prop where
  id : e.id = f.id
  types : List.Forall₂ TypeEntry.Reordered e.types f.types

end ModuleEntry

namespace Manifest
variable {roots others : List (Declaration φ)} {d : Declaration φ} {id : ModuleId} {name : TypeName} {x : MemberEntry}
  {e : ModuleEntry} {t : TypeEntry} {item : RootItem}

def items (m : Manifest) : List RootItem := m.modules.flatMap ModuleEntry.items

def Reordered (m n : Manifest) : Prop := List.Forall₂ ModuleEntry.Reordered m.modules n.modules

def ofType (roots : List (Declaration φ)) (id : ModuleId) (name : TypeName) : List (Declaration φ) :=
  (roots.filter (·.owner.owner = id)).filter (·.owner.name = name)

section Entries
variable (filed : e ∈ (ofRoots roots).modules) (listed : t ∈ e.types)
include filed listed

end Entries

end Manifest
end MetadataIndex
