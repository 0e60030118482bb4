import MetadataIndex.Reference
import Std.Data.TreeMap.Lemmas

/-! Live metadata of a loaded module: type definitions with their members and attachments, and the
declarations that an attachment can be read from. What an attachment makes its values from is a
parameter of all metadata; a `Recipe` makes plain, routed or counted ones. A declaration holds the
definition it was read from; two declarations are the same one when module, owner name and member
ordinal agree. -/
namespace MetadataIndex
variable {φ : Type}

inductive TypeKind where
  | classType
  | structType
  | interfaceType
  | enumType
  | annotationType
  deriving DecidableEq, Repr

inductive MemberKind where
  | field
  | method
  | property
  | event
  | constructor
  | enumConstant
  deriving DecidableEq, Repr

inductive Recipe where
  | plain (preserve : Bool)
  | route (path : String)
  | counter
  deriving DecidableEq, Repr

/-- An annotation as written on a declaration; `place` tells two written ones apart. -/
structure Attachment (φ : Type := Recipe) where
  type : TypeName
  recipe : φ
  place : Nat
  deriving DecidableEq, Repr

structure Member (φ : Type := Recipe) where
  name : String
  kind : MemberKind
  attachments : List (Attachment φ) := []
  deriving DecidableEq, Repr

structure TypeDef (φ : Type := Recipe) where
  name : TypeName
  owner : ModuleId
  kind : TypeKind
  parameters : List String := []
  base : Option TypeRef := none
  interfaces : List TypeRef := []
  members : List (Member φ) := []
  attachments : List (Attachment φ) := []
  /-- Present when subtypes are collected; true when the collected ones must be kept. -/
  collects : Option Bool := none
  retrievable : Bool := false
  deriving DecidableEq, Repr

namespace TypeDef

def isGeneric (d : TypeDef φ) : Bool := !d.parameters.isEmpty

def selfRef (d : TypeDef φ) : TypeRef := ⟨d.name, d.parameters.map .parameter⟩

def supertypes (d : TypeDef φ) : List TypeRef := d.base.toList ++ d.interfaces

def supertypeNames (d : TypeDef φ) : List TypeName := d.supertypes.map TypeRef.name

def supertypesAt (d : TypeDef φ) (arguments : List Argument) : List TypeRef :=
  d.supertypes.map (TypeRef.substitute (.ofTable (Bindings.tableOf (d.parameters.zip arguments))))

def ordinalsNamed (d : TypeDef φ) (name : String) : List Nat :=
  (d.members.zipIdx.filter fun entry => entry.1.name = name).map Prod.snd

end TypeDef

structure Declaration (φ : Type := Recipe) where
  owner : TypeDef φ
  ordinal : Option Nat := none
  deriving DecidableEq, Repr

structure DeclarationId where
  owner : ModuleId
  type : TypeName
  ordinal : Option Nat
  deriving DecidableEq, Repr

structure Tag where
  type : TypeName
  target : DeclarationId
  deriving DecidableEq, Repr

namespace DeclarationId

instance : Ord DeclarationId :=
  ⟨compareLex (compareOn owner) (compareLex (compareOn type) (compareOn ordinal))⟩

instance : Std.TransOrd DeclarationId :=
  inferInstanceAs (Std.TransCmp
    (compareLex (compareOn owner) (compareLex (compareOn type) (compareOn ordinal))))

instance : Std.LawfulEqOrd DeclarationId where
  compare_self := Std.compare_self
  eq_of_compare {a b} h := by
    obtain ⟨sameOwner, h⟩ := compareLex_eq_eq.1 h
    obtain ⟨sameType, sameOrdinal⟩ := compareLex_eq_eq.1 h
    cases a
    cases b
    simp_all [compareOn]

end DeclarationId

namespace Tag

instance : Ord Tag := ⟨compareLex (compareOn type) (compareOn target)⟩

instance : Std.TransOrd Tag := inferInstanceAs (Std.TransCmp (compareLex (compareOn type) (compareOn target)))

instance : Std.LawfulEqOrd Tag where
  compare_self := Std.compare_self
  eq_of_compare {a b} h := by
    obtain ⟨sameType, sameTarget⟩ := compareLex_eq_eq.1 h
    cases a
    cases b
    simp_all [compareOn]

end Tag

namespace Declaration

def ofMember? (owner : TypeDef φ) (ordinal : Nat) : Option (Declaration φ) :=
  if ordinal < owner.members.length then some ⟨owner, some ordinal⟩ else none

def id (d : Declaration φ) : DeclarationId := ⟨d.owner.owner, d.owner.name, d.ordinal⟩

def isType (d : Declaration φ) : Bool := d.ordinal.isNone

def member? (d : Declaration φ) : Option (Member φ) := d.ordinal.bind fun i => d.owner.members[i]?

def simpleName (d : Declaration φ) : String :=
  match d.member? with
  | some m => m.name
  | none => d.owner.name.simpleName

def attachments (d : Declaration φ) : List (Attachment φ) :=
  match d.member? with
  | some m => m.attachments
  | none => d.owner.attachments

def text (d : Declaration φ) : String :=
  match d.member? with
  | some m => d.owner.name ++ "." ++ m.name
  | none => d.owner.name

def inspected (d : Declaration φ) : String := "Declaration(" ++ d.text ++ ")"

end Declaration

def TypeDef.declarationsNamed (d : TypeDef φ) (name : String) : List (Declaration φ) :=
  (d.ordinalsNamed name).map fun i => ⟨d, some i⟩

theorem TypeDef.memOrdinalsNamed {d : TypeDef φ} {name : String} {i : Nat} :
    i ∈ d.ordinalsNamed name ↔ ∃ m, d.members[i]? = some m ∧ m.name = name := by
  simp only [ordinalsNamed, List.mem_map, List.mem_filter, decide_eq_true_eq]
  constructor
  · rintro ⟨⟨m, _⟩, ⟨member, named⟩, rfl⟩
    exact ⟨m, List.mk_mem_zipIdx_iff_getElem?.1 member, named⟩
  · rintro ⟨m, found, named⟩
    exact ⟨(m, i), ⟨List.mk_mem_zipIdx_iff_getElem?.2 found, named⟩, rfl⟩

end MetadataIndex
