import MetadataIndex.Assignability
import MetadataIndex.Contribution
import MetadataIndex.Error
import MetadataIndex.Instance

/-! Turning marked declarations into bound annotation instances. A call collects, for every
declaration marked under a key, the attachments assignable to a query, each type once for a
declaration. A declaration without an attachment assignable to the key contradicts the index.
What to make is picked first; the picks made before a contradiction are still carried out. -/
namespace MetadataIndex
variable {φ : Type}

structure Pick (φ : Type := Recipe) where
  attachment : Attachment φ
  target : Declaration φ
  deriving DecidableEq, Repr

def Pick.id (p : Pick φ) : Tag := ⟨p.attachment.type, p.target.id⟩

structure CollectCall (φ : Type := Recipe) where
  marked : List (Declaration φ)
  key : TypeName
  query : TypeName

def Contribution.calls (c : Contribution φ) (keys : List TypeName) (query : TypeName) :
    List (CollectCall φ) :=
  let marks := c.marksByMarker
  keys.map fun key => ⟨(marks.getD key []).map Mark.target, key, query⟩

theorem Contribution.callsEq (c : Contribution φ) (keys : List TypeName) (query : TypeName) :
    c.calls keys query = keys.map fun key => ⟨c.markedWith key, key, query⟩ := rfl

structure Materializer (φ : Type := Recipe) where
  types : Universe φ
  walkLimit : Nat

namespace Materializer

abbrev Picking (φ : Type) := OrderedSet (@Pick.id φ) × Except QueryError Unit

def assignable (m : Materializer φ) (type : TypeName) (target : TypeName) : Except QueryError Bool :=
  match m.types.assignable? m.walkLimit type ⟨target, []⟩ with
  | none => .error (.undecided type ⟨target, []⟩)
  | some answer => .ok answer

def carries (m : Materializer φ) (key : TypeName) : List (Attachment φ) → Except QueryError Bool
  | [] => .ok false
  | a :: rest =>
      match m.assignable a.type key with
      | .error e => .error e
      | .ok true => .ok true
      | .ok false => m.carries key rest

def pickAttachments (m : Materializer φ) (query : TypeName) (target : Declaration φ)
    (picks : OrderedSet (@Pick.id φ)) : List (Attachment φ) → Picking φ
  | [] => (picks, .ok ())
  | a :: rest =>
      match m.assignable a.type query with
      | .error e => (picks, .error e)
      | .ok false => m.pickAttachments query target picks rest
      | .ok true => m.pickAttachments query target (picks.insert ⟨a, target⟩) rest

def pickDeclarations (m : Materializer φ) (key query : TypeName) (picks : OrderedSet (@Pick.id φ)) :
    List (Declaration φ) → Picking φ
  | [] => (picks, .ok ())
  | target :: rest =>
      match m.carries key target.attachments with
      | .error e => (picks, .error e)
      | .ok false => (picks, .error (.metadataSkew target.text key))
      | .ok true =>
          match m.pickAttachments query target picks target.attachments with
          | (picks, .error e) => (picks, .error e)
          | (picks, .ok ()) => m.pickDeclarations key query picks rest

def pickCalls (m : Materializer φ) (picks : OrderedSet (@Pick.id φ)) : List (CollectCall φ) → Picking φ
  | [] => (picks, .ok ())
  | call :: rest =>
      match m.pickDeclarations call.key call.query picks call.marked with
      | (picks, .error e) => (picks, .error e)
      | (picks, .ok ()) => m.pickCalls picks rest

def collect (m : Materializer φ) (calls : List (CollectCall φ)) (t : Tally) :
    Except QueryError (List (Instance φ)) × Tally :=
  let (picks, outcome) := m.pickCalls ∅ calls
  let (instances, t) := Instance.bindAll (picks.toList.map fun p => (p.attachment, p.target)) t
  (outcome.map fun _ => instances, t)

end Materializer
end MetadataIndex
