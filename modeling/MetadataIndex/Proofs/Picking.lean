import MetadataIndex.AttributeGroups
import MetadataIndex.Proofs.Assignable
import MetadataIndex.Proofs.Union

/-! What a materialization picks. A collection that succeeds gives one instance for each declaration
and each of its attached types assignable to a query, nothing else, and no call contradicts its
metadata. It fails only for a contradiction, which it names, or for a supertype walk that met its limit. -/
namespace MetadataIndex
open Std
variable {φ : Type}

namespace Materializer
variable {m : Materializer φ} {key query type : TypeName} {target d : Declaration φ} {as : List (Attachment φ)}
  {ds : List (Declaration φ)} {calls : List (CollectCall φ)} {call : CollectCall φ}
  {picks after : OrderedSet (@Pick.id φ)} {tag : Tag} {t : Tally} {e : QueryError}

def Undecided (e : QueryError) : Prop := ∃ candidate target, e = .undecided candidate target

def Stuck (m : Materializer φ) (e : QueryError) : Prop :=
  ∃ candidate target, e = .undecided candidate target ∧ m.types.assignable? m.walkLimit candidate target = none

theorem undecidedOf (stuck : m.Stuck e) : Undecided e := by
  obtain ⟨candidate, target, same, _⟩ := stuck
  exact ⟨candidate, target, same⟩

theorem assignableOk {answer : Bool} (ok : m.assignable type key = .ok answer) :
    answer = true ↔ m.types.AssignableTo type ⟨key, []⟩ := by
  unfold assignable at ok
  split at ok
  · cases ok
  · next found decided =>
    cases ok
    exact Universe.assignableIff decided

theorem assignableAccepted (ok : m.assignable type key = .ok true) :
    m.types.assignable? m.walkLimit type ⟨key, []⟩ = some true := by
  unfold assignable at ok
  split at ok
  · cases ok
  · next found decided =>
    cases ok
    exact decided

theorem assignableFails (failed : m.assignable type key = .error e) : m.Stuck e := by
  unfold assignable at failed
  split at failed
  · next cut =>
    cases failed
    exact ⟨type, ⟨key, []⟩, rfl, cut⟩
  · cases failed

theorem assignableCut (cut : m.types.assignable? m.walkLimit type ⟨key, []⟩ = none) :
    m.assignable type key = .error (.undecided type ⟨key, []⟩) := by
  rw [assignable, cut]

def Carries (u : Universe φ) (key : TypeName) (d : Declaration φ) : Prop :=
  ∃ a ∈ d.attachments, u.AssignableTo a.type ⟨key, []⟩

theorem carriesOk {answer : Bool} (ok : m.carries key as = .ok answer) :
    answer = true ↔ ∃ a ∈ as, m.types.AssignableTo a.type ⟨key, []⟩ := by
  induction as with
  | nil =>
      cases ok
      simp
  | cons a rest ih =>
      rw [carries] at ok
      split at ok
      · cases ok
      · next first =>
        cases ok
        exact ⟨fun _ => ⟨a, List.mem_cons_self .., (assignableOk first).1 rfl⟩, fun _ => rfl⟩
      · next first =>
        have unfit : ¬ m.types.AssignableTo a.type ⟨key, []⟩ := fun fits =>
          Bool.false_ne_true ((assignableOk first).2 fits)
        rw [ih ok]
        simp only [List.mem_cons, exists_eq_or_imp, unfit, false_or]

theorem carriesFails (failed : m.carries key as = .error e) : m.Stuck e := by
  induction as with
  | nil => cases failed
  | cons a rest ih =>
      rw [carries] at failed
      split at failed
      · next first =>
        cases failed
        exact assignableFails first
      · cases failed
      · exact ih failed

def Picks (u : Universe φ) (query : TypeName) (d : Declaration φ) (tag : Tag) : Prop :=
  ∃ a ∈ d.attachments, u.AssignableTo a.type ⟨query, []⟩ ∧ tag = ⟨a.type, d.id⟩

theorem pickAttachmentsOk (ok : m.pickAttachments query target picks as = (after, .ok ())) :
    tag ∈ after.keys ↔ tag ∈ picks.keys ∨
      ∃ a ∈ as, m.types.AssignableTo a.type ⟨query, []⟩ ∧ tag = ⟨a.type, target.id⟩ := by
  induction as generalizing picks with
  | nil =>
      cases ok
      simp
  | cons a rest ih =>
      rw [pickAttachments] at ok
      split at ok
      · cases ok
      · next first =>
        have unfit : ¬ m.types.AssignableTo a.type ⟨query, []⟩ := fun fits =>
          Bool.false_ne_true ((assignableOk first).2 fits)
        rw [ih ok]
        simp only [List.mem_cons, exists_eq_or_imp, unfit, false_and, false_or]
      · next first =>
        have fits := (assignableOk first).1 rfl
        rw [ih ok, OrderedSet.keysInsert, or_assoc]
        simp only [List.mem_cons, exists_eq_or_imp, fits, true_and, Pick.id]

theorem pickAttachmentsFails (failed : m.pickAttachments query target picks as = (after, .error e)) :
    m.Stuck e := by
  induction as generalizing picks with
  | nil => cases failed
  | cons a rest ih =>
      rw [pickAttachments] at failed
      split at failed
      · next first =>
        cases failed
        exact assignableFails first
      · exact ih failed
      · exact ih failed

theorem pickDeclarationsOk (ok : m.pickDeclarations key query picks ds = (after, .ok ())) :
    tag ∈ after.keys ↔ tag ∈ picks.keys ∨ ∃ d ∈ ds, Picks m.types query d tag := by
  induction ds generalizing picks with
  | nil =>
      cases ok
      simp
  | cons d rest ih =>
      rw [pickDeclarations] at ok
      split at ok
      · cases ok
      · cases ok
      · split at ok
        · cases ok
        · next mid picked =>
          rw [ih ok, pickAttachmentsOk picked, or_assoc]
          simp only [List.mem_cons, exists_eq_or_imp, Picks]

theorem pickDeclarationsCarry (ok : m.pickDeclarations key query picks ds = (after, .ok ())) :
    ∀ d ∈ ds, Carries m.types key d := by
  induction ds generalizing picks with
  | nil => simp
  | cons d rest ih =>
      rw [pickDeclarations] at ok
      split at ok
      · cases ok
      · cases ok
      · next carried =>
        split at ok
        · cases ok
        · intro other member
          rcases List.mem_cons.1 member with same | later
          · exact same ▸ (carriesOk carried).1 rfl
          · exact ih ok other later

theorem pickDeclarationsFails (failed : m.pickDeclarations key query picks ds = (after, .error e)) :
    (∃ d ∈ ds, ¬ Carries m.types key d ∧ e = .metadataSkew d.text key) ∨ m.Stuck e := by
  induction ds generalizing picks with
  | nil => cases failed
  | cons d rest ih =>
      rw [pickDeclarations] at failed
      split at failed
      · next first =>
        cases failed
        exact .inr (carriesFails first)
      · next first =>
        cases failed
        have lacks : ¬ Carries m.types key d := fun carried => Bool.false_ne_true ((carriesOk first).2 carried)
        exact .inl ⟨d, List.mem_cons_self .., lacks, rfl⟩
      · split at failed
        · next picked =>
          cases failed
          exact .inr (pickAttachmentsFails picked)
        · refine (ih failed).imp_left fun later => ?_
          obtain ⟨other, member, lacks⟩ := later
          exact ⟨other, List.mem_cons_of_mem _ member, lacks⟩

def Sound (u : Universe φ) (calls : List (CollectCall φ)) : Prop :=
  ∀ call ∈ calls, ∀ d ∈ call.marked, Carries u call.key d

def Contradicts (u : Universe φ) (calls : List (CollectCall φ)) (e : QueryError) : Prop :=
  ∃ call ∈ calls, ∃ d ∈ call.marked, ¬ Carries u call.key d ∧ e = .metadataSkew d.text call.key

theorem soundAgrees {u : Universe φ} (sound : Sound u calls) : ¬ Contradicts u calls e := by
  intro contradicts
  obtain ⟨call, member, d, marked, lacks, _⟩ := contradicts
  exact lacks (sound call member d marked)

theorem pickCallsOk (ok : m.pickCalls picks calls = (after, .ok ())) :
    tag ∈ after.keys ↔ tag ∈ picks.keys ∨
      ∃ call ∈ calls, ∃ d ∈ call.marked, Picks m.types call.query d tag := by
  induction calls generalizing picks with
  | nil =>
      cases ok
      simp
  | cons call rest ih =>
      rw [pickCalls] at ok
      split at ok
      · cases ok
      · next mid picked =>
        rw [ih ok, pickDeclarationsOk picked, or_assoc]
        simp only [List.mem_cons, exists_eq_or_imp]

theorem pickCallsSound (ok : m.pickCalls picks calls = (after, .ok ())) : Sound m.types calls := by
  induction calls generalizing picks with
  | nil => simp [Sound]
  | cons call rest ih =>
      rw [pickCalls] at ok
      split at ok
      · cases ok
      · next mid picked =>
        intro other member
        rcases List.mem_cons.1 member with same | later
        · exact same ▸ pickDeclarationsCarry picked
        · exact ih ok other later

theorem pickCallsFails (failed : m.pickCalls picks calls = (after, .error e)) :
    Contradicts m.types calls e ∨ m.Stuck e := by
  induction calls generalizing picks with
  | nil => cases failed
  | cons call rest ih =>
      rw [pickCalls] at failed
      split at failed
      · next picked =>
        cases failed
        exact (pickDeclarationsFails picked).imp_left fun named => ⟨call, List.mem_cons_self .., named⟩
      · refine (ih failed).imp_left fun later => ?_
        obtain ⟨other, member, named⟩ := later
        exact ⟨other, List.mem_cons_of_mem _ member, named⟩

theorem bindAllIds (picked : List (Attachment φ × Declaration φ)) (t : Tally) :
    (Instance.bindAll picked t).1.map Instance.id = picked.map fun p => ⟨p.1.type, p.2.id⟩ := by
  induction picked generalizing t with
  | nil => rfl
  | cons first rest ih =>
      obtain ⟨a, d⟩ := first
      rw [Instance.bindAll, List.map_cons, List.map_cons, ih]
      rfl

theorem collectOk {instances : List (Instance φ)} (ok : (m.collect calls t).1 = .ok instances) :
    tag ∈ instances.map Instance.id ↔
      ∃ call ∈ calls, ∃ d ∈ call.marked, Picks m.types call.query d tag := by
  cases outcome : m.pickCalls ∅ calls with
  | mk picks result =>
      simp only [collect, outcome] at ok
      cases result with
      | error e => cases ok
      | ok done =>
          cases ok
          rw [bindAllIds, List.map_map]
          change tag ∈ picks.keys ↔ _
          rw [pickCallsOk outcome]
          simp

theorem collectTags (t other : Tally) :
    (m.collect calls t).1.map (List.map Instance.id) = (m.collect calls other).1.map (List.map Instance.id) := by
  cases outcome : m.pickCalls ∅ calls with
  | mk picks result =>
      simp only [collect, outcome]
      cases result with
      | error e => rfl
      | ok done =>
          simp only [Except.map]
          rw [bindAllIds, bindAllIds]

theorem collectSound {instances : List (Instance φ)} (ok : (m.collect calls t).1 = .ok instances) :
    Sound m.types calls := by
  cases outcome : m.pickCalls ∅ calls with
  | mk picks result =>
      simp only [collect, outcome] at ok
      cases result with
      | error e => cases ok
      | ok done => exact pickCallsSound outcome

theorem collectFails (failed : (m.collect calls t).1 = .error e) :
    Contradicts m.types calls e ∨ m.Stuck e := by
  cases outcome : m.pickCalls ∅ calls with
  | mk picks result =>
      simp only [collect, outcome] at failed
      cases result with
      | ok done => cases failed
      | error cause =>
          cases failed
          exact pickCallsFails outcome

theorem soundExtends {u v : Universe φ} (known : u.Extends v) (sound : Sound u calls) : Sound v calls := by
  intro call member d marked
  obtain ⟨a, attached, fits⟩ := sound call member d marked
  exact ⟨a, attached, Universe.assignableExtends known fits⟩

end Materializer
end MetadataIndex
