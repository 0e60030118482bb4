import MetadataIndex.Proofs.AttributeViews
import MetadataIndex.Proofs.WalkLimits

/-! When a collection or a narrowing succeeds, told without the order of its calls. A collection
succeeds when every marked declaration is ready for its call, and a narrowing when every candidate is
decided; one that fails met the limit of a walk. -/
namespace MetadataIndex
open Std
variable {φ : Type}

namespace Materializer
variable {m : Materializer φ} {key query : TypeName} {target : Declaration φ} {as : List (Attachment φ)}
  {ds : List (Declaration φ)} {calls : List (CollectCall φ)} {picks after : OrderedSet (@Pick.id φ)} {t : Tally}
  {e : QueryError}

structure Ready (m : Materializer φ) (key query : TypeName) (d : Declaration φ) : Prop where
  carries : m.carries key d.attachments = .ok true
  decided : ∀ a ∈ d.attachments, ∃ answer, m.assignable a.type query = .ok answer

theorem pickAttachmentsDone :
    (m.pickAttachments query target picks as).2 = .ok () ↔
      ∀ a ∈ as, ∃ answer, m.assignable a.type query = .ok answer := by
  induction as generalizing picks with
  | nil => simp [pickAttachments]
  | cons a rest ih =>
      rw [pickAttachments]
      cases decided : m.assignable a.type query with
      | error e => simp [decided]
      | ok answer =>
          cases answer with
          | true => simp [ih, decided]
          | false => simp [ih, decided]

theorem pickDeclarationsDone :
    (m.pickDeclarations key query picks ds).2 = .ok () ↔ ∀ d ∈ ds, m.Ready key query d := by
  induction ds generalizing picks with
  | nil => simp [pickDeclarations]
  | cons d rest ih =>
      rw [pickDeclarations, List.forall_mem_cons]
      cases carried : m.carries key d.attachments with
      | error e =>
          refine iff_of_false (fun done => by cases done) fun ready => ?_
          rw [ready.1.carries] at carried
          cases carried
      | ok answer =>
          cases answer with
          | false =>
              refine iff_of_false (fun done => by cases done) fun ready => ?_
              rw [ready.1.carries] at carried
              cases carried
          | true =>
              have picked : (m.pickAttachments query d picks d.attachments).2 = .ok () ↔
                  ∀ a ∈ d.attachments, ∃ answer, m.assignable a.type query = .ok answer := pickAttachmentsDone
              cases outcome : m.pickAttachments query d picks d.attachments with
              | mk next result =>
                  rw [outcome] at picked
                  cases result with
                  | error e =>
                      refine iff_of_false (fun done => by cases done) fun ready => ?_
                      cases picked.2 ready.1.decided
                  | ok _ =>
                      simp only [ih]
                      exact ⟨fun others => ⟨⟨carried, picked.1 rfl⟩, others⟩, And.right⟩

theorem pickCallsDone :
    (m.pickCalls picks calls).2 = .ok () ↔ ∀ call ∈ calls, ∀ d ∈ call.marked, m.Ready call.key call.query d := by
  induction calls generalizing picks with
  | nil => simp [pickCalls]
  | cons call rest ih =>
      rw [pickCalls, List.forall_mem_cons]
      have picked : (m.pickDeclarations call.key call.query picks call.marked).2 = .ok () ↔
          ∀ d ∈ call.marked, m.Ready call.key call.query d := pickDeclarationsDone
      cases outcome : m.pickDeclarations call.key call.query picks call.marked with
      | mk next result =>
          rw [outcome] at picked
          cases result with
          | error e => exact iff_of_false (fun done => by cases done) fun ready => by cases picked.2 ready.1
          | ok _ =>
              simp only [ih]
              exact ⟨fun others => ⟨picked.1 rfl, others⟩, And.right⟩

theorem collectDone :
    (∃ instances, (m.collect calls t).1 = .ok instances) ↔
      ∀ call ∈ calls, ∀ d ∈ call.marked, m.Ready call.key call.query d := by
  have done : (m.pickCalls ∅ calls).2 = .ok () ↔
      ∀ call ∈ calls, ∀ d ∈ call.marked, m.Ready call.key call.query d := pickCallsDone
  rw [← done]
  cases outcome : m.pickCalls ∅ calls with
  | mk picks result =>
      simp only [collect, outcome]
      cases result with
      | error e =>
          refine iff_of_false (fun done => ?_) fun ok => by cases ok
          obtain ⟨_, ok⟩ := done
          cases ok
      | ok _ => exact ⟨fun _ => rfl, fun _ => ⟨_, rfl⟩⟩

theorem decidedUnstuck (enough : m.types.Suffices m.walkLimit) : ¬ m.Stuck e := by
  intro ⟨candidate, target, _, stuck⟩
  obtain ⟨answer, decided⟩ := enough candidate target
  cases stuck.symm.trans decided

theorem collectContradicts (enough : m.types.Suffices m.walkLimit) (failed : (m.collect calls t).1 = .error e) :
    Contradicts m.types calls e := (collectFails failed).resolve_right (decidedUnstuck enough)

end Materializer

namespace AttributeGroups
variable {m : Materializer φ} {c : Contribution φ} {t : Tally} {e : QueryError}

theorem buildDone :
    (∃ groups, (build m c t).1 = .ok groups) ↔
      ∀ mark ∈ c.marks.toList, m.Ready mark.marker mark.marker mark.target := by
  have collected : (∃ groups, (build m c t).1 = .ok groups) ↔
      ∃ instances, (m.collect (calls c) t).1 = .ok instances := by
    change (∃ groups, (m.collect (calls c) t).1.map ofInstances = .ok groups) ↔ _
    constructor
    · intro ⟨groups, ok⟩
      obtain ⟨instances, done, _⟩ := mapOk.1 ok
      exact ⟨instances, done⟩
    · intro ⟨instances, done⟩
      exact ⟨_, mapOk.2 ⟨instances, done, rfl⟩⟩
  rw [collected, Materializer.collectDone]
  constructor
  · intro ready mark member
    obtain ⟨ds, call, marked⟩ := Contribution.memViewCalls.2 member
    exact ready _ call _ marked
  · intro ready ⟨ds, key, query⟩ call d marked
    have same : query = key := Contribution.viewCall call
    subst same
    exact ready ⟨query, d⟩ (Contribution.memViewCalls.1 ⟨ds, call, marked⟩)

theorem buildFailed (failed : (m.pickCalls ∅ (calls c)).2 = .error e) : (build m c t).1 = .error e := by
  change (((m.pickCalls ∅ (calls c)).2.map fun _ => _).map ofInstances) = _
  rw [failed]
  rfl

end AttributeGroups

namespace SubtypeSearch
variable {s : SubtypeSearch φ} {target : TypeRef} {candidates : List TypeName} {e : QueryError}

theorem keepStuck (failed : s.keepAssignable target candidates = .error e) :
    ∃ t ∈ candidates, s.types.assignable? s.walkLimit t target = none ∧ e = .undecided t target := by
  induction candidates with
  | nil => cases failed
  | cons first rest ih =>
      rw [keepAssignable] at failed
      split at failed
      · next undecided =>
        cases failed
        exact ⟨first, List.mem_cons_self .., undecided, rfl⟩
      · cases outcome : s.keepAssignable target rest with
        | error cause =>
            rw [outcome] at failed
            cases failed
            obtain ⟨t, member, stuck⟩ := ih outcome
            exact ⟨t, List.mem_cons_of_mem _ member, stuck⟩
        | ok kept =>
            rw [outcome] at failed
            cases failed

theorem keepFails (failed : s.keepAssignable target candidates = .error e) : Materializer.Undecided e := by
  obtain ⟨t, _, _, same⟩ := keepStuck failed
  exact ⟨t, target, same⟩

end SubtypeSearch
end MetadataIndex
