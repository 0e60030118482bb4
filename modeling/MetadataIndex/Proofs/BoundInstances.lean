import MetadataIndex.Proofs.AttributeViews

/-! How the instances of a materialization are made. Each is bound to its target from the first
attachment of its type there, and a successful collection makes no two for one target and type. A
view keeps this: the groups of distinct types taken together repeat no target and type either. -/
namespace MetadataIndex
open Std
variable {φ : Type}

namespace Declaration

def leading? (d : Declaration φ) (type : TypeName) : Option (Attachment φ) :=
  d.attachments.find? fun a => a.type = type

end Declaration

def Instance.Made (i : Instance φ) : Prop :=
  ∃ a t, i.target.leading? i.type = some a ∧ i = (Instance.bind a i.target t).1

def Pick.Leading (p : Pick φ) : Prop := p.target.leading? p.attachment.type = some p.attachment

namespace Instance
variable {i : Instance φ}

theorem madeReceived (made : i.Made) : i.value.received = [i.target] := by
  obtain ⟨a, t, _, same⟩ := made
  rw [same, bindReceived]
  rfl

theorem bindAllMade {picked : List (Attachment φ × Declaration φ)} {t : Tally}
    (member : i ∈ (bindAll picked t).1) : ∃ pick ∈ picked, ∃ t, i = (bind pick.1 pick.2 t).1 := by
  induction picked generalizing t with
  | nil => cases member
  | cons first rest ih =>
      obtain ⟨a, d⟩ := first
      rcases List.mem_cons.1 member with same | later
      · exact ⟨(a, d), List.mem_cons_self .., t, same⟩
      · obtain ⟨pick, inside, made⟩ := ih later
        exact ⟨pick, List.mem_cons_of_mem _ inside, made⟩

end Instance

namespace Materializer
variable {m : Materializer φ} {key query : TypeName} {target : Declaration φ} {as passed : List (Attachment φ)}
  {ds : List (Declaration φ)} {calls : List (CollectCall φ)} {picks : OrderedSet (@Pick.id φ)} {p : Pick φ}
  {t : Tally} {instances : List (Instance φ)} {i : Instance φ}

structure Chosen (m : Materializer φ) (query : TypeName) (p : Pick φ) : Prop where
  leading : p.Leading
  accepted : m.assignable p.attachment.type query = .ok true

def PickedPassed (m : Materializer φ) (query : TypeName) (target : Declaration φ) (passed : List (Attachment φ))
    (picks : OrderedSet (@Pick.id φ)) : Prop :=
  ∀ b ∈ passed, m.assignable b.type query = .ok true → ⟨b.type, target.id⟩ ∈ picks.keys

theorem passedMore {a : Attachment φ} (done : m.PickedPassed query target passed picks)
    (picked : m.assignable a.type query = .ok true → ⟨a.type, target.id⟩ ∈ picks.keys) :
    m.PickedPassed query target (passed ++ [a]) picks := by
  intro b member accepted
  rcases List.mem_append.1 member with before | last
  · exact done b before accepted
  · have same := List.mem_singleton.1 last
    subst same
    exact picked accepted

theorem leadingFresh {a : Attachment φ} (whole : target.attachments = passed ++ a :: as)
    (done : m.PickedPassed query target passed picks) (accepted : m.assignable a.type query = .ok true)
    (fresh : ⟨a.type, target.id⟩ ∉ picks.keys) : Pick.Leading ⟨a, target⟩ := by
  have unseen : (passed.find? fun b => b.type = a.type) = none := by
    refine List.find?_eq_none.2 fun b before same => fresh ?_
    have type : b.type = a.type := by simpa using same
    rw [← type]
    exact done b before (type ▸ accepted)
  rw [Pick.Leading, Declaration.leading?, whole, List.find?_append, unseen]
  simp

theorem pickedAttachments (whole : target.attachments = passed ++ as)
    (done : m.PickedPassed query target passed picks)
    (member : p ∈ (m.pickAttachments query target picks as).1.toList) :
    p ∈ picks.toList ∨ p.target = target ∧ m.Chosen query p := by
  induction as generalizing passed picks with
  | nil => exact .inl member
  | cons a rest ih =>
      have wholeToo : target.attachments = (passed ++ [a]) ++ rest := by rw [whole, List.append_cons]
      rw [pickAttachments] at member
      split at member
      · exact .inl member
      · next refused =>
        refine ih wholeToo (passedMore done fun accepted => ?_) member
        rw [refused] at accepted
        cases accepted
      · next accepted =>
        have doneToo : m.PickedPassed query target (passed ++ [a]) (picks.insert ⟨a, target⟩) := by
          refine passedMore (fun b before fits => ?_) fun _ => OrderedSet.keysInsert.2 (.inr rfl)
          exact OrderedSet.keysInsert.2 (.inl (done b before fits))
        rcases ih wholeToo doneToo member with known | new
        · rcases OrderedSet.memInsert.1 known with old | ⟨same, fresh⟩
          · exact .inl old
          · subst same
            exact .inr ⟨rfl, leadingFresh whole done accepted fresh, accepted⟩
        · exact .inr new

theorem pickedDeclarations (member : p ∈ (m.pickDeclarations key query picks ds).1.toList) :
    p ∈ picks.toList ∨ p.target ∈ ds ∧ m.Chosen query p := by
  induction ds generalizing picks with
  | nil => exact .inl member
  | cons d rest ih =>
      have here : ∀ p ∈ (m.pickAttachments query d picks d.attachments).1.toList,
          p ∈ picks.toList ∨ p.target ∈ d :: rest ∧ m.Chosen query p := by
        intro p inside
        have whole : d.attachments = [] ++ d.attachments := rfl
        refine (pickedAttachments whole (fun b none => by cases none) inside).imp_right fun new => ?_
        exact ⟨new.1 ▸ List.mem_cons_self .., new.2⟩
      rw [pickDeclarations] at member
      split at member
      · exact .inl member
      · exact .inl member
      · split at member
        · next picked =>
          rw [picked] at here
          exact here p member
        · next picked =>
          rw [picked] at here
          rcases ih member with known | new
          · exact here p known
          · exact .inr ⟨List.mem_cons_of_mem _ new.1, new.2⟩

theorem pickedCalls (member : p ∈ (m.pickCalls picks calls).1.toList) :
    p ∈ picks.toList ∨ ∃ call ∈ calls, p.target ∈ call.marked ∧ m.Chosen call.query p := by
  induction calls generalizing picks with
  | nil => exact .inl member
  | cons call rest ih =>
      have here : ∀ p ∈ (m.pickDeclarations call.key call.query picks call.marked).1.toList,
          p ∈ picks.toList ∨ ∃ c ∈ call :: rest, p.target ∈ c.marked ∧ m.Chosen c.query p :=
        fun p inside => (pickedDeclarations inside).imp_right fun new => ⟨call, List.mem_cons_self .., new⟩
      rw [pickCalls] at member
      split at member
      · next picked =>
        rw [picked] at here
        exact here p member
      · next picked =>
        rw [picked] at here
        rcases ih member with known | ⟨other, inside, new⟩
        · exact here p known
        · exact .inr ⟨other, List.mem_cons_of_mem _ inside, new⟩

theorem collectPicks (ok : (m.collect calls t).1 = .ok instances) :
    instances = (Instance.bindAll ((m.pickCalls ∅ calls).1.toList.map fun p => (p.attachment, p.target)) t).1 := by
  unfold collect at ok
  obtain ⟨_, _, same⟩ := mapOk.1 ok
  exact same.symm

theorem collectNodup (ok : (m.collect calls t).1 = .ok instances) : (instances.map Instance.id).Nodup := by
  rw [collectPicks ok, bindAllIds, List.map_map]
  exact (m.pickCalls ∅ calls).1.keysNodup

theorem collectMade (ok : (m.collect calls t).1 = .ok instances) (member : i ∈ instances) :
    i.Made ∧ ∃ call ∈ calls, i.target ∈ call.marked ∧ m.assignable i.type call.query = .ok true := by
  rw [collectPicks ok] at member
  obtain ⟨pick, inside, t, same⟩ := Instance.bindAllMade member
  obtain ⟨p, picked, equal⟩ := List.mem_map.1 inside
  subst equal
  obtain ⟨call, called, marked, leading, accepted⟩ := (pickedCalls picked).resolve_left fun none => by cases none
  subst same
  exact ⟨⟨p.attachment, t, leading, rfl⟩, call, called, marked, accepted⟩

end Materializer

namespace AttributeGroups
variable {m : Materializer φ} {c : Contribution φ} {t : Tally} {groups : AttributeGroups φ} {i : Instance φ}
  {types : List TypeName}

theorem ofTypesNodup (ok : (build m c t).1 = .ok groups) (distinct : types.Nodup) :
    ((types.flatMap groups.ofType).map Instance.id).Nodup := by
  obtain ⟨instances, collected, same⟩ := buildCollects ok
  subst same
  rw [List.map_flatMap]
  refine List.nodup_flatMap.2 ⟨fun type _ => ?_, distinct.imp fun {a b} differ tag inA inB => ?_⟩
  · rw [ofTypeEq]
    exact (Materializer.collectNodup collected).sublist (List.filter_sublist.map _)
  · have typeA := ((buildShowsType ok).1 inA).2
    have typeB := ((buildShowsType ok).1 inB).2
    exact differ (typeA.symm.trans typeB)

theorem buildMade (ok : (build m c t).1 = .ok groups) (member : i ∈ types.flatMap groups.ofType) :
    i.type ∈ types ∧ i.Made ∧ ∃ mark ∈ c.marks.toList, mark.target = i.target := by
  obtain ⟨instances, collected, same⟩ := buildCollects ok
  subst same
  obtain ⟨type, listed, grouped⟩ := List.mem_flatMap.1 member
  rw [ofTypeEq] at grouped
  obtain ⟨inside, typed⟩ := List.mem_filter.1 grouped
  obtain ⟨made, call, called, marked, _⟩ := Materializer.collectMade collected inside
  refine ⟨of_decide_eq_true typed ▸ listed, made, ?_⟩
  obtain ⟨ds, key, query⟩ := call
  have viewed : query = key := Contribution.viewCall called
  subst viewed
  exact ⟨⟨_, i.target⟩, Contribution.memViewCalls.1 ⟨ds, called, marked⟩, rfl⟩

end AttributeGroups
end MetadataIndex
