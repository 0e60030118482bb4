import MetadataIndex.Proofs.Picking
import MetadataIndex.Proofs.RegistryConsistency

/-! What a built attribute view shows: under each mark of the contribution, the declaration with
those of its attached types that are assignable to the marker. Grouping by type loses nothing, so
the group of a type is what the view shows of that type. -/
namespace MetadataIndex
open Std Relation
variable {φ : Type}

namespace AttributeGroups
variable {instances : List (Instance φ)} {i : Instance φ} {type : TypeName}

theorem findGroup :
    (ofInstances instances).groups.find? type =
      if type ∈ instances.map Instance.type then some ⟨type, instances.filter fun i => i.type = type⟩
      else none := by
  have chosen : ((fun g : AttributeGroup φ => decide (g.type = type)) ∘
      fun name => (⟨name, (groupBy Instance.type instances).getD name []⟩ : AttributeGroup φ)) =
        fun name => decide (name = type) := rfl
  unfold ofInstances
  simp only
  rw [OrderedSet.ofList, OrderedSet.findInsertAll, OrderedSet.findEmpty, Option.none_or, List.find?_map, chosen]
  split
  · next member =>
    have found : ((firstOccurrences (instances.map Instance.type)).find? fun name => name = type) = some type := by
      cases search : (firstOccurrences (instances.map Instance.type)).find? fun name => name = type with
      | none => simpa using List.find?_eq_none.1 search type (memFirstOccurrences.2 member)
      | some name =>
          have same : name = type := by simpa using List.find?_some search
          rw [same]
    rw [found, Option.map_some, groupOf]
  · next absent =>
    have missing : ((firstOccurrences (instances.map Instance.type)).find? fun name => name = type) = none := by
      refine List.find?_eq_none.2 fun name member same => absent ?_
      rw [← show name = type by simpa using same]
      exact memFirstOccurrences.1 member
    rw [missing]
    rfl

theorem ofTypeEq : (ofInstances instances).ofType type = instances.filter fun i => i.type = type := by
  rw [ofType, findGroup]
  split
  · rfl
  · next absent =>
    refine (List.filter_eq_nil_iff.2 fun i member same => absent ?_).symm
    exact List.mem_map.2 ⟨i, member, by simpa using same⟩

theorem memInstances : i ∈ (ofInstances instances).instances ↔ i ∈ instances := by
  constructor
  · intro member
    obtain ⟨g, inside, grouped⟩ := List.mem_flatMap.1 member
    have found := (OrderedSet.findIff (s := (ofInstances instances).groups)).2 ⟨inside, rfl⟩
    rw [findGroup] at found
    split at found
    · rw [← Option.some.inj found] at grouped
      exact (List.mem_filter.1 grouped).1
    · cases found
  · intro member
    have found : (ofInstances instances).groups.find? i.type =
        some ⟨i.type, instances.filter fun j => j.type = i.type⟩ := by
      rw [findGroup, if_pos (List.mem_map.2 ⟨i, member, rfl⟩)]
    refine List.mem_flatMap.2 ⟨_, (OrderedSet.findIff.1 found).1, ?_⟩
    exact List.mem_filter.2 ⟨member, by simp⟩

end AttributeGroups

namespace Contribution
variable {c : Contribution φ} {u : Universe φ} {tag : Tag} {d : Declaration φ} {key : TypeName}

def Shows (c : Contribution φ) (u : Universe φ) (tag : Tag) : Prop :=
  ∃ mark ∈ c.marks.toList, Materializer.Picks u mark.marker mark.target tag

theorem memViewCalls : (∃ ds, ⟨ds, key, key⟩ ∈ AttributeGroups.calls c ∧ d ∈ ds) ↔ ⟨key, d⟩ ∈ c.marks.toList := by
  simp only [AttributeGroups.calls, markTable, List.map_map, List.mem_map, Function.comp, marksByMarker]
  constructor
  · intro called
    obtain ⟨ds, ⟨⟨marker, group⟩, listed, same⟩, member⟩ := called
    obtain ⟨sameDs, sameKey, _⟩ := CollectCall.mk.inj same
    subst sameDs sameKey
    obtain ⟨mark, inside, target⟩ := List.mem_map.1 member
    rw [(memGroups.1 listed).2] at inside
    obtain ⟨marked, sameMarker⟩ := List.mem_filter.1 inside
    subst target
    rw [← of_decide_eq_true sameMarker]
    exact marked
  · intro marked
    refine ⟨_, ⟨(key, c.marks.toList.filter fun mark => mark.marker = key), memGroups.2 ⟨?_, rfl⟩, rfl⟩, ?_⟩
    · exact List.mem_map.2 ⟨⟨key, d⟩, marked, rfl⟩
    · exact List.mem_map.2 ⟨⟨key, d⟩, List.mem_filter.2 ⟨marked, by simp⟩, rfl⟩

theorem viewCall {call : CollectCall φ} (member : call ∈ AttributeGroups.calls c) : call.query = call.key := by
  obtain ⟨entry, _, same⟩ := List.mem_map.1 member
  subst same
  rfl

theorem viewShows :
    (∃ call ∈ AttributeGroups.calls c, ∃ d ∈ call.marked, Materializer.Picks u call.query d tag) ↔
      c.Shows u tag := by
  constructor
  · intro ⟨⟨ds, key, query⟩, member, d, marked, picked⟩
    have same : query = key := viewCall member
    subst same
    exact ⟨⟨query, d⟩, memViewCalls.1 ⟨ds, member, marked⟩, picked⟩
  · intro ⟨⟨marker, d⟩, member, picked⟩
    obtain ⟨ds, call, marked⟩ := memViewCalls.2 member
    exact ⟨_, call, d, marked, picked⟩

theorem callsPick {keys : List TypeName} {query : TypeName} :
    (∃ call ∈ c.calls keys query, ∃ d ∈ call.marked, Materializer.Picks u call.query d tag) ↔
      ∃ mark ∈ c.marks.toList, mark.marker ∈ keys ∧ Materializer.Picks u query mark.target tag := by
  rw [callsEq]
  constructor
  · intro ⟨call, member, d, marked, picked⟩
    obtain ⟨key, listed, same⟩ := List.mem_map.1 member
    subst same
    exact ⟨⟨key, d⟩, memMarkedWith.1 marked, listed, picked⟩
  · intro ⟨⟨marker, d⟩, member, listed, picked⟩
    exact ⟨_, List.mem_map.2 ⟨marker, listed, rfl⟩, d, memMarkedWith.2 member, picked⟩

end Contribution

namespace AttributeGroups
variable {m : Materializer φ} {c : Contribution φ} {t : Tally} {groups : AttributeGroups φ} {tag : Tag}
  {type : TypeName} {e : QueryError}

theorem buildCollects (ok : (build m c t).1 = .ok groups) :
    ∃ instances, (m.collect (calls c) t).1 = .ok instances ∧ groups = ofInstances instances := by
  change (m.collect (calls c) t).1.map ofInstances = .ok groups at ok
  obtain ⟨instances, collected, same⟩ := mapOk.1 ok
  exact ⟨instances, collected, same.symm⟩

theorem buildShows (ok : (build m c t).1 = .ok groups) :
    tag ∈ groups.instances.map Instance.id ↔ c.Shows m.types tag := by
  obtain ⟨instances, collected, same⟩ := buildCollects ok
  subst same
  rw [← Contribution.viewShows, ← Materializer.collectOk collected]
  simp only [List.mem_map, memInstances]

theorem buildShowsType (ok : (build m c t).1 = .ok groups) :
    tag ∈ (groups.ofType type).map Instance.id ↔ c.Shows m.types tag ∧ tag.type = type := by
  obtain ⟨instances, collected, same⟩ := buildCollects ok
  subst same
  rw [← Contribution.viewShows, ← Materializer.collectOk collected, ofTypeEq]
  constructor
  · intro member
    obtain ⟨i, inside, same⟩ := List.mem_map.1 member
    obtain ⟨listed, typed⟩ := List.mem_filter.1 inside
    subst same
    exact ⟨List.mem_map.2 ⟨i, listed, rfl⟩, of_decide_eq_true typed⟩
  · intro ⟨member, typed⟩
    obtain ⟨i, inside, same⟩ := List.mem_map.1 member
    subst same
    exact List.mem_map.2 ⟨i, List.mem_filter.2 ⟨inside, decide_eq_true typed⟩, rfl⟩

theorem buildSound (ok : (build m c t).1 = .ok groups) : Materializer.Sound m.types (calls c) := by
  obtain ⟨instances, collected, _⟩ := buildCollects ok
  exact Materializer.collectSound collected

theorem buildFails (failed : (build m c t).1 = .error e) :
    Materializer.Contradicts m.types (calls c) e ∨ m.Stuck e := by
  change (m.collect (calls c) t).1.map ofInstances = .error e at failed
  cases outcome : (m.collect (calls c) t).1 with
  | ok instances =>
      rw [outcome] at failed
      cases failed
  | error cause =>
      rw [outcome] at failed
      cases failed
      exact Materializer.collectFails outcome

end AttributeGroups

namespace Contribution
variable {c : Contribution φ} {u : Universe φ} {tag : Tag}

def Names (c : Contribution φ) (tag : Tag) : Prop :=
  ∃ mark ∈ c.marks.toList, ∃ a ∈ mark.target.attachments, tag = ⟨a.type, mark.target.id⟩

def Fits (c : Contribution φ) (u : Universe φ) (d : Declaration φ) (type : TypeName) : Prop :=
  ∃ mark ∈ c.marks.toList, mark.target = d ∧ u.AssignableTo type ⟨mark.marker, []⟩

theorem namesOfShown (shown : c.Shows u tag) : c.Names tag := by
  obtain ⟨mark, member, a, attached, _, same⟩ := shown
  exact ⟨mark, member, a, attached, same⟩

theorem agreeAtMarks {first second : Tag → Prop} (named : ∀ tag, first tag → c.Names tag)
    (namedToo : ∀ tag, second tag → c.Names tag) :
    (∀ tag, first tag ↔ second tag) ↔
      ∀ mark ∈ c.marks.toList, ∀ a ∈ mark.target.attachments,
        (first ⟨a.type, mark.target.id⟩ ↔ second ⟨a.type, mark.target.id⟩) := by
  constructor
  · intro agree mark _ a _
    exact agree _
  · intro agree tag
    constructor
    · intro holds
      obtain ⟨mark, member, a, attached, same⟩ := named tag holds
      subst same
      exact (agree mark member a attached).1 holds
    · intro holds
      obtain ⟨mark, member, a, attached, same⟩ := namedToo tag holds
      subst same
      exact (agree mark member a attached).2 holds

end Contribution

namespace Registry
variable {r : Registry φ} {mark twin : Mark φ} {a : Attachment φ} {u : Universe φ}

theorem sameTarget (inv : r.Coherent) (member : mark ∈ r.global.marks.toList)
    (memberTwin : twin ∈ r.global.marks.toList) (same : mark.target.id = twin.target.id) :
    mark.target = twin.target := by
  obtain ⟨_, c, found, inside⟩ := (memGlobalMarks inv mark).1 member
  obtain ⟨_, d, foundTwin, insideTwin⟩ := (memGlobalMarks inv twin).1 memberTwin
  exact targetUnique inv found foundTwin inside insideTwin same

theorem showsAt (inv : r.Coherent) (member : mark ∈ r.global.marks.toList)
    (attached : a ∈ mark.target.attachments) :
    r.global.Shows u ⟨a.type, mark.target.id⟩ ↔ r.global.Fits u mark.target a.type := by
  constructor
  · intro ⟨other, inside, b, _, fits, same⟩
    obtain ⟨sameType, sameId⟩ := Tag.mk.inj same
    exact ⟨other, inside, (sameTarget inv member inside sameId).symm, sameType ▸ fits⟩
  · intro ⟨other, inside, same, fits⟩
    exact ⟨other, inside, a, same.symm ▸ attached, fits, by rw [same]⟩

end Registry
end MetadataIndex
