import MetadataIndex.Proofs.IndexRun
import MetadataIndex.Proofs.MergedContributions
import MetadataIndex.Proofs.StoppedSyncs

/-! What the generation of a registry tells. A commit moves it by one exactly when a module, an edge, a
mark or the graph has changed, so over any run equal generations mean equal relations. The types that
records name are not watched: a contribution with nothing else new is merged under the old generation. -/
namespace MetadataIndex
open Std Relation
variable {φ : Type}

namespace SubtypeGraph
variable {g : SubtypeGraph} {e : Edge} {edges : List Edge} {name : TypeName}

structure Knows (g : SubtypeGraph) (e : Edge) : Prop where
  base : e.base ∈ g.names
  derived : e.derived ∈ g.names
  link : e.derived ∈ (g.below e.base).toList

theorem ensureKnown (known : name ∈ g.names) : g.ensureNode name = g := by
  have same : g.nodes.insert { name } = g.nodes := OrderedSet.insertPresent known
  rw [ensureNode, same]

theorem addEdgeKnown (known : g.Knows e) : g.addEdge e.base e.derived = (false, g) := by
  have linked : (g.below e.base).contains e.derived = true := by
    rw [OrderedSet.containsIff, Distinct.keysEqToList]
    exact known.link
  simp [addEdge, ensureKnown known.base, ensureKnown known.derived, linked]

theorem addEdgesKnown (known : ∀ e ∈ edges, g.Knows e) : g.addEdges edges = g := by
  induction edges with
  | nil => rfl
  | cons e rest ih =>
      rw [addEdges, List.foldl_cons, addEdgeKnown (known e (List.mem_cons_self ..))]
      exact ih fun f member => known f (List.mem_cons_of_mem _ member)

theorem knowsAdded (told : g.Knows e ∨ e ∈ edges) : (g.addEdges edges).Knows e := by
  constructor
  · exact namesAddEdges.2 (told.imp Knows.base fun member => ⟨e, member, .inl rfl⟩)
  · exact namesAddEdges.2 (told.imp Knows.derived fun member => ⟨e, member, .inr rfl⟩)
  · exact memBelowAddEdges.2 (told.imp Knows.link fun member => ⟨e, member, rfl, rfl⟩)

end SubtypeGraph

namespace Contribution
variable {a b c : Contribution φ}

def KnowsRelations (a b : Contribution φ) : Prop :=
  ∀ entry ∈ b.entries, entry ∈ a.entries ∨ ∃ name, entry = .type name

theorem properDerived {m : CodeModule φ} {u : Universe φ} (derived : m.derive u = .ok c) : c.Proper := by
  intro e member
  have told := CodeModule.deriveOk derived
  subst told
  exact (CodeModule.memToldEdges.1 member).1

theorem addTypesKnown {names : List TypeName} (known : ∀ name ∈ names, name ∈ a.types.toList) :
    (a.addTypes names).2 = a := by
  ext1
  · rfl
  · rfl
  · rfl
  · exact Distinct.insertAllKnown known

theorem mergeKnown (known : a.KnowsRelations b) : a.merge b = (0, (a.addTypes b.types.toList).2) := by
  have held (entry : Entry φ) (inside : b.Holds entry) (other : ∀ name, entry ≠ .type name) : a.Holds entry :=
    (known entry inside).resolve_right fun type => type.elim other
  have same : (a.merge b).2 = (a.addTypes b.types.toList).2 := by
    ext1
    · rw [mergeModules]
      exact Distinct.insertAllKnown fun id member => held (.module id) member nofun
    · rw [mergeEdges]
      exact Distinct.insertAllKnown fun e member => held (.edge e) (List.mem_filter.1 member).1 nofun
    · rw [mergeMarks]
      exact OrderedSet.insertAllPresent fun m member =>
        held (.mark m.id) (List.mem_map.2 ⟨m, member, rfl⟩) nofun
    · exact mergeTypes
  have count : a.counted + (a.merge b).1 = (a.merge b).2.counted := mergeCount
  rw [same] at count
  exact Prod.ext (Nat.add_eq_left.1 count) same

theorem knownOfMerge (proper : b.Proper) (count : (a.merge b).1 = 0)
    (modules : (a.merge b).2.modules.size ≤ a.modules.size) : a.KnowsRelations b := by
  have grown : a.Prolongs (a.merge b).2 := mergeProlongs
  have counted : a.counted + (a.merge b).1 = (a.merge b).2.counted := mergeCount
  have edgesGrow := grown.edges.length_le
  have marksGrow := grown.marks.length_le
  simp only [Contribution.counted, OrderedSet.sizeEq] at counted modules
  have sameModules : a.modules.toList = (a.merge b).2.modules.toList := grown.modules.eq_of_length_le modules
  have sameEdges : a.edges.toList = (a.merge b).2.edges.toList := grown.edges.eq_of_length_le (by omega)
  have sameMarks : a.marks.toList = (a.merge b).2.marks.toList := grown.marks.eq_of_length_le (by omega)
  intro entry inside
  have merged : (a.merge b).2.Holds entry := by
    change entry ∈ (a.merge b).2.entries
    rw [mergeEntries proper]
    exact .inr inside
  cases entry with
  | module id => exact .inl (sameModules.symm ▸ merged : id ∈ a.modules.toList)
  | edge e => exact .inl (sameEdges.symm ▸ merged : e ∈ a.edges.toList)
  | subtype base derived =>
      obtain ⟨kind, told⟩ := memDirectSubtypes.1 merged
      exact .inl (memDirectSubtypes.2 ⟨kind, sameEdges.symm ▸ told⟩ : derived ∈ a.directSubtypes base)
  | mark tag => exact .inl (sameMarks.symm ▸ merged : tag ∈ a.marks.toList.map Mark.id)
  | type name => exact .inr ⟨name, rfl⟩

end Contribution

namespace Registry
variable {r s t after : Registry φ} {c : Contribution φ} {m : CodeModule φ}

structure SameRelations (r s : Registry φ) : Prop where
  modules : s.global.modules = r.global.modules
  edges : s.global.edges = r.global.edges
  subtypes : s.global.subtypes = r.global.subtypes
  marks : s.global.marks = r.global.marks
  graph : s.graph = r.graph

def weight (r : Registry φ) : Nat := r.global.modules.size + r.global.counted

inductive Advances (r s : Registry φ) : Prop where
  | still (same : r.SameRelations s) (generation : s.generation = r.generation)
  | moved (more : r.weight < s.weight) (later : r.generation < s.generation)

def GraphFiled (r : Registry φ) : Prop := ∀ e ∈ r.global.edges.toList, r.graph.Knows e

theorem sameWeight (same : r.SameRelations s) : s.weight = r.weight := by
  simp only [weight, Contribution.counted, same.modules, same.edges, same.marks]

theorem sameTrans (first : r.SameRelations s) (next : s.SameRelations t) : r.SameRelations t where
  modules := next.modules.trans first.modules
  edges := next.edges.trans first.edges
  subtypes := next.subtypes.trans first.subtypes
  marks := next.marks.trans first.marks
  graph := next.graph.trans first.graph

theorem advancesTrans (first : r.Advances s) (next : s.Advances t) : r.Advances t := by
  cases first with
  | still same generation =>
      cases next with
      | still sameToo generationToo => exact .still (sameTrans same sameToo) (generationToo.trans generation)
      | moved more later => exact .moved (sameWeight same ▸ more) (generation ▸ later)
  | moved more later =>
      cases next with
      | still same generation => exact .moved (sameWeight same ▸ more) (generation.symm ▸ later)
      | moved moreToo laterToo => exact .moved (more.trans moreToo) (later.trans laterToo)

theorem generationSame (advances : r.Advances s) : s.generation = r.generation ↔ r.SameRelations s := by
  cases advances with
  | still same generation => exact iff_of_true generation same
  | moved more later =>
      refine iff_of_false (Nat.ne_of_gt later) fun same => ?_
      rw [sameWeight same] at more
      exact Nat.lt_irrefl _ more

theorem commitKnown (filed : r.GraphFiled) (known : r.global.KnowsRelations c) :
    r.commit c = (0, { r with global := (r.global.addTypes c.types.toList).2 }) := by
  have graph : r.graph.addEdges c.edges.toList = r.graph := by
    refine SubtypeGraph.addEdgesKnown fun e member => filed e ?_
    exact (known (.edge e) member).resolve_right nofun
  simp [commit, Contribution.mergeKnown known, graph]

theorem commitNew (proper : c.Proper) (new : ¬ r.global.KnowsRelations c) :
    (r.commit c).2.generation = r.generation + 1 ∧ r.weight < (r.commit c).2.weight := by
  have counted : r.global.counted + (r.global.merge c).1 = (r.global.merge c).2.counted := Contribution.mergeCount
  have modules : r.global.modules.size ≤ (r.global.merge c).2.modules.size := by
    rw [Contribution.mergeModules]
    exact OrderedSet.sizeInsertAll
  have changed : 0 < (r.global.merge c).1 ∨ r.global.modules.size < (r.global.merge c).2.modules.size := by
    by_contra quiet
    exact new (Contribution.knownOfMerge proper (by omega) (by omega))
  constructor
  · have bumps : (decide (0 < (r.global.merge c).1) ||
        decide (r.global.modules.size < (r.global.merge c).2.modules.size)) = true := by simpa using changed
    exact if_pos bumps
  · change r.global.modules.size + r.global.counted <
      (r.global.merge c).2.modules.size + (r.global.merge c).2.counted
    omega

theorem commitAdvances (filed : r.GraphFiled) (proper : c.Proper) : r.Advances (r.commit c).2 := by
  by_cases known : r.global.KnowsRelations c
  · rw [commitKnown filed known]
    exact .still ⟨rfl, rfl, rfl, rfl, rfl⟩ rfl
  · obtain ⟨generation, more⟩ := commitNew proper known
    exact .moved more (by omega)

theorem filedCommit (filed : r.GraphFiled) (c : Contribution φ) : (r.commit c).2.GraphFiled := by
  intro e member
  change e ∈ (r.global.merge c).2.edges.toList at member
  rw [Contribution.mergeEdges, Distinct.memInsertAll, List.mem_filter] at member
  exact SubtypeGraph.knowsAdded (member.imp (filed e) And.left)

structure Continues (r s : Registry φ) : Prop where
  advances : r.Advances s
  types : r.global.types.toList <+: s.global.types.toList
  filed : s.GraphFiled

theorem continuesAside (filed : r.GraphFiled) (p : Program φ) : r.Continues { r with program := p } :=
  ⟨.still ⟨rfl, rfl, rfl, rfl, rfl⟩ rfl, List.prefix_refl _, filed⟩

theorem continuesRefl (filed : r.GraphFiled) : r.Continues r := continuesAside filed r.program

theorem continuesTrans (first : r.Continues s) (next : s.Continues t) : r.Continues t :=
  ⟨advancesTrans first.advances next.advances, first.types.trans next.types, next.filed⟩

theorem continuesCommit (filed : r.GraphFiled) (proper : c.Proper) : r.Continues (r.commit c).2 :=
  ⟨commitAdvances filed proper, Contribution.mergeProlongs.types, filedCommit filed c⟩

theorem continuesMove (filed : r.GraphFiled) (move : Move r after) : r.Continues after := by
  cases move with
  | opened id => exact continuesAside filed _
  | merged _ _ _ derived =>
      obtain ⟨advances, types, filedToo⟩ := continuesCommit filed (Contribution.properDerived derived)
      refine ⟨?_, types, filedToo⟩
      cases advances with
      | still same generation => exact .still ⟨same.1, same.2, same.3, same.4, same.5⟩ generation
      | moved more later => exact .moved more later

theorem continuesMoves (filed : r.GraphFiled) (moves : Moves r after) : r.Continues after := by
  induction moves with
  | refl => exact continuesRefl filed
  | tail _ move ih => exact continuesTrans ih (continuesMove ih.filed move)

inductive Call (φ : Type := Recipe) where
  | operation (op : Operation φ)
  | commit (making : Contribution.Making φ)

def Call.event : Call φ → Event φ
  | .operation op => .operation op
  | .commit making => .commit making.made

def called (r : Registry φ) (calls : List (Call φ)) : Registry φ := r.undergone (calls.map Call.event)

theorem continuesCall (filed : r.GraphFiled) (call : Call φ) : r.Continues (r.undergo call.event) := by
  cases call with
  | commit making => exact continuesCommit filed (Contribution.properMade making)
  | operation op =>
      cases op with
      | load m => exact continuesAside filed _
      | sync => exact continuesMoves filed syncMoves
      | ingest id =>
          have moves : Moves r (r.perform (.ingest id)) := performMoves fun _ same => by cases same
          exact continuesMoves filed moves

theorem continuesCalls (filed : r.GraphFiled) (calls : List (Call φ)) : r.Continues (r.called calls) := by
  induction calls generalizing r with
  | nil => exact continuesRefl filed
  | cons call rest ih =>
      have first := continuesCall filed call
      exact continuesTrans first (ih first.filed)

theorem filedCalls (calls : List (Call φ)) : (({} : Registry φ).called calls).GraphFiled :=
  (continuesCalls (fun _ member => by cases member) calls).filed

theorem storedPrefix (operations : List (Operation φ)) : r.stored.toList <+: (r.run operations).stored.toList := by
  have kept {s after : Registry φ} (move : Move s after) (before : r.stored.toList <+: s.stored.toList) :
      r.stored.toList <+: after.stored.toList := by
    cases move with
    | opened id => exact before
    | merged _ _ _ _ => exact before.trans OrderedSet.insertPrefix
  exact @runKeeps φ (fun s => r.stored.toList <+: s.stored.toList) (fun _ before => before) kept r operations
    (List.prefix_refl _)

theorem contentTracked (operations more : List (Operation φ)) :
    ((({} : Registry φ).run operations).run more).generation = (({} : Registry φ).run operations).generation ↔
      ((({} : Registry φ).run operations).run more).global = (({} : Registry φ).run operations).global ∧
        ((({} : Registry φ).run operations).run more).graph = (({} : Registry φ).run operations).graph := by
  have coherent := coherentRun operations
  have coherentLater : ((({} : Registry φ).run operations).run more).Coherent := by
    rw [← runAppend]
    exact coherentRun _
  have kept : (({} : Registry φ).run operations).stored.toList <+:
      ((({} : Registry φ).run operations).run more).stored.toList := storedPrefix more
  constructor
  · intro same
    rw [coherent.generation, coherentLater.generation, OrderedSet.sizeEq, OrderedSet.sizeEq] at same
    have stored := kept.eq_of_length same.symm
    rw [coherent.global, coherentLater.global, coherent.graph, coherentLater.graph, contributions, contributions,
      stored]
    exact ⟨rfl, rfl⟩
  · rintro ⟨global, -⟩
    rw [(coherentConsistent coherent).generation, (coherentConsistent coherentLater).generation, global]

structure GenerationTracks (r : Registry φ) : Prop where
  counts : ∀ w : Contribution.Making φ,
    (r.commit w.made).2.generation = r.generation + 1 ↔ ¬ r.SameRelations (r.commit w.made).2
  rests : ∀ w : Contribution.Making φ,
    (r.commit w.made).2.generation = r.generation ↔ r.SameRelations (r.commit w.made).2
  nothingNew : ∀ w : Contribution.Making φ, w.made.entries ⊆ r.global.entries → (r.commit w.made).2 = r
  untracked : ∀ w : Contribution.Making φ,
    ((r.commit w.made).2.generation = r.generation ∧ (r.commit w.made).2.global ≠ r.global) ↔
      r.global.KnowsRelations w.made ∧ ∃ name ∈ w.made.types.toList, name ∉ r.global.types.toList
  later : ∀ more, (r.called more).generation = r.generation ↔ r.SameRelations (r.called more)
  laterMarks : ∀ more, (r.called more).generation = r.generation →
    AttributeGroups.calls (r.called more).global = AttributeGroups.calls r.global
  laterTypes : ∀ more, r.global.types.toList <+: (r.called more).global.types.toList

theorem knownIff (filed : r.GraphFiled) (proper : c.Proper) :
    r.global.KnowsRelations c ↔ (r.commit c).2.generation = r.generation := by
  by_cases known : r.global.KnowsRelations c
  · rw [commitKnown filed known]
    exact iff_of_true known rfl
  · refine iff_of_false known ?_
    rw [(commitNew proper known).1]
    exact Nat.succ_ne_self _

theorem tracksFiled (filed : r.GraphFiled) : r.GenerationTracks where
  counts := by
    intro w
    have proper := Contribution.properMade w
    rw [← generationSame (commitAdvances filed proper), ← knownIff filed proper]
    by_cases known : r.global.KnowsRelations w.made
    · rw [commitKnown filed known]
      simp [known]
    · exact iff_of_true (commitNew proper known).1 known
  rests := fun w => generationSame (commitAdvances filed (Contribution.properMade w))
  nothingNew := by
    intro w held
    rw [commitKnown filed fun entry inside => .inl (held inside),
      Contribution.addTypesKnown fun name member => held (a := .type name) member]
  untracked := by
    intro w
    rw [← knownIff filed (Contribution.properMade w)]
    refine and_congr_right fun known => ?_
    rw [commitKnown filed known]
    constructor
    · intro changed
      by_contra none
      push Not at none
      exact changed (Contribution.addTypesKnown none)
    · intro ⟨name, told, fresh⟩ same
      refine fresh ?_
      rw [← same]
      exact Distinct.memInsertAll.2 (.inr told)
  later := fun more => generationSame (continuesCalls filed more).advances
  laterMarks := by
    intro more same
    have marks := ((generationSame (continuesCalls filed more).advances).1 same).marks
    rw [AttributeGroups.calls, Contribution.markTable, Contribution.marksByMarker, marks]
    rfl
  laterTypes := fun more => (continuesCalls filed more).types

/-- After any calls the generation moves with the modules, the edges, the marks and the graph, and with
nothing else; only recorded types can grow unseen. Loads, syncs and ingestions alone hide nothing. -/
theorem generationsTrack (calls : List (Call φ)) (operations more : List (Operation φ)) :
    (({} : Registry φ).called calls).GenerationTracks ∧
      (((({} : Registry φ).run operations).run more).generation = (({} : Registry φ).run operations).generation ↔
        ((({} : Registry φ).run operations).run more).global = (({} : Registry φ).run operations).global ∧
          ((({} : Registry φ).run operations).run more).graph = (({} : Registry φ).run operations).graph) :=
  ⟨tracksFiled (filedCalls calls), contentTracked operations more⟩

end Registry

namespace Index

def loneType : Contribution.Making := .type .empty "T"

theorem loneTypeUntracked :
    ((({} : Registry).commit loneType.made).2.generation = ({} : Registry).generation ∧
      ({} : Registry).global.types.toList = [] ∧
      (({} : Registry).commit loneType.made).2.global.types.toList = ["T"]) ∧
    ((((ofProgram {} 1 {}).after Query.indexedTypes).commit loneType.made).2.answer Query.indexedTypes = .ok [] ∧
      (((ofProgram {} 1 {}).after Query.indexedTypes).commit loneType.made).2.invalidateViews.answer
        Query.indexedTypes = .ok ["T"]) := by
  decide +kernel

end Index
end MetadataIndex
