import MetadataIndex.Proofs.LiveIndex

/-! What a module tells over types that grow. Closures grow and base lineages get longer at their end,
so every edge and mark told over the fewer types is told over the more. When no name that a walk met
without a definition has got one, the module tells the same over both. -/
namespace MetadataIndex
open Std Relation
variable {φ : Type}

namespace OrderedSet
variable {α κ : Type} [Ord κ] [TransOrd κ] [LawfulEqOrd κ] {key : α → κ} {table wider seen : OrderedSet key}
  {targets : α → List κ} {pending : List κ}

theorem explorePrefixOf (known : ∀ k a, table.find? k = some a → wider.find? k = some a)
    (single : ∀ a, (targets a).length ≤ 1) (short : pending.length ≤ 1) :
    (table.explore targets .depthFirst seen pending).toList <+:
      (wider.explore targets .depthFirst seen pending).toList := by
  fun_induction table.explore targets .depthFirst seen pending with
  | case1 seen => exact explorePrefix
  | case2 seen k pending visited ih =>
      rw [exploreVisited visited]
      exact ih (Nat.le_of_succ_le short)
  | case3 seen k pending fresh missing ih =>
      -- here the walk over the fewer types ends, and the other one may go on
      have nothing : pending = [] := List.eq_nil_of_length_eq_zero (by simpa using short)
      rw [nothing, explore]
      exact explorePrefix
  | case4 seen k pending fresh a found ih =>
      have nothing : pending = [] := List.eq_nil_of_length_eq_zero (by simpa using short)
      rw [exploreFound fresh (known k a found)]
      refine ih ?_
      rw [nothing]
      simpa [Order.enqueue] using single a

end OrderedSet

theorem zipTailPrefix {α : Type} {values more : List α} {pair : α × α} (part : values <+: more)
    (member : pair ∈ values.zip values.tail) : pair ∈ more.zip more.tail := by
  obtain ⟨rest, whole⟩ := part
  subst whole
  induction values with
  | nil => cases member
  | cons first others ih =>
      cases others with
      | nil => cases member
      | cons next others =>
          rcases List.mem_cons.1 member with same | later
          · exact same ▸ List.mem_cons_self ..
          · exact List.mem_cons_of_mem _ (ih later)

namespace Universe
variable {u v : Universe φ} {name : TypeName} {d owner : TypeDef φ} {e : Edge}

theorem withFirstExtends (known : u.Extends v) : (u.withFirst owner).Extends (v.withFirst owner) := by
  intro name d found
  rw [findWithFirst] at found ⊢
  split at found
  · next same =>
    rw [if_pos same]
    exact found
  · next differ =>
    rw [if_neg differ]
    exact known name d found

theorem lineageEdgesGrow (known : u.Extends v) (member : e ∈ u.lineageEdges owner) : e ∈ v.lineageEdges owner := by
  have wider : (u.withFirst owner).Extends (v.withFirst owner) := withFirstExtends known
  obtain ⟨d, inside, edge⟩ := List.mem_flatMap.1 member
  obtain ⟨found, path⟩ := memClosure.1 inside
  refine List.mem_flatMap.2 ⟨d, memClosure.2 ⟨wider _ _ found, ?_⟩, edge⟩
  exact path.lift id fun _ _ step => directSupertypeExtends wider step

theorem lineagePrefix (known : u.Extends v) : u.baseLineage name <+: v.baseLineage name :=
  OrderedSet.explorePrefixOf known singleBase (Nat.le_refl 1)

theorem markerEdgesGrow (known : u.Extends v) (member : e ∈ u.markerEdges name) : e ∈ v.markerEdges name := by
  obtain ⟨pair, inside, same⟩ := List.mem_map.1 member
  exact List.mem_map.2 ⟨pair, zipTailPrefix (lineagePrefix known) inside, same⟩

theorem retrievableGrows (known : u.Extends v) (retrievable : u.isRetrievableAnnotationType name = true) :
    v.isRetrievableAnnotationType name = true := by
  simp only [isRetrievableAnnotationType, isAnnotationType, Bool.and_eq_true, List.any_eq_true,
    Option.any_eq_true] at retrievable ⊢
  obtain ⟨⟨d, found, kind⟩, b, above, marked⟩ := retrievable
  exact ⟨⟨d, known _ _ found, kind⟩, b, (lineagePrefix known).subset above, marked⟩

theorem retrievableTypesGrow {d : Declaration φ} (known : u.Extends v) (member : name ∈ u.retrievableTypes d) :
    name ∈ v.retrievableTypes d := by
  obtain ⟨attached, retrievable⟩ := List.mem_filter.1 member
  exact List.mem_filter.2 ⟨attached, retrievableGrows known retrievable⟩

theorem markersGrow {ρ : Record} {d : Declaration φ} (known : u.Extends v) (member : name ∈ u.markers ρ d) :
    name ∈ v.markers ρ d := by
  unfold markers at member ⊢
  split at member
  · exact member
  · exact retrievableTypesGrow known member

end Universe

namespace CodeModule
variable {m : CodeModule φ} {u v : Universe φ} {e : Edge} {mark : Mark φ} {ρ : Record}

theorem recordEdgesGrow (known : u.Extends v) (member : e ∈ m.recordEdges u ρ) : e ∈ m.recordEdges v ρ := by
  rcases List.mem_append.1 member with lineage | annotation
  · refine List.mem_append_left _ ?_
    unfold supertypeEdges at lineage ⊢
    split at lineage
    · exact Universe.lineageEdgesGrow known lineage
    · cases lineage
  · obtain ⟨d, designates, inside⟩ := List.mem_flatMap.1 annotation
    obtain ⟨marker, listed, edge⟩ := List.mem_flatMap.1 inside
    refine List.mem_append_right _ (List.mem_flatMap.2 ⟨d, designates, List.mem_flatMap.2 ⟨marker, ?_, ?_⟩⟩)
    · rcases List.mem_append.1 listed with own | other
      · exact List.mem_append_left _ (Universe.markersGrow known own)
      · exact List.mem_append_right _ (Universe.retrievableTypesGrow known other)
    · exact Universe.markerEdgesGrow known edge

theorem toldEdgesGrow (known : u.Extends v) (member : e ∈ (m.told u).edges.toList) : e ∈ (m.told v).edges.toList := by
  obtain ⟨proper, ρ, record, edge⟩ := memToldEdges.1 member
  exact memToldEdges.2 ⟨proper, ρ, record, recordEdgesGrow known edge⟩

theorem toldMarksGrow (known : u.Extends v) (member : mark ∈ (m.told u).marks.toList) :
    mark ∈ (m.told v).marks.toList := by
  obtain ⟨ρ, record, inside⟩ := memToldMarks.1 member
  obtain ⟨d, designates, marked⟩ := List.mem_flatMap.1 inside
  obtain ⟨marker, listed, same⟩ := List.mem_map.1 marked
  refine memToldMarks.2 ⟨ρ, record, List.mem_flatMap.2 ⟨d, designates, List.mem_map.2 ⟨marker, ?_, same⟩⟩⟩
  exact Universe.markersGrow known listed

end CodeModule

/-! Types that are settled -/

def Universe.Settles (u v : Universe φ) (name : TypeName) : Prop :=
  ∀ above, ReflTransGen u.DirectSupertype name above → u.find? above = none → v.find? above = none

namespace Universe
variable {u v : Universe φ} {name above : TypeName} {owner : TypeDef φ}

theorem settlesFind (known : u.Extends v) (settles : u.Settles v name)
    (path : ReflTransGen u.DirectSupertype name above) : u.find? above = v.find? above := by
  cases found : u.find? above with
  | none => exact (settles above path found).symm
  | some d => exact (known above d found).symm

theorem lineageSettled (known : u.Extends v) (settles : u.Settles v name) :
    u.baseLineage name = v.baseLineage name := by
  refine congrArg OrderedSet.toList (OrderedSet.exploreAgree fun k waits l path => ?_)
  rw [List.mem_singleton.1 waits] at path
  refine settlesFind known settles (path.lift id fun _ _ step => ?_)
  obtain ⟨d, found, base⟩ := step
  exact ⟨d, found, TypeDef.supertypeOfBase base⟩

theorem lineageEdgesSettled (known : u.Extends v)
    (settles : (u.withFirst owner).Settles (v.withFirst owner) owner.name) :
    u.lineageEdges owner = v.lineageEdges owner := by
  have closure : (u.withFirst owner).supertypeClosure owner.name = (v.withFirst owner).supertypeClosure owner.name := by
    refine congrArg OrderedSet.toList (OrderedSet.exploreAgree fun k waits l path => ?_)
    rw [List.mem_singleton.1 waits] at path
    exact settlesFind (withFirstExtends known) settles path
  rw [lineageEdges, closure, lineageEdges]

theorem markerEdgesSettled (known : u.Extends v) (settles : u.Settles v name) :
    u.markerEdges name = v.markerEdges name := by
  rw [markerEdges, markerEdges, lineageSettled known settles]

theorem retrievableTypesSettled {d : Declaration φ} (known : u.Extends v)
    (settles : ∀ a ∈ d.attachments, u.Settles v a.type) : u.retrievableTypes d = v.retrievableTypes d := by
  refine List.filter_congr fun name member => ?_
  obtain ⟨a, attached, same⟩ := List.mem_map.1 member
  subst same
  rw [isRetrievableAnnotationType, isRetrievableAnnotationType, isAnnotationType, isAnnotationType,
    settlesFind known (settles a attached) .refl, lineageSettled known (settles a attached)]

end Universe

namespace CodeModule
variable {m : CodeModule φ} {u v : Universe φ} {ρ : Record}

structure Settled (m : CodeModule φ) (u v : Universe φ) : Prop where
  supertypes : ∀ ρ ∈ m.recordList, ρ.member = none → ∀ owner, m.find? ρ.type = some owner →
    (u.withFirst owner).Settles (v.withFirst owner) owner.name
  markers : ∀ ρ ∈ m.recordList, ∀ marker, ρ.marker = some marker → u.Settles v marker
  attached : ∀ ρ ∈ m.recordList, ∀ d ∈ m.designated ρ, ∀ a ∈ d.attachments, u.Settles v a.type

theorem markersSettled {d : Declaration φ} (known : u.Extends v) (settled : m.Settled u v) (record : ρ ∈ m.recordList)
    (designates : d ∈ m.designated ρ) : u.markers ρ d = v.markers ρ d := by
  unfold Universe.markers
  split
  · rfl
  · exact Universe.retrievableTypesSettled known (settled.attached ρ record d designates)

theorem annotationEdgesSettled {d : Declaration φ} (known : u.Extends v) (settled : m.Settled u v)
    (record : ρ ∈ m.recordList) (designates : d ∈ m.designated ρ) :
    u.annotationEdges ρ d = v.annotationEdges ρ d := by
  have attached := settled.attached ρ record d designates
  have reached : ∀ marker ∈ v.markers ρ d ++ v.retrievableTypes d, u.Settles v marker := by
    have own : ∀ marker ∈ v.retrievableTypes d, u.Settles v marker := by
      intro marker listed
      obtain ⟨a, inside, same⟩ := List.mem_map.1 (List.mem_filter.1 listed).1
      exact same ▸ attached a inside
    intro marker member
    rcases List.mem_append.1 member with first | other
    · unfold Universe.markers at first
      split at first
      · next claimed =>
        rw [List.mem_singleton.1 first]
        exact settled.markers ρ record _ claimed
      · exact own marker first
    · exact own marker other
  rw [Universe.annotationEdges, Universe.annotationEdges, markersSettled known settled record designates,
    Universe.retrievableTypesSettled known attached]
  exact List.flatMap_congr fun marker member => Universe.markerEdgesSettled known (reached marker member)

theorem recordEdgesSettled (known : u.Extends v) (settled : m.Settled u v) (record : ρ ∈ m.recordList) :
    m.recordEdges u ρ = m.recordEdges v ρ := by
  have lineages : m.supertypeEdges u ρ = m.supertypeEdges v ρ := by
    unfold supertypeEdges
    split
    · next owner found whole =>
      exact Universe.lineageEdgesSettled known (settled.supertypes ρ record whole owner found)
    · rfl
  rw [recordEdges, recordEdges, lineages]
  exact congrArg _ (List.flatMap_congr fun d designates => annotationEdgesSettled known settled record designates)

theorem toldSettled (known : u.Extends v) (settled : m.Settled u v) : m.told u = m.told v := by
  have edges : m.recordList.flatMap (m.recordEdges u) = m.recordList.flatMap (m.recordEdges v) :=
    List.flatMap_congr fun ρ record => recordEdgesSettled known settled record
  have marks : m.recordList.flatMap (m.recordMarks u) = m.recordList.flatMap (m.recordMarks v) := by
    refine List.flatMap_congr fun ρ record => List.flatMap_congr fun d designates => ?_
    rw [Universe.marksOf, Universe.marksOf, markersSettled known settled record designates]
  rw [told, told, edges, marks]

theorem openedTold (m : CodeModule φ) (u : Universe φ) : m.opened.told u = m.told u := by
  have designates : m.opened.designated = m.designated := funext m.openedDesignated
  have supertypes : m.opened.supertypeEdges u = m.supertypeEdges u := by
    funext ρ
    rw [supertypeEdges, supertypeEdges, find?, m.openedTypes, find?]
  have edges : m.opened.recordEdges u = m.recordEdges u := by
    funext ρ
    rw [recordEdges, recordEdges, designates, supertypes]
  have marks : m.opened.recordMarks u = m.recordMarks u := by
    funext ρ
    rw [recordMarks, recordMarks, designates]
  rw [told, told, edges, marks, m.openedRecordList, m.openedId]

theorem alikeTold {n : CodeModule φ} (same : n.opened = m.opened) (u : Universe φ) : n.told u = m.told u := by
  rw [← n.openedTold, same, m.openedTold]

end CodeModule
end MetadataIndex
