import MetadataIndex.Proofs.DeclaredRelations
import MetadataIndex.Proofs.EndlessWalks

/-! The walks that follow supertypes, against each other. The closure of a type holds the definitions that
direct steps reach from its own; the edges of its lineage and the chain of its bases lie within them. The
walk over instantiations need not end, but its references bear no name that those definitions do not tell,
and each of the told names is borne by one. -/
namespace MetadataIndex
open Std Relation
variable {φ : Type}

namespace SupertypeWalk
variable {u : Universe φ} {target start r : TypeRef} {walk next : SupertypeWalk}

def LooksAt (u : Universe φ) (target start r : TypeRef) : Prop :=
  ∃ rest seen, ReflTransGen (Goes u target) ⟨[start], ∅⟩ ⟨r :: rest, seen⟩

theorem lookedReached (looked : LooksAt u target start r) : ReflTransGen u.Supertype start r := by
  obtain ⟨rest, seen, path⟩ := looked
  exact (coversGone path).reached r (List.mem_cons_self ..)

theorem seenStep (step : Goes u target walk next) (member : r ∈ next.seen) :
    r ∈ walk.seen ∨ ∃ rest, walk.pending = r :: rest := by
  obtain ⟨pending, seen⟩ := walk
  cases pending with
  | nil => cases step
  | cons current rest =>
      have visited (inside : r ∈ seen.insert current) : r ∈ seen ∨ ∃ rest', current :: rest = r :: rest' := by
        rcases TreeSet.mem_insert.1 inside with same | old
        · exact .inr ⟨rest, by rw [Std.compare_eq_iff_eq.1 same]⟩
        · exact .inl old
      simp only [Goes, SupertypeWalk.step] at step
      split at step
      · cases step
      · split at step
        · cases step
          exact .inl member
        · split at step
          · cases step
            exact visited member
          · cases step
            exact visited member

theorem seenLooked (path : ReflTransGen (Goes u target) ⟨[start], ∅⟩ walk) (member : r ∈ walk.seen) :
    LooksAt u target start r := by
  induction path with
  | refl => exact absurd member TreeSet.not_mem_emptyc
  | @tail before after path step ih =>
      rcases seenStep step member with old | ⟨rest, top⟩
      · exact ih old
      · exact ⟨rest, before.seen, top ▸ path⟩

theorem looksEverywhere {limit : Nat} (done : run u target limit ⟨[start], ∅⟩ = some false)
    (path : ReflTransGen u.Supertype start r) : LooksAt u target start r := by
  obtain ⟨seen, gone⟩ := goneOut done
  exact seenLooked gone (seenOnPath gone path)

end SupertypeWalk

namespace Universe
variable {u : Universe φ} {name above : TypeName} {d e : TypeDef φ}

def DefinedSupertype (u : Universe φ) (d e : TypeDef φ) : Prop := ∃ s ∈ d.supertypes, u.find? s.name = some e

theorem definedPath (found : u.find? name = some d) (path : ReflTransGen u.DirectSupertype name above)
    (foundAbove : u.find? above = some e) : ReflTransGen u.DefinedSupertype d e := by
  induction path generalizing e with
  | refl =>
      rw [found] at foundAbove
      cases foundAbove
      exact .refl
  | tail _ step ih =>
      obtain ⟨lower, foundLower, direct⟩ := step
      obtain ⟨s, inside, same⟩ := List.mem_map.1 direct
      exact (ih foundLower).tail ⟨s, inside, same ▸ foundAbove⟩

theorem namedPath (found : u.find? name = some d) (path : ReflTransGen u.DefinedSupertype d e) :
    u.find? e.name = some e ∧ ReflTransGen u.DirectSupertype name e.name := by
  induction path with
  | refl =>
      rw [nameOfFind found]
      exact ⟨found, .refl⟩
  | @tail lower e _ step ih =>
      obtain ⟨s, inside, foundAbove⟩ := step
      rw [nameOfFind foundAbove]
      exact ⟨foundAbove, ih.2.tail ⟨lower, ih.1, List.mem_map_of_mem inside⟩⟩

theorem memClosureDefined (found : u.find? name = some d) :
    e ∈ u.supertypeClosure name ↔ ReflTransGen u.DefinedSupertype d e := by
  rw [memClosure]
  exact ⟨fun ⟨known, path⟩ => definedPath found path known, namedPath found⟩

theorem closureNodup (u : Universe φ) (name : TypeName) : (u.supertypeClosure name).Nodup :=
  List.Nodup.of_map TypeDef.name (OrderedSet.keysNodup _)

theorem namedByClosure :
    ReflTransGen u.DirectSupertype name above ↔
      above = name ∨ ∃ e ∈ u.supertypeClosure name, ∃ s ∈ e.supertypes, s.name = above := by
  constructor
  · intro path
    rcases ReflTransGen.cases_tail path with same | ⟨lower, path, e, found, direct⟩
    · exact .inl same
    · have own := nameOfFind found
      exact .inr ⟨e, memClosure.2 ⟨own.symm ▸ found, own.symm ▸ path⟩, List.mem_map.1 direct⟩
  · intro told
    rcases told with same | ⟨e, member, direct⟩
    · rw [same]
    · obtain ⟨found, path⟩ := memClosure.1 member
      exact path.tail ⟨e, found, List.mem_map.2 direct⟩

theorem erasedNames (found : u.find? name = some d) :
    (∃ r, r.name = above ∧ ReflTransGen u.Supertype d.selfRef r) ↔ ReflTransGen u.DirectSupertype name above := by
  have start : d.selfRef.name = name := nameOfFind found
  constructor
  · intro ⟨r, named, path⟩
    have erased := supertypesNamed path
    rwa [start, named] at erased
  · intro path
    exact supertypeLifted (start ▸ path)

theorem closureWithKnown (found : u.find? name = some d) :
    (u.withFirst d).supertypeClosure d.name = u.supertypeClosure name := by
  have known : u.find? d.name = some d := (nameOfFind found).symm ▸ found
  rw [← nameOfFind found]
  exact congrArg OrderedSet.toList (OrderedSet.exploreAgree fun _ _ above _ => findWithKnown known above)

theorem lineageInClosure : u.baseLineage name ⊆ u.supertypeClosure name := by
  intro e member
  obtain ⟨found, path⟩ := OrderedSet.memExplore.1 member
  refine memClosure.2 ⟨found, path.lift id fun _ _ step => ?_⟩
  obtain ⟨lower, foundLower, base⟩ := step
  exact ⟨lower, foundLower, TypeDef.supertypeOfBase base⟩

end Universe

theorem Contribution.memAddLineage {c : Contribution φ} {u : Universe φ} {name : TypeName} {d : TypeDef φ} {e : Edge}
    (found : u.find? name = some d) :
    e ∈ (c.addEdges (u.lineageEdges d)).2.edges.toList ↔
      e ∈ c.edges.toList ∨ ∃ f ∈ u.supertypeClosure name, f.DirectEdge e ∧ e.base ≠ e.derived := by
  rw [addEdgesEdges, Distinct.memInsertAll, List.mem_filter, Universe.lineageEdges, Universe.closureWithKnown found,
    List.mem_flatMap]
  refine or_congr_right ?_
  simp only [TypeDef.memEdgesIff, Edge.proper, decide_eq_true_eq]
  constructor
  · rintro ⟨⟨f, member, edge⟩, proper⟩
    exact ⟨f, member, edge, proper⟩
  · rintro ⟨f, member, edge, proper⟩
    exact ⟨⟨f, member, edge⟩, proper⟩

structure Universe.WalksAgree (u : Universe φ) (name : TypeName) (d : TypeDef φ) : Prop where
  distinct : (u.supertypeClosure name).Nodup
  reached : ∀ e, e ∈ u.supertypeClosure name ↔ ReflTransGen u.DefinedSupertype d e
  edges : ∀ (c : Contribution φ) (e : Edge), e ∈ (c.addEdges (u.lineageEdges d)).2.edges.toList ↔
    e ∈ c.edges.toList ∨ ∃ f ∈ u.supertypeClosure name, f.DirectEdge e ∧ e.base ≠ e.derived
  bases : u.baseLineage name ⊆ u.supertypeClosure name
  names : ∀ above, (∃ r, r.name = above ∧ ReflTransGen u.Supertype d.selfRef r) ↔
    above = name ∨ ∃ e ∈ u.supertypeClosure name, ∃ s ∈ e.supertypes, s.name = above
  looked : ∀ target r, SupertypeWalk.LooksAt u target d.selfRef r → ReflTransGen u.Supertype d.selfRef r
  exhausted : ∀ limit target, u.assignable? limit name target = some false →
    ∀ r, SupertypeWalk.LooksAt u target d.selfRef r ↔ ReflTransGen u.Supertype d.selfRef r

/-- The walks upwards from a defined type agree, on cyclic metadata and with undefined supertypes as well. -/
theorem Universe.walksAgree {u : Universe φ} {name : TypeName} {d : TypeDef φ} (found : u.find? name = some d) :
    u.WalksAgree name d where
  distinct := closureNodup u name
  reached := fun _ => memClosureDefined found
  edges := fun _ _ => Contribution.memAddLineage found
  bases := lineageInClosure
  names := fun _ => (erasedNames found).trans namedByClosure
  looked := fun _ _ => SupertypeWalk.lookedReached
  exhausted := by
    intro limit target missed r
    have done : SupertypeWalk.run u target limit ⟨[d.selfRef], ∅⟩ = some false := by
      simpa [assignable?, found] using missed
    exact ⟨SupertypeWalk.lookedReached, SupertypeWalk.looksEverywhere done⟩

def tangled : TypeDef :=
  { name := "Tangle", owner := "M", kind := .classType, parameters := ["T"],
    base := some ⟨"Tangle", [.type "Tangle" [.parameter "T"]]⟩,
    interfaces := [⟨"Missing", [.parameter "T"]⟩, ⟨"Back", []⟩] }

def leadsBack : TypeDef :=
  { name := "Back", owner := "M", kind := .interfaceType, interfaces := [⟨"Tangle", [.type "Back" []]⟩] }

theorem tangledWalksAgree :
    (Universe.ofDefs [tangled, leadsBack]).find? "Tangle" = some tangled ∧
      (Universe.ofDefs [tangled, leadsBack]).WalksAgree "Tangle" tangled ∧
      (Universe.ofDefs [tangled, leadsBack]).supertypeClosure "Tangle" = [tangled, leadsBack] ∧
      (({} : Contribution).addEdges ((Universe.ofDefs [tangled, leadsBack]).lineageEdges tangled)).2.edges.toList =
        [⟨"Missing", "Tangle", .implements⟩, ⟨"Back", "Tangle", .implements⟩, ⟨"Tangle", "Back", .implements⟩] := by
  have found : (Universe.ofDefs [tangled, leadsBack]).find? "Tangle" = some tangled := by decide +kernel
  refine ⟨found, Universe.walksAgree found, ?_, ?_⟩
  · decide +kernel
  · decide +kernel

end MetadataIndex
