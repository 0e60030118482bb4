import MetadataIndex.Proofs.ExactSearch
import MetadataIndex.Proofs.RankedPlaces
import Mathlib.Data.List.Forall2

/-! Definitions whose generic parameters are renamed, each by a map of its own. The outline of a reference
forgets the names of the parameters in it. What a step does to an outline does not depend on the names, so
references of one outline have supertypes of one outline on both sides, and a closed reference is the only
one of its outline. The parameters above a candidate are declared ones, so finitely many references lie above
it on both sides or on neither. -/
namespace MetadataIndex
open Std Relation
variable {φ : Type}

section Related
variable {α β : Type} {R : α → α → Prop} {S : β → β → Prop} {T : α → β → Prop} {a b : α} {c : β} {o : Option β}

theorem relatedNone (related : Option.Rel T none o) : o = none := by
  cases related
  rfl

theorem relatedSome (related : Option.Rel T (some a) o) : ∃ c, o = some c ∧ T a c := by
  cases related with
  | some held => exact ⟨_, rfl, held⟩

theorem pathSimulated (steps : ∀ a b c, T a c → R a b → ∃ d, S c d ∧ T b d) (related : T a c)
    (path : ReflTransGen R a b) : ∃ d, ReflTransGen S c d ∧ T b d := by
  induction path with
  | refl => exact ⟨c, .refl, related⟩
  | tail _ last ih =>
      obtain ⟨d, path, held⟩ := ih
      obtain ⟨next, step, heldToo⟩ := steps _ _ d held last
      exact ⟨next, path.tail step, heldToo⟩

end Related

def Bindings.blank : Bindings := fun _ => some (.parameter "")

def Bindings.renaming (f : String → String) : Bindings := fun p => some (.parameter (f p))

namespace TypeRef
variable {r s target : TypeRef}

def outline (r : TypeRef) : TypeRef := r.substitute .blank

def rename (f : String → String) (r : TypeRef) : TypeRef := r.substitute (.renaming f)

theorem outlineName (same : r.outline = s.outline) : r.name = s.name := (TypeRef.mk.inj same).1

theorem outlineArguments (same : r.outline = s.outline) :
    r.arguments.map (Argument.substitute .blank) = s.arguments.map (Argument.substitute .blank) :=
  (TypeRef.mk.inj same).2

theorem closedOutline (closed : target.isClosed = true) (same : r.outline = target.outline) : r = target := by
  have whole : target.outline = target := substituteClosed closed
  have bare : r.outline = r := by
    have outlined : r.outline.isClosed = true := by rwa [same, whole]
    refine substituteNone fun p mentioned => ?_
    obtain ⟨b, bound, closedToo⟩ := (closedSubstitute.1 outlined).2 p mentioned
    cases bound
    cases closedToo
  rw [← bare, same, whole]

end TypeRef

namespace TypeDef

def rename (f : String → String) (d : TypeDef φ) : TypeDef φ :=
  { d with
    parameters := d.parameters.map f
    base := d.base.map (TypeRef.rename f)
    interfaces := d.interfaces.map (TypeRef.rename f) }

def Apart (d : TypeDef φ) (f : String → String) : Prop :=
  ∀ p ∈ d.parameters, ∀ q ∈ d.parameters ++ d.supertypes.flatMap TypeRef.parameters, f p = f q → p = q

instance (d : TypeDef φ) (f : String → String) : Decidable (d.Apart f) := inferInstanceAs
  (Decidable (∀ p ∈ d.parameters, ∀ q ∈ d.parameters ++ d.supertypes.flatMap TypeRef.parameters, f p = f q → p = q))

def Renamed (d e : TypeDef φ) : Prop := ∃ f, d.Apart f ∧ e = d.rename f

variable {d e : TypeDef φ} {f : String → String} {t : TypeRef} {arguments others : List Argument} {p : String}

theorem supertypesRename : (d.rename f).supertypes = d.supertypes.map (TypeRef.rename f) := by
  simp only [supertypes, rename, List.map_append]
  cases d.base <;> rfl

theorem passedRename (apart : d.Apart f) (member : t ∈ d.supertypes) (mentioned : p ∈ t.parameters) :
    (d.rename f).passed arguments (f p) = d.passed arguments p := by
  have pairs : (d.rename f).parameters.zip arguments =
      (d.parameters.zip arguments).map fun pair => (f pair.1, pair.2) := by
    rw [rename, List.zip_map_left]
    rfl
  rw [passedEq, passedEq, pairs, ← List.map_reverse]
  refine lookupRenamed fun pair inside same => ?_
  have own : pair.1 ∈ d.parameters := (List.of_mem_zip (List.mem_reverse.1 inside)).1
  exact apart pair.1 own p (List.mem_append_right _ (List.mem_flatMap.2 ⟨t, member, mentioned⟩)) same

theorem outlinePassed (apart : d.Apart f) (member : t ∈ d.supertypes)
    (same : arguments.map (Argument.substitute .blank) = others.map (Argument.substitute .blank)) :
    (t.substitute (d.passed arguments)).outline = ((t.rename f).substitute ((d.rename f).passed others)).outline := by
  rw [TypeRef.outline, TypeRef.outline, TypeRef.rename, TypeRef.substituteTwice, TypeRef.substituteTwice,
    TypeRef.substituteTwice]
  refine TypeRef.substituteCongr fun p mentioned => ?_
  have outlines : (d.passed arguments p).map (Argument.substitute .blank) =
      (d.passed others p).map (Argument.substitute .blank) := by
    rw [← passedMapped, ← passedMapped, same]
  have back : (d.rename f).passed others (f p) = d.passed others p := passedRename apart member mentioned
  simp only [Bindings.andThen, Bindings.renaming, Argument.substitute, back]
  cases here : d.passed arguments p with
  | none =>
      rw [here] at outlines
      cases there : d.passed others p with
      | none => rfl
      | some b => simp [there] at outlines
  | some a =>
      rw [here] at outlines
      cases there : d.passed others p with
      | none => simp [there] at outlines
      | some b => simpa [there] using outlines

end TypeDef

def Universe.Renamed (u v : Universe φ) : Prop := ∀ name, Option.Rel TypeDef.Renamed (u.find? name) (v.find? name)

namespace Universe
variable {u v : Universe φ} {r s other target : TypeRef} {candidate name : TypeName} {d e : TypeDef φ}

theorem renamedFound (renamed : u.Renamed v) (found : u.find? name = some d) :
    ∃ f, d.Apart f ∧ v.find? name = some (d.rename f) := by
  obtain ⟨_, there, f, apart, whole⟩ := relatedSome (found ▸ renamed name)
  exact ⟨f, apart, whole ▸ there⟩

theorem foundRenamed (renamed : u.Renamed v) (found : v.find? name = some e) :
    ∃ d f, u.find? name = some d ∧ d.Apart f ∧ e = d.rename f := by
  have related := renamed name
  rw [found] at related
  generalize here : u.find? name = first at related
  cases related with
  | some same =>
      obtain ⟨f, apart, whole⟩ := same
      exact ⟨_, f, rfl, apart, whole⟩

theorem supertypeOutlined (renamed : u.Renamed v) (same : r.outline = other.outline) (step : u.Supertype r s) :
    ∃ t, v.Supertype other t ∧ s.outline = t.outline := by
  obtain ⟨d, found, member⟩ := step
  obtain ⟨t, inside, whole⟩ := List.mem_map.1 member
  subst whole
  obtain ⟨f, apart, foundToo⟩ := renamedFound renamed found
  refine ⟨_, ⟨d.rename f, TypeRef.outlineName same ▸ foundToo, ?_⟩,
    TypeDef.outlinePassed apart inside (TypeRef.outlineArguments same)⟩
  refine List.mem_map.2 ⟨t.rename f, ?_, rfl⟩
  rw [TypeDef.supertypesRename]
  exact List.mem_map_of_mem inside

theorem outlinedSupertype (renamed : u.Renamed v) (same : r.outline = other.outline) (step : v.Supertype r s) :
    ∃ t, u.Supertype other t ∧ s.outline = t.outline := by
  obtain ⟨e, found, member⟩ := step
  obtain ⟨d, f, foundToo, apart, whole⟩ := foundRenamed renamed found
  subst whole
  obtain ⟨x, inside, whole⟩ := List.mem_map.1 member
  subst whole
  rw [TypeDef.supertypesRename] at inside
  obtain ⟨t, declared, whole⟩ := List.mem_map.1 inside
  subst whole
  refine ⟨_, ⟨d, TypeRef.outlineName same ▸ foundToo, List.mem_map.2 ⟨t, declared, rfl⟩⟩, ?_⟩
  exact (TypeDef.outlinePassed apart declared (TypeRef.outlineArguments same.symm)).symm

theorem selfOutline (d : TypeDef φ) (f : String → String) : d.selfRef.outline = (d.rename f).selfRef.outline := by
  simp only [TypeDef.selfRef, TypeDef.rename, TypeRef.outline, TypeRef.substitute, List.map_map]
  rfl

theorem aboveOutlined (renamed : u.Renamed v) (above : r ∈ u.Above candidate) :
    ∃ t ∈ v.Above candidate, r.outline = t.outline := by
  obtain ⟨d, found, path⟩ := above
  obtain ⟨f, _, foundToo⟩ := renamedFound renamed found
  obtain ⟨t, pathToo, outlines⟩ := pathSimulated (T := fun r t : TypeRef => r.outline = t.outline)
    (fun _ _ _ same step => supertypeOutlined renamed same step) (selfOutline d f) path
  exact ⟨t, ⟨d.rename f, foundToo, pathToo⟩, outlines⟩

theorem outlinedAbove (renamed : u.Renamed v) (above : r ∈ v.Above candidate) :
    ∃ t ∈ u.Above candidate, r.outline = t.outline := by
  obtain ⟨e, found, path⟩ := above
  obtain ⟨d, f, foundToo, _, whole⟩ := foundRenamed renamed found
  subst whole
  obtain ⟨t, pathToo, outlines⟩ := pathSimulated (T := fun r t : TypeRef => r.outline = t.outline)
    (fun _ _ _ same step => outlinedSupertype renamed same step) (selfOutline d f).symm path
  exact ⟨t, ⟨d, foundToo, pathToo⟩, outlines⟩

theorem assignableRenamed (renamed : u.Renamed v) (closed : target.isClosed = true) :
    u.AssignableTo candidate target ↔ v.AssignableTo candidate target := by
  constructor
  · intro assignable
    obtain ⟨t, above, same⟩ := aboveOutlined renamed assignable
    exact TypeRef.closedOutline closed same.symm ▸ above
  · intro assignable
    obtain ⟨t, above, same⟩ := outlinedAbove renamed assignable
    exact TypeRef.closedOutline closed same.symm ▸ above

theorem answerRenamed (renamed : u.Renamed v) (closed : target.isClosed = true) {limit limitToo : Nat}
    {answer answerToo : Bool} (decided : u.assignable? limit candidate target = some answer)
    (decidedToo : v.assignable? limitToo candidate target = some answerToo) : answer = answerToo := by
  rw [Bool.eq_iff_iff, assignableIff decided, assignableIff decidedToo]
  exact assignableRenamed renamed closed

end Universe

/-! What lies above, by outline -/

theorem listsFinite {α β : Type} {values : β → Set α} {bs : List β} (finite : ∀ b ∈ bs, (values b).Finite) :
    {as : List α | List.Forall₂ (fun a b => a ∈ values b) as bs}.Finite := by
  induction bs with
  | nil =>
      refine (Set.finite_singleton []).subset fun as related => ?_
      cases related
      rfl
  | cons b rest ih =>
      obtain ⟨here, later⟩ := List.forall_mem_cons.1 finite
      refine (Set.Finite.image2 List.cons here (ih later)).subset fun as related => ?_
      cases related with
      | cons first others => exact Set.mem_image2_of_mem first others

namespace Argument
variable {a : Argument} {bindings : Bindings} {p : String}

theorem mentionedAfter (mentioned : p ∈ (a.substitute bindings).parameters) :
    p ∈ a.parameters ∨ ∃ q b, bindings q = some b ∧ p ∈ b.parameters := by
  induction a using nested with
  | unbound => exact .inl mentioned
  | parameter q =>
      cases bound : bindings q with
      | none =>
          simp only [substitute, bound, Option.getD_none] at mentioned
          exact .inl mentioned
      | some b =>
          simp only [substitute, bound, Option.getD_some] at mentioned
          exact .inr ⟨q, b, bound, mentioned⟩
  | type name arguments ih =>
      rw [substituteType] at mentioned
      obtain ⟨_, member, inside⟩ := memParametersType.1 mentioned
      obtain ⟨b, listed, same⟩ := List.mem_map.1 member
      subst same
      exact (ih b listed inside).imp_left fun own => memParametersType.2 ⟨b, listed, own⟩

def Labelled (names : List String) (o : Argument) : Set Argument :=
  {a | a.substitute .blank = o ∧ ∀ p ∈ a.parameters, p ∈ names}

theorem labelledAll {names : List String} {arguments outlines : List Argument}
    (same : arguments.map (substitute .blank) = outlines) (within : ∀ a ∈ arguments, ∀ p ∈ a.parameters, p ∈ names) :
    List.Forall₂ (fun a o => a ∈ Labelled names o) arguments outlines := by
  subst same
  exact List.forall₂_map_right_iff.2 (List.forall₂_same.2 fun a member => ⟨rfl, within a member⟩)

theorem labelledFinite (names : List String) (o : Argument) : (Labelled names o).Finite := by
  induction o using nested with
  | unbound =>
      refine (Set.finite_singleton .unbound).subset fun a ⟨same, _⟩ => ?_
      cases a with
      | unbound => rfl
      | parameter p => cases same
      | type name arguments =>
          rw [substituteType] at same
          cases same
  | parameter q =>
      refine (List.finite_toSet (names.map parameter)).subset fun a ⟨same, within⟩ => ?_
      cases a with
      | unbound => cases same
      | parameter p => exact List.mem_map_of_mem (within p (List.mem_singleton_self p))
      | type name arguments =>
          rw [substituteType] at same
          cases same
  | type name outlines ih =>
      refine ((listsFinite ih).image (type name)).subset fun a ⟨same, within⟩ => ?_
      cases a with
      | unbound => cases same
      | parameter p => cases same
      | type other arguments =>
          rw [substituteType] at same
          obtain ⟨sameName, sameArguments⟩ := Argument.type.inj same
          refine ⟨arguments, labelledAll sameArguments fun a member p inside => ?_,
            congrArg (type · arguments) sameName.symm⟩
          exact within p (memParametersType.2 ⟨a, member, inside⟩)

end Argument

namespace Universe
variable {u v : Universe φ} {r : TypeRef} {candidate : TypeName} {d : TypeDef φ} {p : String}

theorem mentionedAbove (path : ReflTransGen u.Supertype d.selfRef r) (mentioned : p ∈ r.parameters) :
    p ∈ d.selfRef.parameters ++ u.declared.flatMap TypeRef.parameters := by
  induction path generalizing p with
  | refl => exact List.mem_append_left _ mentioned
  | tail _ last ih =>
      obtain ⟨e, found, member⟩ := last
      obtain ⟨t, inside, same⟩ := List.mem_map.1 member
      subst same
      obtain ⟨_, listed, within⟩ := List.mem_flatMap.1 mentioned
      obtain ⟨a, declared, same⟩ := List.mem_map.1 listed
      subst same
      rcases Argument.mentionedAfter within with own | ⟨q, b, bound, passed⟩
      · refine List.mem_append_right _ (List.mem_flatMap.2 ⟨t, declaredOf found inside, ?_⟩)
        exact List.mem_flatMap.2 ⟨a, declared, own⟩
      · obtain ⟨i, _, given⟩ := TypeDef.passedPlace bound
        exact ih (List.mem_flatMap.2 ⟨b, List.mem_of_getElem? given, passed⟩)

theorem finiteOutlined (outlined : ∀ r ∈ u.Above candidate, ∃ t ∈ v.Above candidate, r.outline = t.outline)
    (finite : (v.Above candidate).Finite) : (u.Above candidate).Finite := by
  cases found : u.find? candidate with
  | none => exact aboveUnknown found
  | some d =>
      let names := d.selfRef.parameters ++ u.declared.flatMap TypeRef.parameters
      have few : (⋃ t ∈ v.Above candidate, TypeRef.mk t.name '' {arguments | List.Forall₂
          (fun a o => a ∈ Argument.Labelled names o) arguments t.outline.arguments}).Finite :=
        finite.biUnion fun t _ => (listsFinite fun o _ => Argument.labelledFinite names o).image _
      refine few.subset fun r above => ?_
      obtain ⟨t, aboveToo, same⟩ := outlined r above
      obtain ⟨e, known, path⟩ := above
      rw [found] at known
      cases known
      refine Set.mem_biUnion aboveToo ⟨r.arguments, Argument.labelledAll (TypeRef.outlineArguments same) ?_, ?_⟩
      · exact fun a member p inside => mentionedAbove path (List.mem_flatMap.2 ⟨a, member, inside⟩)
      · rw [← TypeRef.outlineName same]

theorem finiteRenamed (renamed : u.Renamed v) : (u.Above candidate).Finite ↔ (v.Above candidate).Finite :=
  ⟨finiteOutlined fun _ above => outlinedAbove renamed above, finiteOutlined fun _ above => aboveOutlined renamed above⟩

end Universe

theorem TypeRef.closedConstructed {base : TypeRef} (constructed : base.shape = .constructed) :
    base.isClosed = true := by
  unfold shape at constructed
  split at constructed
  · cases constructed
  · split at constructed
    · cases constructed
    · split at constructed
      · assumption
      · cases constructed

namespace SubtypeSearch
variable {g : SubtypeGraph} {u v : Universe φ} {limit limitToo : Nat} {scope : Contribution φ} {recordedOnly : Bool}
  {base : TypeRef} {names namesToo candidates : List TypeName}

theorem keepRenamed (renamed : u.Renamed v) (closed : base.isClosed = true)
    (ok : (⟨g, u, limit⟩ : SubtypeSearch φ).keepAssignable base candidates = .ok names)
    (okToo : (⟨g, v, limitToo⟩ : SubtypeSearch φ).keepAssignable base candidates = .ok namesToo) :
    names = namesToo := by
  have decided := keepDone.1 ⟨names, ok⟩
  have decidedToo := keepDone.1 ⟨namesToo, okToo⟩
  rw [keepFilter decided] at ok
  rw [keepFilter decidedToo] at okToo
  cases ok
  cases okToo
  refine List.filter_congr fun t member => ?_
  obtain ⟨answer, given⟩ := decided t member
  obtain ⟨answerToo, givenToo⟩ := decidedToo t member
  have same := Universe.answerRenamed renamed closed given givenToo
  simp only [given, givenToo, same]

theorem findRenamed (renamed : u.Renamed v)
    (ok : (⟨g, u, limit⟩ : SubtypeSearch φ).find scope recordedOnly base = .ok names)
    (okToo : (⟨g, v, limitToo⟩ : SubtypeSearch φ).find scope recordedOnly base = .ok namesToo) : names = namesToo := by
  rcases shapeCases (boundOfAnswer ok) with constructed | plain
  · rw [findConstructed constructed] at ok okToo
    exact keepRenamed renamed (TypeRef.closedConstructed constructed) ok okToo
  · rw [findPlain plain] at ok okToo
    exact (Except.ok.inj ok).symm.trans (Except.ok.inj okToo)

end SubtypeSearch
end MetadataIndex
