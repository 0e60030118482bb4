import MetadataIndex.Proofs.CollectOutcomes

/-! A subtype search over any graph, in terms of the edges that the graph was built from and of one
scope. Reaching goes along the edges; reporting goes by what the scope files under each name reached.
The traversal of the graph always ends, so a search that has no answer yet waits for the supertype
walk of a name that it would report. -/
namespace MetadataIndex
open Std Relation
variable {φ : Type}

def Edge.Joins (edges : List Edge) (base derived : TypeName) : Prop :=
  ∃ e ∈ edges, e.base = base ∧ e.derived = derived

def Edge.Ends (edges : List Edge) (name : TypeName) : Prop := ∃ e ∈ edges, name = e.base ∨ name = e.derived

namespace SubtypeGraph
variable {edges : List Edge} {base name : TypeName}

theorem endsOnPath (start : Edge.Ends edges base) (path : ReflTransGen (Edge.Joins edges) base name) :
    Edge.Ends edges name := by
  cases path with
  | refl => exact start
  | tail _ last =>
      obtain ⟨e, member, _, derived⟩ := last
      exact ⟨e, member, .inr derived.symm⟩

theorem startOfPath (last : Edge.Ends edges name) (path : ReflTransGen (Edge.Joins edges) base name) :
    Edge.Ends edges base := by
  rcases path.cases_head with same | ⟨next, first, _⟩
  · exact same ▸ last
  · obtain ⟨e, member, leaves, _⟩ := first
    exact ⟨e, member, .inl leaves.symm⟩

theorem reachedOfEdges :
    name ∈ (ofEdges edges).reached base ↔
      Edge.Ends edges base ∧ ReflTransGen (Edge.Joins edges) base name := by
  have links : (fun b d => d ∈ ((ofEdges edges).below b).toList) = Edge.Joins edges := by
    funext b d
    exact propext memBelowOfEdges
  rw [memReached, namesOfEdges, links]
  constructor
  · intro ⟨last, path⟩
    exact ⟨startOfPath last path, path⟩
  · intro ⟨start, path⟩
    exact ⟨endsOnPath start path, path⟩

end SubtypeGraph

structure Edge.Reports (edges : List Edge) (scope : Contribution φ) (recordedOnly : Bool)
    (base name : TypeName) : Prop where
  differs : name ≠ base
  node : Ends edges base
  below : ∃ above, ReflTransGen (Joins edges) base above ∧ name ∈ scope.directSubtypes above
  recorded : recordedOnly = true → name ∈ scope.types.toList

structure ExactSearch (edges : List Edge) (u : Universe φ) (scope : Contribution φ) (recordedOnly : Bool)
    (base : TypeRef) (search : Nat → Except QueryError (List TypeName)) : Prop where
  rejected : ∀ limit rejectedBase, search limit = .error (.unsupportedGenericQuery rejectedBase) ↔
    base.shape = .partiallyBound ∧ rejectedBase = base
  answered : base.shape = .nonGeneric ∨ base.shape = .definition → ∀ limit, ∃ names, search limit = .ok names
  ends : base.shape = .constructed →
    ((∃ limit names, search limit = .ok names) ↔ ∀ t, Edge.Reports edges scope recordedOnly base.name t →
      ∃ limit verdict, u.assignable? limit t base = some verdict)
  finite : base.shape = .constructed → (∀ t, Edge.Reports edges scope recordedOnly base.name t →
      ∃ reached : List TypeRef, ∀ d, u.find? t = some d → ∀ r, ReflTransGen u.Supertype d.selfRef r → r ∈ reached) →
    ∃ limit names, search limit = .ok names
  waits : base.shape ≠ .partiallyBound → ∀ limit e, search limit = .error e →
    base.shape = .constructed ∧ ∃ t, Edge.Reports edges scope recordedOnly base.name t ∧
      u.assignable? limit t base = none ∧ e = .undecided t base
  steady : ∀ limit names extra, search limit = .ok names → search (limit + extra) = .ok names
  distinct : ∀ limit names, search limit = .ok names → names.Nodup
  exact : ∀ limit names, search limit = .ok names → ∀ t, t ∈ names ↔
    Edge.Reports edges scope recordedOnly base.name t ∧ (base.shape = .constructed → u.Assignable t base)
  noNode : base.shape ≠ .partiallyBound → ¬ Edge.Ends edges base.name → ∀ limit, search limit = .ok []

namespace SubtypeSearch
variable {edges : List Edge} {u : Universe φ} {scope : Contribution φ} {recordedOnly : Bool} {base : TypeRef}
  {t name : TypeName} {limit : Nat} {names : List TypeName} {e : QueryError}

theorem candidatesOfEdges :
    t ∈ (⟨.ofEdges edges, u, limit⟩ : SubtypeSearch φ).candidates scope recordedOnly name ↔
      Edge.Reports edges scope recordedOnly name t := by
  rw [memCandidates]
  constructor
  · intro ⟨⟨above, reached, direct⟩, differs, recorded⟩
    obtain ⟨node, path⟩ := SubtypeGraph.reachedOfEdges.1 reached
    exact ⟨differs, node, ⟨above, path, direct⟩, fun only => Contribution.containsType.1 (recorded only)⟩
  · intro ⟨differs, node, ⟨above, path, direct⟩, recorded⟩
    exact ⟨⟨above, SubtypeGraph.reachedOfEdges.2 ⟨node, path⟩, direct⟩, differs,
      fun only => Contribution.containsType.2 (recorded only)⟩

section Constructed
variable (constructed : base.shape = .constructed)
include constructed

theorem findConstructed (s : SubtypeSearch φ) :
    s.find scope recordedOnly base = s.keepAssignable base (s.candidates scope recordedOnly base.name) := by
  rw [find, constructed]

theorem findDecided (ok : (⟨.ofEdges edges, u, limit⟩ : SubtypeSearch φ).find scope recordedOnly base = .ok names)
    (reports : Edge.Reports edges scope recordedOnly base.name t) :
    ∃ verdict, u.assignable? limit t base = some verdict := by
  rw [findConstructed constructed] at ok
  exact keepDone.1 ⟨names, ok⟩ t (candidatesOfEdges.2 reports)

theorem findEnds (decided : ∀ t, Edge.Reports edges scope recordedOnly base.name t →
      ∃ limit verdict, u.assignable? limit t base = some verdict) :
    ∃ limit names, (⟨.ofEdges edges, u, limit⟩ : SubtypeSearch φ).find scope recordedOnly base = .ok names := by
  let s : SubtypeSearch φ := ⟨.ofEdges edges, u, 0⟩
  have each : ∀ t ∈ s.candidates scope recordedOnly base.name, ∃ limit verdict,
      u.assignable? limit t base = some verdict := fun t candidate => decided t (candidatesOfEdges.1 candidate)
  obtain ⟨limit, known⟩ := Universe.decidedTogether each
  refine ⟨limit, _, (findConstructed constructed _).trans (keepFilter known)⟩

theorem findSteady (extra : Nat)
    (ok : (⟨.ofEdges edges, u, limit⟩ : SubtypeSearch φ).find scope recordedOnly base = .ok names) :
    (⟨.ofEdges edges, u, limit + extra⟩ : SubtypeSearch φ).find scope recordedOnly base = .ok names := by
  let longer : SubtypeSearch φ := ⟨.ofEdges edges, u, limit + extra⟩
  rw [findConstructed constructed] at ok
  have decided := keepDone.1 ⟨names, ok⟩
  rw [keepFilter decided] at ok
  have later : ∀ t ∈ longer.candidates scope recordedOnly base.name,
      ∃ answer, u.assignable? (limit + extra) t base = some answer := by
    intro t candidate
    obtain ⟨verdict, given⟩ := decided t candidate
    exact ⟨verdict, Universe.assignableMore given extra⟩
  rw [findConstructed constructed, ← ok]
  refine (keepFilter later).trans (congrArg Except.ok (List.filter_congr fun t candidate => ?_))
  obtain ⟨verdict, given⟩ := decided t candidate
  simp only [given, Universe.assignableMore given extra]

theorem findStuck (failed : (⟨.ofEdges edges, u, limit⟩ : SubtypeSearch φ).find scope recordedOnly base = .error e) :
    ∃ t, Edge.Reports edges scope recordedOnly base.name t ∧ u.assignable? limit t base = none ∧
      e = .undecided t base := by
  rw [findConstructed constructed] at failed
  obtain ⟨t, candidate, stuck, same⟩ := keepStuck failed
  exact ⟨t, candidatesOfEdges.1 candidate, stuck, same⟩

theorem memFindConstructed
    (ok : (⟨.ofEdges edges, u, limit⟩ : SubtypeSearch φ).find scope recordedOnly base = .ok names) :
    t ∈ names ↔ Edge.Reports edges scope recordedOnly base.name t ∧ u.Assignable t base := by
  rw [findConstructed constructed] at ok
  obtain ⟨kept, decided⟩ := keptAssignable (t := t) ok
  rw [kept, candidatesOfEdges]
  refine and_congr_right fun reports => ⟨fun found => ⟨limit, found⟩, fun ⟨steps, found⟩ => ?_⟩
  -- the search decided this name within its own limit, and must have decided the same
  obtain ⟨verdict, given⟩ := decided (candidatesOfEdges.2 reports)
  have positive : verdict = true := (Universe.assignableIff given).2 ((Universe.assignableIff found).1 rfl)
  exact positive ▸ given

end Constructed

theorem findPlain (plain : base.shape = .nonGeneric ∨ base.shape = .definition) (s : SubtypeSearch φ) :
    s.find scope recordedOnly base = .ok (s.candidates scope recordedOnly base.name) := by
  rcases plain with shape | shape
  · rw [find, shape]
  · rw [find, shape]

theorem findPartial (shape : base.shape = .partiallyBound) (s : SubtypeSearch φ) :
    s.find scope recordedOnly base = .error (.unsupportedGenericQuery base) := by
  rw [find, shape]

theorem shapeCases (bound : base.shape ≠ .partiallyBound) :
    base.shape = .constructed ∨ base.shape = .nonGeneric ∨ base.shape = .definition := by
  cases shape : base.shape with
  | partiallyBound => exact absurd shape bound
  | constructed => exact .inl rfl
  | nonGeneric => exact .inr (.inl rfl)
  | definition => exact .inr (.inr rfl)

theorem boundOfAnswer {s : SubtypeSearch φ} (ok : s.find scope recordedOnly base = .ok names) :
    base.shape ≠ .partiallyBound := by
  intro shape
  rw [findPartial shape] at ok
  cases ok

theorem findWaits (bound : base.shape ≠ .partiallyBound)
    (failed : (⟨.ofEdges edges, u, limit⟩ : SubtypeSearch φ).find scope recordedOnly base = .error e) :
    base.shape = .constructed ∧ ∃ t, Edge.Reports edges scope recordedOnly base.name t ∧
      u.assignable? limit t base = none ∧ e = .undecided t base := by
  rcases shapeCases bound with constructed | plain
  · exact ⟨constructed, findStuck constructed failed⟩
  · rw [findPlain plain] at failed
    cases failed

theorem findDistinct {s : SubtypeSearch φ} (ok : s.find scope recordedOnly base = .ok names) : names.Nodup := by
  have distinct : (s.candidates scope recordedOnly base.name).Nodup := firstOccurrencesNodup _
  rcases shapeCases (boundOfAnswer ok) with constructed | plain
  · rw [findConstructed constructed] at ok
    have kept := ok.symm.trans (keepFilter (keepDone.1 ⟨names, ok⟩))
    cases kept
    exact distinct.filter _
  · rw [findPlain plain] at ok
    cases ok
    exact distinct

theorem memFind (ok : (⟨.ofEdges edges, u, limit⟩ : SubtypeSearch φ).find scope recordedOnly base = .ok names) :
    t ∈ names ↔ Edge.Reports edges scope recordedOnly base.name t ∧
      (base.shape = .constructed → u.Assignable t base) := by
  rcases shapeCases (boundOfAnswer ok) with constructed | plain
  · rw [memFindConstructed constructed ok]
    simp only [constructed, true_implies]
  · have other : base.shape ≠ .constructed := by
      rcases plain with shape | shape <;> simp [shape]
    rw [findPlain plain] at ok
    cases ok
    simp only [candidatesOfEdges, other, false_implies, and_true]

theorem findNothing (bound : base.shape ≠ .partiallyBound) (absent : ¬ Edge.Ends edges base.name) :
    (⟨.ofEdges edges, u, limit⟩ : SubtypeSearch φ).find scope recordedOnly base = .ok [] := by
  let s : SubtypeSearch φ := ⟨.ofEdges edges, u, limit⟩
  have none : s.candidates scope recordedOnly base.name = [] :=
    List.eq_nil_iff_forall_not_mem.2 fun _ candidate => absent (candidatesOfEdges.1 candidate).node
  rcases shapeCases bound with constructed | plain
  · exact (findConstructed constructed s).trans (by rw [none]; rfl)
  · exact (findPlain plain s).trans (by rw [none])

theorem findExact (edges : List Edge) (u : Universe φ) (scope : Contribution φ) (recordedOnly : Bool)
    (base : TypeRef) :
    ExactSearch edges u scope recordedOnly base fun limit =>
      (⟨.ofEdges edges, u, limit⟩ : SubtypeSearch φ).find scope recordedOnly base where
  rejected := by
    intro limit rejectedBase
    constructor
    · intro failed
      by_cases shape : base.shape = .partiallyBound
      · rw [findPartial shape] at failed
        cases failed
        exact ⟨shape, rfl⟩
      · obtain ⟨_, _, _, _, other⟩ := findWaits shape failed
        cases other
    · intro ⟨shape, same⟩
      rw [same]
      exact findPartial shape _
  answered := fun plain limit => ⟨_, findPlain plain _⟩
  ends := fun constructed =>
    ⟨fun ⟨limit, _, ok⟩ _ reports => ⟨limit, findDecided constructed ok reports⟩, findEnds constructed⟩
  finite := by
    intro constructed few
    refine findEnds constructed fun t reports => ?_
    obtain ⟨reached, closed⟩ := few t reports
    obtain ⟨limit, decided⟩ := Universe.decidedFinite closed
    exact ⟨limit, decided base⟩
  waits := fun bound _ _ failed => findWaits bound failed
  steady := by
    intro limit names extra ok
    rcases shapeCases (boundOfAnswer ok) with constructed | plain
    · exact findSteady constructed extra ok
    · rw [findPlain plain] at ok ⊢
      exact ok
  distinct := fun _ _ ok => findDistinct ok
  exact := fun _ _ ok _ => memFind ok
  noNode := fun bound absent _ => findNothing bound absent

theorem findFails {s : SubtypeSearch φ} (failed : s.find scope recordedOnly base = .error e) :
    (base.shape = .partiallyBound ∧ e = .unsupportedGenericQuery base) ∨
      (base.shape = .constructed ∧ ∃ t, s.types.assignable? s.walkLimit t base = none ∧ e = .undecided t base) := by
  by_cases bound : base.shape = .partiallyBound
  · rw [findPartial bound] at failed
    cases failed
    exact .inl ⟨bound, rfl⟩
  · rcases shapeCases bound with constructed | plain
    · rw [findConstructed constructed] at failed
      obtain ⟨t, _, stuck, same⟩ := keepStuck failed
      exact .inr ⟨constructed, t, stuck, same⟩
    · rw [findPlain plain] at failed
      cases failed

/-- Both searches report exactly what the edges and the scope say, over every graph built from edges. -/
theorem searchesExact (edges : List Edge) (u : Universe φ) (scope : Contribution φ) (base : TypeRef) :
    ExactSearch edges u scope true base
        (fun limit => (⟨.ofEdges edges, u, limit⟩ : SubtypeSearch φ).subtypes scope base) ∧
      ExactSearch edges u scope false base fun limit =>
        (⟨.ofEdges edges, u, limit⟩ : SubtypeSearch φ).descendants scope base :=
  ⟨findExact edges u scope true base, findExact edges u scope false base⟩

def repoBase : TypeRef := ⟨"Repo", [.type "Int" []]⟩

def repoEdges : List Edge := [⟨"Repo", "Grow", .inherits⟩]

def repoScope : Contribution := ((({} : Contribution).addEdges repoEdges).2.addTypes ["Grow"]).2

theorem growingSearchWaits : repoBase.shape = .constructed ∧ ¬ growing.AssignableTo "Grow" repoBase ∧
    ∀ limit, (⟨.ofEdges repoEdges, growing, limit⟩ : SubtypeSearch).subtypes repoScope repoBase =
        .error (.undecided "Grow" repoBase) ∧
      (⟨.ofEdges repoEdges, growing, limit⟩ : SubtypeSearch).descendants repoScope repoBase =
        .error (.undecided "Grow" repoBase) := by
  have constructed : repoBase.shape = .constructed := by decide
  -- the names to report do not depend on the limit
  have reported : ∀ recordedOnly, (⟨.ofEdges repoEdges, growing, 0⟩ : SubtypeSearch).candidates repoScope recordedOnly
      repoBase.name = ["Grow"] := by
    decide +kernel
  have waits (recordedOnly : Bool) (limit : Nat) :
      (⟨.ofEdges repoEdges, growing, limit⟩ : SubtypeSearch).find repoScope recordedOnly repoBase =
        .error (.undecided "Grow" repoBase) := by
    have candidates : (⟨.ofEdges repoEdges, growing, limit⟩ : SubtypeSearch).candidates repoScope recordedOnly
        repoBase.name = ["Grow"] := reported recordedOnly
    rw [findConstructed constructed, candidates, keepAssignable, Universe.growsUndecided growingKnown growTypeGrows (by decide)]
  exact ⟨constructed, Universe.growsApart growingKnown growTypeGrows (by decide), fun limit => ⟨waits true limit, waits false limit⟩⟩

def cyclicEdges : List Edge :=
  [⟨"Base", "Base", .inherits⟩, ⟨"Base", "Middle", .inherits⟩, ⟨"Middle", "Leaf", .implements⟩,
    ⟨"Leaf", "Base", .inherits⟩]

example : (⟨.ofEdges cyclicEdges, {}, 0⟩ : SubtypeSearch).subtypes
    ((({} : Contribution).addEdges cyclicEdges).2.addTypes ["Leaf", "Base"]).2 { name := "Base" } = .ok ["Leaf"] := by
  decide +kernel

end SubtypeSearch
end MetadataIndex
