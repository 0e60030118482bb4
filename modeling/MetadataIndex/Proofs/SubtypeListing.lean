import MetadataIndex.Proofs.Assignable
import MetadataIndex.Proofs.LiveIndex

/-! Subtype queries against the live metadata. A search over a scope that speaks for some records finds
every recorded type that derives from the base, and a constructed base keeps what is assignable to it.
The merged contribution speaks for all records, a module's own one for those of the module. -/
namespace MetadataIndex
open Std Relation
variable {φ : Type}

def Universe.Assignable (u : Universe φ) (candidate : TypeName) (target : TypeRef) : Prop :=
  ∃ limit, u.assignable? limit candidate target = some true

structure ListsSubtypes (u : Universe φ) (records : List Record) (base : TypeRef) (answer : List TypeName) :
    Prop where
  others : ∀ t ∈ answer, t ≠ base.name
  recorded : ∀ t ∈ answer, ∃ ρ ∈ records, ρ.type = t
  derived : ∀ t ∈ answer, u.Derives t base.name
  complete : base.shape ≠ .constructed → ∀ ρ ∈ records, ρ.member = none → ρ.type ≠ base.name →
    u.Derives ρ.type base.name → ρ.type ∈ answer
  assignable : base.shape = .constructed → ∀ t ∈ answer, u.Assignable t base
  assigned : base.shape = .constructed → ∀ ρ ∈ records, ρ.member = none → ρ.type ≠ base.name →
    (ρ.type ∈ answer ↔ u.Assignable ρ.type base)

theorem Universe.firstStep {u : Universe φ} {name base : TypeName}
    (path : ReflTransGen u.DirectSupertype name base) (differ : name ≠ base) :
    ∃ above, above ≠ name ∧ u.DirectSupertype name above ∧ ReflTransGen u.DirectSupertype above base := by
  induction path using ReflTransGen.head_induction_on with
  | refl => exact absurd rfl differ
  | @head lower upper step rest ih =>
      by_cases same : upper = lower
      · subst same
        exact ih differ
      · exact ⟨upper, same, step, rest⟩

namespace SubtypeSearch
variable {s : SubtypeSearch φ} {scope : Contribution φ} {base target : TypeRef} {t : TypeName}

theorem keepFilter {candidates : List TypeName}
    (decided : ∀ t ∈ candidates, ∃ answer, s.types.assignable? s.walkLimit t target = some answer) :
    s.keepAssignable target candidates =
      .ok (candidates.filter fun t => s.types.assignable? s.walkLimit t target = some true) := by
  induction candidates with
  | nil => rfl
  | cons first rest ih =>
      obtain ⟨keep, given⟩ := decided first (List.mem_cons_self ..)
      have others := ih fun t member => decided t (List.mem_cons_of_mem _ member)
      rw [keepAssignable, given, others]
      cases keep <;> simp [bind, Except.bind, given]

theorem keepDecided {candidates kept : List TypeName} (ok : s.keepAssignable target candidates = .ok kept)
    (member : t ∈ candidates) : ∃ answer, s.types.assignable? s.walkLimit t target = some answer := by
  induction candidates generalizing kept with
  | nil => cases member
  | cons first rest ih =>
      rw [keepAssignable] at ok
      cases decided : s.types.assignable? s.walkLimit first target with
      | none =>
          rw [decided] at ok
          cases ok
      | some keep =>
          rcases List.mem_cons.1 member with same | later
          · exact ⟨keep, same ▸ decided⟩
          · cases outcome : s.keepAssignable target rest with
            | error e => simp [decided, outcome, bind, Except.bind] at ok
            | ok others => exact ih outcome later

theorem keepDone {candidates : List TypeName} :
    (∃ kept, s.keepAssignable target candidates = .ok kept) ↔
      ∀ t ∈ candidates, ∃ answer, s.types.assignable? s.walkLimit t target = some answer :=
  ⟨fun ⟨_, ok⟩ _ member => keepDecided ok member, fun decided => ⟨_, keepFilter decided⟩⟩

theorem keptAssignable {candidates kept : List TypeName} (ok : s.keepAssignable target candidates = .ok kept) :
    (t ∈ kept ↔ t ∈ candidates ∧ s.types.assignable? s.walkLimit t target = some true) ∧
      (t ∈ candidates → ∃ answer, s.types.assignable? s.walkLimit t target = some answer) := by
  have decided := keepDone.1 ⟨kept, ok⟩
  rw [keepFilter decided] at ok
  cases ok
  exact ⟨by simp only [List.mem_filter, decide_eq_true_eq], decided t⟩

theorem subtypesAnswer {answer : List TypeName} (ok : s.subtypes scope base = .ok answer) :
    (base.shape ≠ .constructed → answer = s.candidates scope true base.name) ∧
      (base.shape = .constructed → s.keepAssignable base (s.candidates scope true base.name) = .ok answer) := by
  unfold subtypes find at ok
  split at ok
  · cases ok
  · next shape => exact ⟨fun other => absurd shape other, fun _ => ok⟩
  · next shape =>
    cases ok
    exact ⟨fun _ => rfl, fun same => absurd (shape.symm.trans same) (by decide)⟩
  · next shape =>
    cases ok
    exact ⟨fun _ => rfl, fun same => absurd (shape.symm.trans same) (by decide)⟩

theorem memSubtypes (ok : s.subtypes scope base = .ok answer) :
    t ∈ answer ↔ t ∈ s.candidates scope true base.name ∧ (base.shape = .constructed → s.types.AssignableTo t base) := by
  obtain ⟨plain, narrowed⟩ := subtypesAnswer ok
  by_cases shape : base.shape = .constructed
  · obtain ⟨kept, decided⟩ := keptAssignable (t := t) (narrowed shape)
    rw [kept]
    refine and_congr_right fun candidate => ?_
    obtain ⟨verdict, given⟩ := decided candidate
    rw [given, Option.some.injEq, Universe.assignableIff given]
    simp only [shape, true_implies]
  · rw [plain shape]
    simp only [shape, false_implies, and_true]

end SubtypeSearch

namespace Registry
variable {r : Registry φ} {scope : Contribution φ} {records : List Record} {limit : Nat} {base : TypeName}
  {t : TypeName}

def search (r : Registry φ) (limit : Nat) : SubtypeSearch φ := ⟨r.graph, r.program.knownTypes, limit⟩

theorem candidateDerives (current : r.Current) (speaks : r.Speaks scope records)
    (member : t ∈ (r.search limit).candidates scope true base) :
    t ≠ base ∧ (∃ ρ ∈ records, ρ.type = t) ∧ r.program.knownTypes.Derives t base := by
  obtain ⟨⟨above, reached, direct⟩, differ, hasType⟩ := SubtypeSearch.memCandidates.1 member
  obtain ⟨kind, edge⟩ := Contribution.memDirectSubtypes.1 direct
  have step := edgeStep current (speaks.known _ edge)
  have path := reachedDerives (SubtypeGraph.memReached.1 reached).2 current
  exact ⟨differ, (speaks.named t).1 (Contribution.containsType.1 (hasType rfl)), TransGen.head' step path⟩

theorem derivedCandidate (current : r.Current) (speaks : r.Speaks scope records) {ρ : Record}
    (record : ρ ∈ records) (whole : ρ.member = none) (differ : ρ.type ≠ base)
    (derives : r.program.knownTypes.Derives ρ.type base) :
    ρ.type ∈ (r.search limit).candidates scope true base := by
  obtain ⟨above, elsewhere, step, path⟩ := Universe.firstStep derives.to_reflTransGen differ
  obtain ⟨kind, edge⟩ := speaks.tells ρ record whole _ _ .refl step elsewhere
  refine SubtypeSearch.memCandidates.2 ⟨⟨above, SubtypeGraph.memReached.2 ⟨?_, ?_⟩, ?_⟩, differ, fun _ => ?_⟩
  · exact (memGraphNames current.coherent above).2 ⟨_, speaks.known _ edge, .inl rfl⟩
  · exact derivesReached current speaks record whole (.single step) path
  · exact Contribution.memDirectSubtypes.2 ⟨kind, edge⟩
  · exact Contribution.containsType.2 ((speaks.named _).2 ⟨ρ, record, rfl⟩)

theorem listsSubtypes {base : TypeRef} {answer : List TypeName} (current : r.Current)
    (speaks : r.Speaks scope records) (ok : (r.search limit).subtypes scope base = .ok answer) :
    ListsSubtypes r.program.knownTypes records base answer := by
  obtain ⟨plain, narrowed⟩ := SubtypeSearch.subtypesAnswer ok
  have candidate : ∀ t ∈ answer, t ∈ (r.search limit).candidates scope true base.name := by
    intro t member
    by_cases shape : base.shape = .constructed
    · exact ((SubtypeSearch.keptAssignable (narrowed shape)).1.1 member).1
    · exact plain shape ▸ member
  exact {
    others := fun t member => (candidateDerives current speaks (candidate t member)).1
    recorded := fun t member => (candidateDerives current speaks (candidate t member)).2.1
    derived := fun t member => (candidateDerives current speaks (candidate t member)).2.2
    complete := by
      intro shape ρ record whole differ derives
      rw [plain shape]
      exact derivedCandidate current speaks record whole differ derives
    assignable := fun shape t member =>
      ⟨limit, ((SubtypeSearch.keptAssignable (narrowed shape)).1.1 member).2⟩
    assigned := by
      intro shape ρ record whole differ
      obtain ⟨kept, decided⟩ := SubtypeSearch.keptAssignable (t := ρ.type) (narrowed shape)
      constructor
      · exact fun member => ⟨limit, (kept.1 member).2⟩
      · intro ⟨steps, found⟩
        -- the search decided within its own limit, and must have decided the same
        have assignable := (Universe.assignableIff found).1 rfl
        have derives := (Universe.assignableDerives assignable).resolve_left differ
        have inside : ρ.type ∈ (r.search limit).candidates scope true base.name :=
          derivedCandidate current speaks record whole differ derives
        obtain ⟨verdict, given⟩ := decided inside
        have positive : verdict = true := (Universe.assignableIff given).2 assignable
        exact kept.2 ⟨inside, positive ▸ given⟩ }

end Registry

theorem listsNothing {u : Universe φ} {base : TypeRef} : ListsSubtypes u [] base [] := by
  constructor <;> simp

namespace Index
variable {ix : Index φ} {base : TypeRef} {answer : List TypeName} {id : ModuleId}

theorem answerSubtypes (ok : ix.answer (Query.subtypes base) = .ok answer) :
    ix.synced.registry.Synced ∧
      (ix.synced.registry.search ix.walkLimit).subtypes ix.synced.registry.global base = .ok answer := by
  obtain ⟨_, _, ok⟩ := answerBind.1 ok
  obtain ⟨_, synced, ok⟩ := answerBind.1 ok
  exact ⟨syncedOf synced, ok⟩

theorem answerSubtypesIn (ok : ix.answer (Query.subtypesIn base id) = .ok answer) :
    (answer = [] ∧ ix.registry.program.recordsIn id = []) ∨
      ∃ c, ix.synced.registry.contribution? id = some c ∧
        (ix.synced.registry.search ix.walkLimit).subtypes c base = .ok answer := by
  obtain ⟨_, _, ok⟩ := answerBind.1 ok
  obtain ⟨found, contributed, ok⟩ := answerBind.1 ok
  rcases answerContribution contributed with ⟨none, plain⟩ | ⟨c, n, some, _, stored, leaves⟩
  · subst none
    cases ok
    refine .inl ⟨rfl, ?_⟩
    unfold Program.recordsIn
    split
    · rfl
    · next m known => simp [CodeModule.recordList, plain m known]
  · subst some
    rw [leaves] at ok
    exact .inr ⟨c, stored, ok⟩

/-- Subtype queries list what derives from the base in the types of the loaded modules, over all
records and over the records of one module. -/
theorem subtypesListed [Preserving φ] (config : Config) (limit : Nat) (modules : List (CodeModule φ))
    (apart : modules.Pairwise CodeModule.Apart) (actions : List (Action φ))
    (quiet : ∀ a ∈ actions, a.quiet = true) (base : TypeRef) (answer : List TypeName) :
    (((ofProgram config limit (.ofModules modules)).run actions).answer (Query.subtypes base) = .ok answer →
      ListsSubtypes (Program.ofModules modules).knownTypes (Program.ofModules modules).records base answer) ∧
    ∀ id, ((ofProgram config limit (.ofModules modules)).run actions).answer (Query.subtypesIn base id) =
        .ok answer →
      ListsSubtypes (Program.ofModules modules).knownTypes ((Program.ofModules modules).recordsIn id)
        base answer := by
  generalize start : ofProgram config limit (.ofModules modules) = first
  have moves : Registry.Moves { program := .ofModules modules } (first.run actions).synced.registry := by
    have before : Registry.Moves first.registry (first.run actions).registry := registrySteps.run quiet
    rw [← start] at before ⊢
    exact before.trans Registry.syncMoves
  have current := Registry.currentAfter apart moves
  have types := Registry.movesTypes moves
  obtain ⟨records, recordsIn⟩ := Registry.movesRecords moves
  constructor
  · intro ok
    obtain ⟨synced, found⟩ := answerSubtypes ok
    have listed := Registry.listsSubtypes current (Registry.globalSpeaks current synced) found
    rwa [types, records] at listed
  · intro id ok
    rcases answerSubtypesIn ok with ⟨nothing, noRecords⟩ | ⟨c, stored, found⟩
    · have same : (first.run actions).synced.registry.program.recordsIn id =
          (first.run actions).registry.program.recordsIn id := (Registry.movesRecords Registry.syncMoves).2 id
      rw [nothing, ← recordsIn id, same, noRecords]
      exact listsNothing
    · obtain ⟨m, member, sameId, _, _⟩ := Registry.currentTold current stored
      subst sameId
      have listed := Registry.listsSubtypes current (Registry.moduleSpeaks current member stored) found
      rwa [← Registry.recordsOfModule current.coherent member, types, recordsIn] at listed

def layeredModules : List CodeModule :=
  [({ id := "Runtime" } : CodeModule)
      |>.define { name := "Base", owner := "Runtime", kind := .classType }
      |>.define { name := "Box", owner := "Runtime", kind := .interfaceType, parameters := ["T"] },
    ({ id := "Middle" } : CodeModule)
      |>.define { name := "Between", owner := "Middle", kind := .classType, base := some { name := "Base" } },
    (({ id := "Top" } : CodeModule)
      |>.define { name := "Leaf", owner := "Top", kind := .classType, base := some { name := "Between" } }
      |>.define {
          name := "IntBox"
          owner := "Top"
          kind := .classType
          interfaces := [{ name := "Box", arguments := [.type "Int" []] }] }).withRecords
      (.delayed [{ type := "Leaf" }, { type := "IntBox" }])]

theorem layeredListed :
    ListsSubtypes (Program.ofModules layeredModules).knownTypes (Program.ofModules layeredModules).records
        { name := "Base" } ["Leaf"] ∧
      ListsSubtypes (Program.ofModules layeredModules).knownTypes
        ((Program.ofModules layeredModules).recordsIn "Top")
        { name := "Box", arguments := [.type "Int" []] } ["IntBox"] :=
  ⟨(subtypesListed {} 10 layeredModules (by decide +kernel) [.instances, .release] (by decide) _ _).1
      (by decide +kernel),
    (subtypesListed {} 10 layeredModules (by decide +kernel) [] (by decide) _ _).2 "Top"
      (by decide +kernel)⟩

end Index
end MetadataIndex
