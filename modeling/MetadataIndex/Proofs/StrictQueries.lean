import MetadataIndex.Proofs.ScopedSubtypes
import MetadataIndex.Proofs.SyncOutcomes

/-! Strict indexes beside lenient ones. A strict index rejects a query for a name that is not retrievable
and treats every other query as a lenient index does. The lenient answer to a rejected query holds what
the graph and the marks hold below the name, so it is empty exactly when they hold nothing there. -/
namespace MetadataIndex
open Std Relation
variable {φ : Type}

def QueryError.Rejects (e : QueryError) (name : TypeName) : Prop := e = .unknownType name ∨ e = .notRetrievable name

inductive Tightened {α : Type} (name : TypeName) (retrievable : Prop) (strict lenient : Except QueryError α) :
    Prop where
  | kept (same : strict = lenient) (inside : retrievable ∨ ∃ e, lenient = .error e)
  | rejected {e : QueryError} (outside : ¬ retrievable) (cause : e.Rejects name) (stopped : strict = .error e)

section Tightening
variable {α β : Type} {name : TypeName} {retrievable : Prop} {strict relaxed : Except QueryError α}
  {lenient : Except QueryError β} {kind : QueryError → QueryError → Prop} {compare : α → β → Prop} {a : α} {b : β}
  {e : QueryError} (tightened : Tightened name retrievable strict relaxed)
  (same : SameOutcome kind compare relaxed lenient)
include tightened same

theorem tightenedAnswers (ok : strict = .ok a) : relaxed = .ok a ∧ ∃ b, lenient = .ok b ∧ compare a b := by
  cases tightened with
  | rejected _ _ stopped =>
      rw [stopped] at ok
      cases ok
  | kept equal _ =>
      have answered : relaxed = .ok a := equal.symm.trans ok
      rw [answered] at same
      cases same with
      | answers compared => exact ⟨answered, _, rfl, compared⟩

theorem tightenedRejects (outside : ¬ retrievable) (ok : lenient = .ok b) :
    ∃ e, e.Rejects name ∧ strict = .error e := by
  cases tightened with
  | rejected _ cause stopped => exact ⟨_, cause, stopped⟩
  | kept _ inside =>
      obtain ⟨e, failed⟩ := inside.resolve_left outside
      rw [failed, ok] at same
      cases same

theorem tightenedFails (failed : strict = .error e) :
    ¬ retrievable ∧ e.Rejects name ∨ ∃ d, lenient = .error d ∧ kind e d := by
  cases tightened with
  | rejected outside cause stopped =>
      rw [stopped] at failed
      cases failed
      exact .inl ⟨outside, cause⟩
  | kept equal _ =>
      rw [← equal, failed] at same
      cases same with
      | fails kinds => exact .inr ⟨_, rfl, kinds⟩

end Tightening

namespace Universe
variable {u : Universe φ} {name : TypeName}

theorem collectsUnknown (unknown : u.find? name = none) : u.collectsSubtypes name = false := by
  refine List.any_eq_false.2 fun d member => ?_
  obtain ⟨found, path⟩ := memClosure.1 member
  rcases ReflTransGen.cases_head path with same | ⟨_, ⟨first, known, _⟩, _⟩
  · rw [← same, unknown] at found
    cases found
  · rw [unknown] at known
    cases known

theorem annotationUnknown (unknown : u.find? name = none) : u.isRetrievableAnnotationType name = false := by
  simp [isRetrievableAnnotationType, isAnnotationType, unknown]

end Universe

def Index.relaxed (ix : Index φ) : Index φ := { ix with config := { ix.config with strict := false } }

namespace Query
variable {α β : Type} {q : QueryOver φ α} {f : α → QueryOver φ β}

def Blind (q : QueryOver φ α) : Prop := Carries (fun ix iy => iy = ix.relaxed) q

theorem blindSync : Blind (Query.sync : QueryOver φ _) := by
  rintro ix _ rfl
  exact ⟨rfl, rfl⟩

theorem blindAttributeView : Blind (Query.attributeView : QueryOver φ _) := by
  rintro ix _ rfl
  exact ⟨rfl, rfl⟩

theorem blindRead {g : Index φ → Except QueryError α} (same : ∀ ix : Index φ, g ix = g ix.relaxed) :
    Blind (Query.read g) := by
  rintro ix _ rfl
  exact ⟨same ix, rfl⟩

theorem blindPure (a : α) : Blind (pure a : QueryOver φ α) := by
  rintro ix _ rfl
  exact ⟨rfl, rfl⟩

theorem blindBind (first : Blind q) (rest : ∀ a, Blind (f a)) : Blind (q >>= f) := carriesBind first rest

end Query

namespace Index
variable {α β : Type} {ix strict lenient : Index φ} {check : Index φ → Except QueryError Unit} {rest : QueryOver φ α}
  {base : TypeRef} {type name : TypeName} {retrievable : Prop}

theorem checkBaseTightened (strict : ix.config.strict = true) :
    Tightened base.name (ix.isRetrievable base.name = true) (ix.checkBase base) (ix.relaxed.checkBase base) := by
  by_cases bound : base.shape = .partiallyBound
  · refine .kept ?_ (.inr ⟨.unsupportedGenericQuery base, if_pos bound⟩)
    rw [checkBase, checkBase, if_pos bound, if_pos bound]
  · have passes : ix.relaxed.checkBase base = .ok () := by
      rw [checkBase, if_neg bound]
      rfl
    rw [passes, checkBase, if_neg bound, strict]
    cases found : ix.types.find? base.name with
    | none =>
        refine .rejected ?_ (.inl rfl) rfl
        simp [isRetrievable, Universe.annotationUnknown found, Universe.collectsUnknown found]
    | some d =>
        cases inside : ix.isRetrievable base.name with
        | true => exact .kept rfl (.inl rfl)
        | false => exact .rejected Bool.false_ne_true (.inr rfl) rfl

theorem checkTypeTightened (strict : ix.config.strict = true) :
    Tightened type (ix.types.isRetrievableAnnotationType type = true) (ix.checkAnnotationType type)
      (ix.relaxed.checkAnnotationType type) := by
  have types : ix.relaxed.types = ix.types := rfl
  unfold checkAnnotationType
  rw [types]
  cases ix.types.find? type with
  | none => exact .kept rfl (.inr ⟨_, rfl⟩)
  | some d =>
      by_cases kind : d.kind ≠ .annotationType
      · refine .kept ?_ (.inr ⟨.notAnAnnotationType type, if_pos kind⟩)
        simp only [if_pos kind]
      · simp only [if_neg kind, strict]
        cases inside : ix.types.isRetrievableAnnotationType type with
        | true => exact .kept rfl (.inl rfl)
        | false => exact .rejected Bool.false_ne_true (.inr rfl) rfl

theorem guardedTightened (blind : Query.Blind rest)
    (checked : Tightened name retrievable (check ix) (check ix.relaxed)) :
    Tightened name retrievable (ix.answer (Query.guarded check rest))
      (ix.relaxed.answer (Query.guarded check rest)) := by
  cases checked with
  | rejected outside cause stopped => exact .rejected outside cause (guardedRefused stopped)
  | kept same inside =>
      cases outcome : check ix.relaxed with
      | error e =>
          rw [guardedRefused (same.trans outcome), guardedRefused outcome]
          exact .kept rfl (.inr ⟨e, rfl⟩)
      | ok _ =>
          have allowed : retrievable := by
            refine inside.resolve_right fun ⟨e, failed⟩ => ?_
            rw [outcome] at failed
            cases failed
          have synced : Query.Blind (Query.sync >>= fun _ => rest) := Query.blindBind Query.blindSync fun _ => blind
          rw [guardedPassed (same.trans outcome), guardedPassed outcome]
          exact .kept (synced rfl).1 (.inl allowed)

structure Contrasts (strict lenient : Index φ) : Prop where
  setting : strict.config.strict = true
  abreast : strict.relaxed.Abreast lenient

def HoldsBelow (ix : Index φ) (base : TypeRef) (t : TypeName) : Prop :=
  t ≠ base.name ∧ ix.synced.registry.Below base.name t ∧ t ∈ ix.synced.registry.global.types.toList ∧
    (base.shape = .constructed → ix.types.AssignableTo t base)

def TagsBelow (ix : Index φ) (type : TypeName) (tag : Tag) : Prop :=
  ix.synced.registry.global.Shows ix.types tag ∧ ix.synced.registry.Below type tag.type

structure Stricter (strict lenient : Index φ) (q : QueryOver φ (List α)) (name : TypeName) (retrievable : Prop)
    (kind : QueryError → QueryError → Prop) (key : α → β) (held : β → Prop) : Prop where
  answers : ∀ a, strict.answer q = .ok a →
    strict.relaxed.answer q = .ok a ∧ ∃ b, lenient.answer q = .ok b ∧ SameMembers (a.map key) (b.map key)
  rejects : ¬ retrievable → ∀ b, lenient.answer q = .ok b → ∃ e, e.Rejects name ∧ strict.answer q = .error e
  fails : ∀ e, strict.answer q = .error e →
    ¬ retrievable ∧ e.Rejects name ∨ ∃ d, lenient.answer q = .error d ∧ kind e d
  found : ∀ b, lenient.answer q = .ok b → ∀ x, x ∈ b.map key ↔ held x
  empty : ∀ b, lenient.answer q = .ok b →
    ((∀ e, strict.answer q = .error e → b = []) ↔ retrievable ∨ ∀ x, ¬ held x)

theorem stricterOf {q : QueryOver φ (List α)} {kind : QueryError → QueryError → Prop} {key : α → β} {held : β → Prop}
    (tightened : Tightened name retrievable (strict.answer q) (strict.relaxed.answer q))
    (same : SameOutcome kind (fun a b => SameMembers (a.map key) (b.map key)) (strict.relaxed.answer q)
      (lenient.answer q))
    (found : ∀ b, lenient.answer q = .ok b → ∀ x, x ∈ b.map key ↔ held x) :
    Stricter strict lenient q name retrievable kind key held where
  answers := fun _ ok => tightenedAnswers tightened same ok
  rejects := fun outside _ ok => tightenedRejects tightened same outside ok
  fails := fun _ failed => tightenedFails tightened same failed
  found := found
  empty := by
    intro b ok
    have nothing : b = [] ↔ ∀ x, ¬ held x := by
      rw [← List.map_eq_nil_iff (f := key), List.eq_nil_iff_forall_not_mem]
      exact forall_congr' fun x => not_congr (found b ok x)
    rw [← nothing]
    constructor
    · intro emptied
      by_cases inside : retrievable
      · exact .inl inside
      · obtain ⟨e, _, stopped⟩ := tightenedRejects tightened same inside ok
        exact .inr (emptied e stopped)
    · rintro (inside | emptied) e stopped
      · rcases tightenedFails tightened same stopped with ⟨outside, _⟩ | ⟨d, failed, _⟩
        · exact absurd inside outside
        · rw [ok] at failed
          cases failed
      · exact emptied

section Contrast
variable (contrast : strict.Contrasts lenient)
include contrast

theorem contrastTypes : strict.types = lenient.types := by
  have relaxed : strict.relaxed.types = lenient.types := abreastTypes contrast.abreast
  exact relaxed

theorem contrastSubtypes (base : TypeRef) :
    Stricter strict lenient (Query.subtypes base) base.name (lenient.isRetrievable base.name = true)
      QueryError.SameKind id (lenient.HoldsBelow base) := by
  have retrievable : strict.isRetrievable base.name = lenient.isRetrievable base.name := by
    rw [isRetrievable, isRetrievable, contrastTypes contrast]
  refine stricterOf ?_ ?_ fun b ok t => ?_
  · rw [← retrievable, Query.subtypesGuarded]
    exact guardedTightened (Query.blindRead fun _ => rfl) (checkBaseTightened contrast.setting)
  · simp only [List.map_id]
    exact subtypesAbreast contrast.abreast base
  · rw [List.map_id, wholeFound contrast.abreast.viewsToo ok]
    rfl

theorem contrastAttributes (type : TypeName) :
    Stricter strict lenient (Query.attributes type) type (lenient.types.isRetrievableAnnotationType type = true)
      lenient.materializer.SameFault Instance.id (lenient.TagsBelow type) := by
  have materializers : strict.relaxed.materializer = lenient.materializer := by
    rw [materializer, materializer, abreastTypes contrast.abreast, contrast.abreast.limit]
  refine stricterOf ?_ ?_ fun b ok tag => ?_
  · rw [← contrastTypes contrast, Query.attributesGuarded]
    refine guardedTightened ?_ (checkTypeTightened contrast.setting)
    exact Query.blindBind Query.blindAttributeView fun _ => Query.blindBind (Query.blindRead fun _ => rfl) fun _ =>
      Query.blindPure _
  · rw [← materializers]
    exact attributesAbreast contrast.abreast type
  · rw [attributesShow contrast.abreast.viewsToo ok, shownSame (viewSteps.attributes type)]
    rfl

end Contrast

theorem relaxedViews {w : Universe φ} (views : ix.Views w) : ix.relaxed.Views w :=
  ⟨views.coherent, views.older, views.types, views.attributes, views.timely⟩

structure Queried (ix : Index φ) (config : Config) (limit : Nat) (modules : List (CodeModule φ)) : Prop where
  config : ix.config = config
  limit : ix.walkLimit = limit
  alike : ix.registry.program.Alike (.ofModules modules)
  derived : ix.registry.Derived (· = ix.registry.program.knownTypes)
  views : ix.Views ix.types

theorem queriedRun [Preserving φ] (config : Config) (limit : Nat) (modules : List (CodeModule φ))
    {actions : List (Action φ)}
    (quiet : ∀ a ∈ actions, a.quiet = true) :
    ((ofProgram config limit (.ofModules modules)).run actions).Queried config limit modules := by
  have keeps : (ofProgram config limit (.ofModules modules)).Keeps
      ((ofProgram config limit (.ofModules modules)).run actions) := viewSteps.run quiet
  have moves : Registry.Moves (ofProgram config limit (.ofModules modules)).registry
      ((ofProgram config limit (.ofModules modules)).run actions).registry := registrySteps.run quiet
  exact {
    config := configSteps.run quiet
    limit := keeps.limit
    alike := Registry.movesAlike moves
    derived := Registry.derivedMoves derivedLoaded moves
    views := viewsTimely keeps (viewsAtFirst config limit modules) }

theorem queriedContrast {config configToo : Config} {limit : Nat} {modules : List (CodeModule φ)}
    (queried : strict.Queried config limit modules) (queriedToo : lenient.Queried configToo limit modules)
    (tight : config.strict = true) (loose : configToo.strict = false) : strict.Contrasts lenient where
  setting := by rw [queried.config, tight]
  abreast := {
    strict := by
      rw [queriedToo.config, loose]
      rfl
    limit := queried.limit.trans queriedToo.limit.symm
    alike := queried.alike.trans queriedToo.alike.symm
    derived := queried.derived
    derivedToo := queriedToo.derived
    views := relaxedViews queried.views
    viewsToo := queriedToo.views }

/-- A strict and a lenient index over the same modules, whatever each was asked before: an answer of the
strict one is the lenient answer, and it fails for a name that is not retrievable or as the lenient one
does. A lenient answer to a rejected query is empty exactly when nothing is held below the name. -/
theorem strictQueries [Preserving φ] (config configToo : Config) (limit : Nat) (modules : List (CodeModule φ))
    (actions others : List (Action φ)) (strict : config.strict = true) (lenient : configToo.strict = false)
    (quiet : ∀ a ∈ actions, a.quiet = true) (quietToo : ∀ a ∈ others, a.quiet = true) :
    (∀ base, Stricter ((ofProgram config limit (.ofModules modules)).run actions)
      ((ofProgram configToo limit (.ofModules modules)).run others) (Query.subtypes base) base.name
      (((ofProgram configToo limit (.ofModules modules)).run others).isRetrievable base.name = true)
      QueryError.SameKind id (((ofProgram configToo limit (.ofModules modules)).run others).HoldsBelow base)) ∧
    ∀ type, Stricter ((ofProgram config limit (.ofModules modules)).run actions)
      ((ofProgram configToo limit (.ofModules modules)).run others) (Query.attributes type) type
      ((Program.ofModules modules).knownTypes.isRetrievableAnnotationType type = true)
      ((ofProgram configToo limit (.ofModules modules)).run others).materializer.SameFault Instance.id
      (((ofProgram configToo limit (.ofModules modules)).run others).TagsBelow type) := by
  have contrast := queriedContrast (queriedRun config limit modules quiet)
    (queriedRun configToo limit modules quietToo) strict lenient
  have types : ((ofProgram configToo limit (.ofModules modules)).run others).types =
      (Program.ofModules modules).knownTypes := (viewSteps.run quietToo).types
  refine ⟨contrastSubtypes contrast, fun type => ?_⟩
  rw [← types]
  exact contrastAttributes contrast type

def plainBaseModules : List CodeModule :=
  [({ id := "Runtime" } : CodeModule)
      |>.define { name := "Attribute", owner := "Runtime", kind := .annotationType }
      |>.define {
          name := "Retrieve"
          owner := "Runtime"
          kind := .annotationType
          base := some { name := "Attribute" }
          retrievable := true }
      |>.define { name := "Tag", owner := "Runtime", kind := .annotationType, base := some { name := "Retrieve" } }
      |>.define { name := "Collected", owner := "Runtime", kind := .interfaceType, collects := some false }
      |>.define { name := "Base", owner := "Runtime", kind := .classType },
    (({ id := "X" } : CodeModule).define {
        name := "Leaf"
        owner := "X"
        kind := .classType
        base := some { name := "Base" }
        interfaces := [{ name := "Collected" }]
        attachments := [⟨"Tag", .plain false, 0⟩] }).withRecords (.eager [{ type := "Leaf" }])]

def plainBaseIndex (strict : Bool) : Index := ofProgram { strict } 10 (.ofModules plainBaseModules)

theorem unretrievableAnswered :
    (plainBaseIndex true).answer (Query.subtypes { name := "Base" }) = .error (.notRetrievable "Base") ∧
      (plainBaseIndex false).answer (Query.subtypes { name := "Base" }) = .ok ["Leaf"] ∧
      (plainBaseIndex true).answer (Query.attributes "Attribute") = .error (.notRetrievable "Attribute") ∧
      ((plainBaseIndex false).answer (Query.attributes "Attribute")).map (·.map fun a => a.id.type) = .ok ["Tag"] := by
  decide +kernel

theorem collectedAnswered :
    (∃ all, (plainBaseIndex false).answer (Query.subtypes { name := "Collected" }) = .ok all ∧
        SameMembers ["Leaf"] all) ∧
      (plainBaseIndex false).HoldsBelow { name := "Base" } "Leaf" := by
  obtain ⟨below, _⟩ := strictQueries { strict := true } { strict := false } 10 plainBaseModules
    [.indexedTypes, .release] [] rfl rfl (by decide) (by decide)
  constructor
  · obtain ⟨_, all, ok, same⟩ := (below { name := "Collected" }).answers ["Leaf"] (by decide +kernel)
    rw [List.map_id, List.map_id] at same
    exact ⟨all, ok, same⟩
  · have found := (below { name := "Base" }).found ["Leaf"] (by decide +kernel)
    exact (found "Leaf").1 (by decide)

end Index
end MetadataIndex
