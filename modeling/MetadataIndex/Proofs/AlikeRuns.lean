import MetadataIndex.Proofs.IndexRun

/-! Indexes that are alike but for their cached views. No query tells from its views what to ingest,
so two runs with the same loads and queries, however they handle their views in between, go through
indexes that are alike. -/
namespace MetadataIndex
open Std
variable {φ : Type}

structure Index.Alike (ix iy : Index φ) : Prop where
  registry : ix.registry = iy.registry
  strict : ix.config.strict = iy.config.strict
  limit : ix.walkLimit = iy.walkLimit

namespace Index
variable {ix iy iz : Index φ}

theorem alikeSame (ix : Index φ) : ix.Alike ix := ⟨rfl, rfl, rfl⟩

theorem alikeSymm (alike : ix.Alike iy) : iy.Alike ix :=
  ⟨alike.registry.symm, alike.strict.symm, alike.limit.symm⟩

theorem alikeTrans (first : ix.Alike iy) (rest : iy.Alike iz) : ix.Alike iz :=
  ⟨first.registry.trans rest.registry, first.strict.trans rest.strict, first.limit.trans rest.limit⟩

theorem alikeTypes (alike : ix.Alike iy) : ix.types = iy.types := by
  rw [types, types, alike.registry]

theorem alikeMaterializer (alike : ix.Alike iy) : ix.materializer = iy.materializer := by
  rw [materializer, materializer, alikeTypes alike, alike.limit]

theorem alikeSearch (alike : ix.Alike iy) : ix.search = iy.search := by
  rw [search, search, alikeTypes alike, alike.registry, alike.limit]

theorem alikeRegistry {r s : Registry φ} (alike : ix.Alike iy) (same : r = s) :
    ({ ix with registry := r } : Index φ).Alike { iy with registry := s } :=
  ⟨same, alike.strict, alike.limit⟩

section Checks
variable (types : ix.types = iy.types) (strict : ix.config.strict = iy.config.strict)
include types strict

theorem sameBaseCheck (base : TypeRef) : ix.checkBase base = iy.checkBase base := by
  unfold checkBase isRetrievable
  rw [types, strict]

theorem sameTypeCheck (type : TypeName) : ix.checkAnnotationType type = iy.checkAnnotationType type := by
  unfold checkAnnotationType
  rw [types, strict]

end Checks

end Index

namespace Query
variable {α β : Type} {q : QueryOver φ α} {f : α → QueryOver φ β}

def Silent (q : QueryOver φ α) : Prop := ∀ ix : Index φ, ix.Alike (ix.after q)

def Respects (q : QueryOver φ α) : Prop :=
  ∀ {ix iy : Index φ}, ix.Alike iy → (ix.after q).Alike (iy.after q)

def Echoes (q : QueryOver φ α) : Prop :=
  ∀ {ix iy : Index φ}, ix.Alike iy → ix.answer q = iy.answer q ∧ (ix.after q).Alike (iy.after q)

def Carries (rel : Index φ → Index φ → Prop) (q : QueryOver φ α) : Prop :=
  ∀ {ix iy : Index φ}, rel ix iy → ix.answer q = iy.answer q ∧ rel (ix.after q) (iy.after q)

theorem carriesBind {rel : Index φ → Index φ → Prop} (first : Carries rel q) (rest : ∀ a, Carries rel (f a)) :
    Carries rel (q >>= f) := by
  intro ix iy related
  obtain ⟨answers, relatedAfter⟩ := first related
  cases outcome : ix.answer q with
  | error e =>
      have outcomeToo : iy.answer q = .error e := answers.symm.trans outcome
      rw [Index.answerStopped outcome, Index.answerStopped outcomeToo, Index.afterStopped outcome,
        Index.afterStopped outcomeToo]
      exact ⟨rfl, relatedAfter⟩
  | ok a =>
      have outcomeToo : iy.answer q = .ok a := answers.symm.trans outcome
      rw [Index.answerNext outcome, Index.answerNext outcomeToo, Index.afterNext outcome,
        Index.afterNext outcomeToo]
      exact rest a relatedAfter

theorem silentRead (g : Index φ → Except QueryError α) : Silent (Query.read g) := Index.alikeSame

theorem silentPure (a : α) : Silent (pure a : QueryOver φ α) := Index.alikeSame

theorem silentGet : Silent (get : QueryOver φ (Index φ)) := Index.alikeSame

theorem silentTypeView : Silent (Query.typeView : QueryOver φ _) := fun _ => ⟨rfl, rfl, rfl⟩

theorem silentAttributeView : Silent (Query.attributeView : QueryOver φ _) := fun _ => ⟨rfl, rfl, rfl⟩

theorem silentCollect (calls : List (CollectCall φ)) : Silent (Query.collect calls) := fun _ => ⟨rfl, rfl, rfl⟩

theorem silentRest (rest : ∀ a, Silent (f a)) (ix : Index φ) : (ix.after q).Alike (ix.after (q >>= f)) := by
  cases outcome : ix.answer q with
  | error e =>
      rw [Index.afterStopped outcome]
      exact Index.alikeSame _
  | ok a =>
      rw [Index.afterNext outcome]
      exact rest a _

theorem silentBind (first : Silent q) (rest : ∀ a, Silent (f a)) : Silent (q >>= f) := fun ix =>
  Index.alikeTrans (first ix) (silentRest rest ix)

theorem echoesRead {g : Index φ → Except QueryError α} (same : ∀ {ix iy : Index φ}, ix.Alike iy → g ix = g iy) :
    Echoes (Query.read g) := fun alike => ⟨same alike, alike⟩

theorem echoesPure (a : α) : Echoes (pure a : QueryOver φ α) := fun alike => ⟨rfl, alike⟩

theorem echoesSync : Echoes (Query.sync : QueryOver φ _) := by
  intro ix iy alike
  constructor
  · change ix.registry.sync.1.mapError QueryError.ingest = iy.registry.sync.1.mapError QueryError.ingest
    rw [alike.registry]
  · exact Index.alikeRegistry alike (congrArg (fun r => r.sync.2) alike.registry)

theorem echoesIngest (m : CodeModule φ) : Echoes (Query.ingest m) := by
  intro ix iy alike
  constructor
  · change (ix.registry.ingest m).1.mapError QueryError.ingest = (iy.registry.ingest m).1.mapError QueryError.ingest
    rw [alike.registry]
  · exact Index.alikeRegistry alike (congrArg (fun r => (r.ingest m).2) alike.registry)

theorem echoesBind (first : Echoes q) (rest : ∀ a, Echoes (f a)) : Echoes (q >>= f) := carriesBind first rest

theorem respectsEcho (echoes : Echoes q) : Respects q := fun alike => (echoes alike).2

theorem respectsRest (first : Respects q) (rest : ∀ a, Silent (f a)) : Respects (q >>= f) := fun alike =>
  Index.alikeTrans (Index.alikeSymm (silentRest rest _)) (Index.alikeTrans (first alike) (silentRest rest _))

theorem respectsBind (first : Echoes q) (rest : ∀ a, Respects (f a)) : Respects (q >>= f) := by
  intro ix iy alike
  obtain ⟨answers, alikeAfter⟩ := first alike
  cases outcome : ix.answer q with
  | error e =>
      rw [Index.afterStopped outcome, Index.afterStopped (answers.symm.trans outcome)]
      exact alikeAfter
  | ok a =>
      rw [Index.afterNext outcome, Index.afterNext (answers.symm.trans outcome)]
      exact rest a alikeAfter

theorem echoesCheckBase (base : TypeRef) : Echoes (Query.read fun ix : Index φ => ix.checkBase base) :=
  echoesRead fun alike => Index.sameBaseCheck (Index.alikeTypes alike) alike.strict base

theorem echoesCheckAnnotationType (type : TypeName) :
    Echoes (Query.read fun ix : Index φ => ix.checkAnnotationType type) :=
  echoesRead fun alike => Index.sameTypeCheck (Index.alikeTypes alike) alike.strict type

theorem echoesContribution (id : ModuleId) : Echoes (Query.contribution id : QueryOver φ _) := by
  rw [Index.contributionEq]
  refine echoesBind (echoesRead fun alike => by rw [alike.registry]) fun found => ?_
  cases found with
  | none => exact echoesPure none
  | some m =>
      cases instrumented : m.instrumented with
      | false =>
          simp only [instrumented]
          exact echoesPure none
      | true =>
          simp only [instrumented, if_true]
          exact echoesBind echoesSync fun _ => echoesIngest m

theorem echoesSubtypes (base : TypeRef) : Echoes (Query.subtypes base : QueryOver φ _) := by
  refine echoesBind (echoesCheckBase base) fun _ => echoesBind echoesSync fun _ => echoesRead fun alike => ?_
  rw [Index.alikeSearch alike, alike.registry]

theorem echoesSubtypesIn (base : TypeRef) (id : ModuleId) : Echoes (Query.subtypesIn base id : QueryOver φ _) := by
  refine echoesBind (echoesCheckBase base) fun _ => echoesBind (echoesContribution id) fun c => ?_
  cases c with
  | none => exact echoesPure []
  | some c => exact echoesRead fun alike => by rw [Index.alikeSearch alike]

theorem respectsSync : Respects (Query.sync : QueryOver φ _) := respectsEcho echoesSync

theorem respectsAttributes (type : TypeName) : Respects (Query.attributes type : QueryOver φ _) :=
  respectsBind (echoesCheckAnnotationType type) fun _ => respectsRest respectsSync fun _ =>
    silentBind silentAttributeView fun _ => silentBind (silentRead _) fun _ => silentPure _

theorem respectsAttributesIn (type : TypeName) (id : ModuleId) :
    Respects (Query.attributesIn type id : QueryOver φ _) := by
  refine respectsBind (echoesCheckAnnotationType type) fun _ =>
    respectsRest (respectsEcho (echoesContribution id)) fun c => ?_
  cases c with
  | none => exact silentPure []
  | some c => exact silentBind (silentRead _) fun _ => silentCollect _

theorem respectsIndexedTypes : Respects (Query.indexedTypes : QueryOver φ _) :=
  respectsRest respectsSync fun _ => silentBind silentTypeView fun _ => silentPure _

theorem respectsInstances : Respects (Query.instances : QueryOver φ _) :=
  respectsRest respectsSync fun _ => silentBind silentAttributeView fun _ => silentPure _

theorem respectsFlattenedView : Respects (Query.flattenedView : QueryOver φ _) :=
  respectsRest respectsSync fun _ => silentBind silentTypeView fun _ =>
    silentBind silentAttributeView fun _ => silentPure _

theorem respectsPreservedRoots [Preserving φ] : Respects (Query.preservedRoots : QueryOver φ _) :=
  respectsRest respectsFlattenedView fun _ => silentBind silentGet fun _ => silentPure _

end Query

namespace Index
variable [Preserving φ] {ix iy : Index φ} {action : Action φ}

def Action.asks : Action φ → Bool
  | .drop _ | .release | .invalidate => false
  | _ => true

theorem performView : ix.perform (.view none) = ix.after Query.flattenedView := by
  simp only [perform]
  split
  · contradiction
  · rfl

theorem viewAlike (slot : Option String) : (ix.after Query.flattenedView).Alike (ix.perform (.view slot)) := by
  simp only [perform]
  split
  · exact ⟨rfl, rfl, rfl⟩
  · exact alikeSame _

theorem alikePerform (alike : ix.Alike iy) : (ix.perform action).Alike (iy.perform action) := by
  cases action with
  | load m => exact alikeRegistry alike (congrArg (fun r => (r.load m).2) alike.registry)
  | sync => exact (Query.echoesSync alike).2
  | ingest id =>
      simp only [perform]
      rw [alike.registry]
      cases iy.registry.program.module? id with
      | none => exact alike
      | some m => exact (Query.echoesIngest m alike).2
  | subtypes base => exact (Query.echoesSubtypes base alike).2
  | subtypesIn base id => exact (Query.echoesSubtypesIn base id alike).2
  | attributes type => exact Query.respectsAttributes type alike
  | attributesIn type id => exact Query.respectsAttributesIn type id alike
  | indexedTypes => exact Query.respectsIndexedTypes alike
  | instances => exact Query.respectsInstances alike
  | preservedRoots => exact Query.respectsPreservedRoots alike
  | view slot =>
      have shown := Query.respectsFlattenedView alike
      exact alikeTrans (alikeSymm (viewAlike slot)) (alikeTrans shown (viewAlike slot))
  | drop slot => exact ⟨alike.registry, alike.strict, alike.limit⟩
  | release => exact ⟨alike.registry, alike.strict, alike.limit⟩
  | invalidate => exact ⟨alike.registry, alike.strict, alike.limit⟩

theorem alikeAside (aside : action.asks = false) : ix.Alike (ix.perform action) := by
  cases action with
  | drop slot => exact ⟨rfl, rfl, rfl⟩
  | release => exact ⟨rfl, rfl, rfl⟩
  | invalidate => exact ⟨rfl, rfl, rfl⟩
  | _ => cases aside

theorem alikeAsked (actions : List (Action φ)) (alike : ix.Alike iy) :
    (ix.run actions).Alike (iy.run (actions.filter Action.asks)) := by
  induction actions generalizing ix iy with
  | nil => exact alike
  | cons action rest ih =>
      cases asks : action.asks with
      | true =>
          rw [List.filter_cons_of_pos asks]
          exact ih (alikePerform alike)
      | false =>
          -- the run without this action stands still
          rw [List.filter_cons_of_neg (by simp [asks])]
          exact ih (alikeTrans (alikeSymm (alikeAside asks)) alike)

theorem alikeRuns {actions others : List (Action φ)} (alike : ix.Alike iy)
    (same : actions.filter Action.asks = others.filter Action.asks) :
    (ix.run actions).Alike (iy.run others) := by
  have first := alikeAsked actions alike
  rw [same] at first
  exact alikeTrans first (alikeSymm (alikeAsked others (alikeSame iy)))

end Index
end MetadataIndex
