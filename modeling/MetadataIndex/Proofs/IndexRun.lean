import MetadataIndex.Index.Query
import MetadataIndex.Proofs.RegistryCoherence

/-! Queries as steps of an index, and runs of an index. A query is made of a few primitives, and
what every primitive keeps, the query keeps. On the registry a query acts as syncs and single
ingestions do, whether it fails or not; only a load brings in new modules. -/
namespace MetadataIndex
open Std Relation
variable {φ : Type}

instance decidableOutcome {ε α : Type} [DecidableEq ε] [DecidableEq α] : DecidableEq (Except ε α)
  | .ok a, .ok b => decidable_of_iff (a = b) ⟨congrArg _, Except.ok.inj⟩
  | .error e, .error d => decidable_of_iff (e = d) ⟨congrArg _, Except.error.inj⟩
  | .ok _, .error _ => .isFalse fun same => by cases same
  | .error _, .ok _ => .isFalse fun same => by cases same

namespace Index
variable {α β : Type} {ix : Index φ} {q : QueryOver φ α} {f : α → QueryOver φ β} {a : α} {b : β} {e : QueryError}

def answer (ix : Index φ) (q : QueryOver φ α) : Except QueryError α := (q.run ix : Except QueryError α × Index φ).1

def after (ix : Index φ) (q : QueryOver φ α) : Index φ := (q.run ix : Except QueryError α × Index φ).2

theorem runBind :
    ((q >>= f).run ix : Except QueryError β × Index φ) =
      match ix.answer q with
      | .ok a => ((f a).run (ix.after q) : Except QueryError β × Index φ)
      | .error e => (.error e, ix.after q) := by
  change (ExceptT.bindCont f (ix.answer q) (ix.after q) : Except QueryError β × Index φ) = _
  cases ix.answer q with
  | error e => rfl
  | ok a => rfl

theorem answerNext (first : ix.answer q = .ok a) : ix.answer (q >>= f) = (ix.after q).answer (f a) := by
  rw [answer, runBind, first]
  rfl

theorem afterNext (first : ix.answer q = .ok a) : ix.after (q >>= f) = (ix.after q).after (f a) := by
  rw [after, runBind, first]
  rfl

theorem answerStopped (first : ix.answer q = .error e) : ix.answer (q >>= f) = .error e := by
  rw [answer, runBind, first]

theorem afterStopped (first : ix.answer q = .error e) : ix.after (q >>= f) = ix.after q := by
  rw [after, runBind, first]

theorem answerRead (g : Index φ → Except QueryError α) : ix.answer (Query.read g) = g ix := rfl

theorem afterRead (g : Index φ → Except QueryError α) : ix.after (Query.read g) = ix := rfl

theorem answerPure (a : α) : ix.answer (pure a) = .ok a := rfl

theorem afterPure (a : α) : ix.after (pure a : QueryOver φ α) = ix := rfl

theorem answerBind :
    ix.answer (q >>= f) = .ok b ↔ ∃ a, ix.answer q = .ok a ∧ (ix.after q).answer (f a) = .ok b := by
  cases first : ix.answer q with
  | error e => simp [answerStopped first]
  | ok a => simp [answerNext first]

theorem contributionEq (id : ModuleId) :
    (Query.contribution id : QueryOver φ _) = (Query.read fun ix => .ok (ix.registry.program.module? id)) >>=
      fun found => match found with
      | none => pure none
      | some m => if m.instrumented then Query.sync >>= fun _ => Query.ingest m else pure none := rfl

end Index

structure Index.Steps (rel : Index φ → Index φ → Prop) : Prop where
  same : ∀ ix, rel ix ix
  chain : ∀ {ix mid last}, rel ix mid → rel mid last → rel ix last
  sync : ∀ ix : Index φ, rel ix (ix.after Query.sync)
  ingest : ∀ (ix : Index φ) (m : CodeModule φ), ix.registry.program.Holds m → rel ix (ix.after (Query.ingest m))
  collect : ∀ (ix : Index φ) (calls : List (CollectCall φ)), rel ix (ix.after (Query.collect calls))
  typeView : ∀ ix : Index φ, rel ix (ix.after Query.typeView)
  attributeView : ∀ ix : Index φ, rel ix (ix.after Query.attributeView)
  hold : ∀ (ix : Index φ) (slot : String) (view : FlattenedView φ), rel ix (ix.holdView slot view)
  drop : ∀ (ix : Index φ) (slot : String), rel ix (ix.dropView slot)
  release : ∀ ix : Index φ, rel ix ix.releaseViews
  invalidate : ∀ ix : Index φ, rel ix ix.invalidateViews

namespace Index

inductive Action (φ : Type := Recipe) where
  | load (m : CodeModule φ)
  | sync
  | ingest (id : ModuleId)
  | subtypes (base : TypeRef)
  | subtypesIn (base : TypeRef) (id : ModuleId)
  | attributes (type : TypeName)
  | attributesIn (type : TypeName) (id : ModuleId)
  | indexedTypes
  | instances
  | preservedRoots
  | view (slot : Option String)
  | drop (slot : String)
  | release
  | invalidate

def perform [Preserving φ] (ix : Index φ) : Action φ → Index φ
  | .load m => (ix.load m).2
  | .sync => ix.after Query.sync
  | .ingest id =>
      match ix.registry.program.module? id with
      | none => ix
      | some m => ix.after (Query.ingest m)
  | .subtypes base => ix.after (Query.subtypes base)
  | .subtypesIn base id => ix.after (Query.subtypesIn base id)
  | .attributes type => ix.after (Query.attributes type)
  | .attributesIn type id => ix.after (Query.attributesIn type id)
  | .indexedTypes => ix.after Query.indexedTypes
  | .instances => ix.after Query.instances
  | .preservedRoots => ix.after Query.preservedRoots
  | .view slot =>
      match ix.answer Query.flattenedView, slot with
      | .ok view, some slot => (ix.after Query.flattenedView).holdView slot view
      | _, _ => ix.after Query.flattenedView
  | .drop slot => ix.dropView slot
  | .release => ix.releaseViews
  | .invalidate => ix.invalidateViews

def run [Preserving φ] (ix : Index φ) (actions : List (Action φ)) : Index φ := actions.foldl perform ix

def Action.quiet : Action φ → Bool
  | .load _ => false
  | _ => true

namespace Steps
variable {α β : Type} {rel : Index φ → Index φ → Prop} {ix : Index φ} {q : QueryOver φ α} {f : α → QueryOver φ β}

theorem bind (steps : Steps rel) (first : rel ix (ix.after q))
    (rest : ∀ a, ix.answer q = .ok a → rel (ix.after q) ((ix.after q).after (f a))) :
    rel ix (ix.after (q >>= f)) := by
  cases outcome : ix.answer q with
  | error e =>
      rw [afterStopped outcome]
      exact first
  | ok a =>
      rw [afterNext outcome]
      exact steps.chain first (rest a outcome)

theorem pure (steps : Steps rel) (a : α) : rel ix (ix.after (Pure.pure a : QueryOver φ α)) := steps.same ix

theorem read (steps : Steps rel) (g : Index φ → Except QueryError α) : rel ix (ix.after (Query.read g)) :=
  steps.same ix

theorem contribution (steps : Steps rel) (id : ModuleId) : rel ix (ix.after (Query.contribution id)) := by
  rw [contributionEq]
  refine steps.bind (steps.read _) fun found read => ?_
  split
  · exact steps.pure none
  · next m =>
    split
    · refine steps.bind (steps.sync ix) fun _ _ => steps.ingest _ m ?_
      have member := (Program.moduleFound (Except.ok.inj read)).1
      exact Registry.movesHold Registry.syncMoves (Program.holdsMember member)
    · exact steps.pure none

theorem subtypes (steps : Steps rel) (base : TypeRef) : rel ix (ix.after (Query.subtypes base)) :=
  steps.bind (steps.read _) fun _ _ => steps.bind (steps.sync _) fun _ _ => steps.read _

theorem subtypesIn (steps : Steps rel) (base : TypeRef) (id : ModuleId) :
    rel ix (ix.after (Query.subtypesIn base id)) := by
  refine steps.bind (steps.read _) fun _ _ => steps.bind (steps.contribution id) fun c _ => ?_
  cases c with
  | none => exact steps.pure []
  | some c => exact steps.read _

theorem attributes (steps : Steps rel) (type : TypeName) : rel ix (ix.after (Query.attributes type)) :=
  steps.bind (steps.read _) fun _ _ => steps.bind (steps.sync _) fun _ _ =>
    steps.bind (steps.attributeView _) fun _ _ => steps.bind (steps.read _) fun _ _ => steps.pure _

theorem attributesIn (steps : Steps rel) (type : TypeName) (id : ModuleId) :
    rel ix (ix.after (Query.attributesIn type id)) := by
  refine steps.bind (steps.read _) fun _ _ => steps.bind (steps.contribution id) fun c _ => ?_
  cases c with
  | none => exact steps.pure []
  | some c => exact steps.bind (steps.read _) fun _ _ => steps.collect _ _

theorem flattenedView (steps : Steps rel) : rel ix (ix.after Query.flattenedView) :=
  steps.bind (steps.sync _) fun _ _ => steps.bind (steps.typeView _) fun _ _ =>
    steps.bind (steps.attributeView _) fun _ _ => steps.pure _

theorem indexedTypes (steps : Steps rel) : rel ix (ix.after Query.indexedTypes) :=
  steps.bind (steps.sync _) fun _ _ => steps.bind (steps.typeView _) fun _ _ => steps.pure _

theorem instances (steps : Steps rel) : rel ix (ix.after Query.instances) :=
  steps.bind (steps.sync _) fun _ _ => steps.bind (steps.attributeView _) fun _ _ => steps.pure _

variable [Preserving φ]

theorem preservedRoots (steps : Steps rel) : rel ix (ix.after Query.preservedRoots) :=
  steps.bind steps.flattenedView fun _ _ => steps.bind (steps.same _) fun _ _ => steps.pure _

theorem perform (steps : Steps rel) {action : Action φ} (quiet : action.quiet = true) :
    rel ix (ix.perform action) := by
  cases action with
  | load m => cases quiet
  | sync => exact steps.sync ix
  | ingest id =>
      simp only [Index.perform]
      split
      · exact steps.same ix
      · next m found => exact steps.ingest ix m (Program.holdsMember (Program.moduleFound found).1)
  | subtypes base => exact steps.subtypes base
  | subtypesIn base id => exact steps.subtypesIn base id
  | attributes type => exact steps.attributes type
  | attributesIn type id => exact steps.attributesIn type id
  | indexedTypes => exact steps.indexedTypes
  | instances => exact steps.instances
  | preservedRoots => exact steps.preservedRoots
  | view slot =>
      simp only [Index.perform]
      split
      · exact steps.chain steps.flattenedView (steps.hold _ _ _)
      · exact steps.flattenedView
  | drop slot => exact steps.drop ix slot
  | release => exact steps.release ix
  | invalidate => exact steps.invalidate ix

theorem run (steps : Steps rel) {actions : List (Action φ)} (quiet : ∀ a ∈ actions, a.quiet = true) :
    rel ix (ix.run actions) := by
  induction actions generalizing ix with
  | nil => exact steps.same ix
  | cons first rest ih =>
      refine steps.chain (steps.perform (quiet first (List.mem_cons_self ..))) ?_
      exact ih fun a member => quiet a (List.mem_cons_of_mem _ member)

end Steps

theorem registrySteps : Steps fun ix after : Index φ => Registry.Moves ix.registry after.registry where
  same := fun _ => .refl
  chain := fun first rest => first.trans rest
  sync := fun _ => Registry.syncMoves
  ingest := fun _ _ held => Registry.ingestMoves held
  collect := fun _ _ => .refl
  typeView := fun _ => .refl
  attributeView := fun _ => .refl
  hold := fun _ _ _ => .refl
  drop := fun _ _ => .refl
  release := fun _ => .refl
  invalidate := fun _ => .refl

theorem runKeeps [Preserving φ] {holds : Registry φ → Prop}
    (joins : ∀ {r m}, r.program.module? m.id = none → holds r → holds (r.joined m))
    (moves : ∀ {r after}, Registry.Move r after → holds r → holds after) {ix : Index φ} (actions : List (Action φ))
    (start : holds ix.registry) : holds (ix.run actions).registry := by
  induction actions generalizing ix with
  | nil => exact start
  | cons action rest ih =>
      refine ih ?_
      cases action with
      | load m =>
          change holds (ix.registry.load m).2
          rcases Registry.loadCases (r := ix.registry) (m := m) with same | ⟨fresh, same⟩
          · rw [same]
            exact start
          · rw [same]
            exact joins fresh start
      | _ => exact Registry.movesKeep moves (registrySteps.perform rfl) start

end Index
end MetadataIndex
