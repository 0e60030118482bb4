import MetadataIndex.Proofs.ScopedSubtypes
import MetadataIndex.Proofs.ViewHandling

/-! Answers only grow along a run. What is stored stays, the types are only extended, and the attribute
view is never built over fewer types than the one before. So what a query found once, the same query
finds later, whatever was loaded, asked, released or invalidated in between. -/
namespace MetadataIndex
open Std Relation
variable {φ : Type}

namespace Contribution
variable {c d : Contribution φ} {u v : Universe φ} {tag : Tag}

theorem picksGrow {query : TypeName} {target : Declaration φ} (known : u.Extends v)
    (picked : Materializer.Picks u query target tag) : Materializer.Picks v query target tag := by
  obtain ⟨a, attached, fits, same⟩ := picked
  exact ⟨a, attached, Universe.assignableExtends known fits, same⟩

theorem showsGrow (within : ∀ mark ∈ c.marks.toList, mark ∈ d.marks.toList) (known : u.Extends v)
    (shown : c.Shows u tag) : d.Shows v tag := by
  obtain ⟨mark, member, picked⟩ := showsWithin within shown
  exact ⟨mark, member, picksGrow known picked⟩

end Contribution

namespace Registry
variable {r s last : Registry φ} {c : Contribution φ} {base t : TypeName}

structure Grows (r s : Registry φ) : Prop where
  stored : ∀ id c, r.contribution? id = some c → s.contribution? id = some c
  types : r.program.knownTypes.Extends s.program.knownTypes

theorem growsRefl (r : Registry φ) : r.Grows r := ⟨fun _ _ found => found, Universe.extendsRefl _⟩

theorem growsTrans (first : r.Grows s) (next : s.Grows last) : r.Grows last :=
  ⟨fun id c found => next.stored id c (first.stored id c found), Universe.extendsTrans first.types next.types⟩

theorem growsMoves (moves : Moves r s) : r.Grows s :=
  ⟨fun _ _ found => movesStay moves found, (movesTypes moves).symm ▸ Universe.extendsRefl _⟩

theorem growsJoined (m : CodeModule φ) : r.Grows (r.joined m) := ⟨fun _ _ found => found, Program.loadExtends⟩

theorem growsWithin (inv : r.Coherent) (invToo : s.Coherent) (grows : r.Grows s) : r.Within s := by
  constructor
  · intro e member
    obtain ⟨id, c, found, inside⟩ := (memGlobalEdges inv e).1 member
    exact (memGlobalEdges invToo e).2 ⟨id, c, grows.stored id c found, inside⟩
  · intro mark member
    obtain ⟨id, c, found, inside⟩ := (memGlobalMarks inv mark).1 member
    exact (memGlobalMarks invToo mark).2 ⟨id, c, grows.stored id c found, inside⟩
  · intro name member
    obtain ⟨id, c, found, inside⟩ := (memGlobalTypes inv name).1 member
    exact (memGlobalTypes invToo name).2 ⟨id, c, grows.stored id c found, inside⟩

theorem reportsWithin (within : r.Within s) (reports : r.Reports c base t) : s.Reports c base t := by
  obtain ⟨typed, above, below, edge⟩ := reports
  exact ⟨typed, above, belowWithin within below, edge⟩

end Registry

/-! Queries that leave the registry as the sync made it -/

namespace Query
variable {α β : Type} {q : QueryOver φ α} {f : α → QueryOver φ β}

def Leaves (q : QueryOver φ α) : Prop := ∀ ix : Index φ, (ix.after q).registry = ix.registry

theorem leavesBind (first : Leaves q) (rest : ∀ a, Leaves (f a)) : Leaves (q >>= f) := by
  intro ix
  cases outcome : ix.answer q with
  | error e => rw [Index.afterStopped outcome, first]
  | ok a => rw [Index.afterNext outcome, rest a, first]

theorem leavesPure (a : α) : Leaves (pure a : QueryOver φ α) := fun _ => rfl

theorem leavesRead (g : Index φ → Except QueryError α) : Leaves (read g) := fun _ => rfl

end Query

namespace Index
variable {α β : Type} {ix later : Index φ} {w v : Universe φ} {base : TypeRef} {type : TypeName} {id : ModuleId}
  {tag : Tag} {asked : Action φ}

theorem syncLeaves {f : Nat → QueryOver φ β} {b : β} (ok : ix.answer (Query.sync >>= f) = .ok b)
    (leaves : ∀ n, Query.Leaves (f n)) : (ix.after (Query.sync >>= f)).registry = ix.synced.registry := by
  obtain ⟨n, synced, _⟩ := answerBind.1 ok
  rw [afterNext synced, afterSync, leaves]

theorem subtypesLeave {found : List TypeName} (ok : ix.answer (Query.subtypes base) = .ok found) :
    (ix.after (Query.subtypes base)).registry = ix.synced.registry := by
  obtain ⟨_, checked, rest⟩ := answerBind.1 ok
  rw [Query.subtypes, afterNext checked]
  exact syncLeaves rest fun _ => Query.leavesRead _

theorem attributesLeave {found : List (Instance φ)} (ok : ix.answer (Query.attributes type) = .ok found) :
    (ix.after (Query.attributes type)).registry = ix.synced.registry := by
  obtain ⟨_, _, _, _, after, _⟩ := attributesView ok
  rw [after, viewRegistry]

theorem indexedTypesLeave {found : List TypeName} (ok : ix.answer Query.indexedTypes = .ok found) :
    (ix.after Query.indexedTypes).registry = ix.synced.registry :=
  syncLeaves ok fun _ => Query.leavesBind (fun _ => rfl) fun _ => Query.leavesPure _

theorem instancesLeave {found : List (Instance φ)} (ok : ix.answer Query.instances = .ok found) :
    (ix.after Query.instances).registry = ix.synced.registry :=
  syncLeaves ok fun _ => Query.leavesBind (fun _ => rfl) fun _ => Query.leavesPure _

theorem partLeaves {f : Option (Contribution φ) → QueryOver φ (List β)} {found : List β} {b : β}
    (empty : f none = pure [])
    (leaves : ∀ c, Query.Leaves (f (some c))) (ok : ix.answer (Query.contribution id >>= f) = .ok found)
    (member : b ∈ found) : (ix.after (Query.contribution id >>= f)).registry = ix.synced.registry := by
  obtain ⟨_, contributed, last⟩ := answerBind.1 ok
  rcases answerContribution contributed with ⟨none, _⟩ | ⟨c, n, some, _, _, after⟩
  · subst none
    rw [empty] at last
    cases last
    cases member
  · subst some
    rw [afterNext contributed, leaves, after]

theorem subtypesInLeave {found : List TypeName} {t : TypeName} (ok : ix.answer (Query.subtypesIn base id) = .ok found)
    (member : t ∈ found) : (ix.after (Query.subtypesIn base id)).registry = ix.synced.registry := by
  obtain ⟨_, checked, rest⟩ := answerBind.1 ok
  rw [Query.subtypesIn, afterNext checked]
  exact partLeaves rfl (fun _ => Query.leavesRead _) rest member

theorem attributesInLeave {found : List (Instance φ)} {i : Instance φ}
    (ok : ix.answer (Query.attributesIn type id) = .ok found) (member : i ∈ found) :
    (ix.after (Query.attributesIn type id)).registry = ix.synced.registry := by
  obtain ⟨_, checked, rest⟩ := answerBind.1 ok
  rw [Query.attributesIn, afterNext checked]
  exact partLeaves rfl (fun _ => Query.leavesBind (Query.leavesRead _) fun _ _ => rfl) rest member

theorem attributesInFound {found : List (Instance φ)} (views : ix.Views w)
    (ok : ix.answer (Query.attributesIn type id) = .ok found) :
    tag ∈ found.map Instance.id ↔ ∃ c, ix.synced.registry.contribution? id = some c ∧ ∃ mark ∈ c.marks.toList,
      ix.synced.registry.Below type mark.marker ∧ Materializer.Picks ix.types type mark.target tag := by
  rcases answerAttributesIn ok with ⟨nothing, plain⟩ | ⟨c, stored, collected⟩
  · subst nothing
    exact iff_of_false List.not_mem_nil fun ⟨c, stored, _⟩ => uninstrumentedUnstored views c plain stored
  · rw [Materializer.collectOk collected, materializer, Contribution.callsPick, stored]
    simp only [Registry.candidateBelow (viewsSynced views).coherent, Option.some.injEq, exists_eq_left']

/-! What is asked once, and asked again after more of the run -/

theorem shownExtends {after : Index φ} (views : ix.Views w) (keeps : ix.Keeps after) :
    w.Extends (ix.shownOver after w) := by
  unfold shownOver
  split
  · exact Universe.extendsRefl _
  · rw [keeps.types]
    exact views.older

variable [Preserving φ]

theorem shownGrows (action : Action φ) (views : ix.Views w) : w.Extends (ix.shownOver (ix.perform action) w) := by
  cases action with
  | load m =>
      have same : (ix.perform (.load m)).attributeCache.built = ix.attributeCache.built := rfl
      rw [shownOver, if_pos same]
      exact Universe.extendsRefl _
  | _ => exact shownExtends views (viewSteps.perform rfl)

theorem viewTypesGrow (actions : List (Action φ)) (views : ix.Views w) : w.Extends (ix.viewTypes w actions) := by
  induction actions generalizing ix w with
  | nil => exact Universe.extendsRefl _
  | cons action rest ih => exact Universe.extendsTrans (shownGrows action views) (ih (viewsRun [action] views))

theorem growsRun (actions : List (Action φ)) : ix.registry.Grows (ix.run actions).registry :=
  runKeeps (fun _ grows => Registry.growsTrans grows (Registry.growsJoined _))
    (fun move grows => Registry.growsTrans grows (Registry.growsMoves (.single move))) actions (Registry.growsRefl _)

structure Precedes (ix : Index φ) (asked : Action φ) (later : Index φ) (w v : Universe φ) : Prop where
  views : ix.Views w
  viewsLater : later.Views v
  grows : (ix.perform asked).registry.Grows later.registry
  shown : (ix.shownOver (ix.perform asked) w).Extends v

theorem precedesRun (views : ix.Views w) (asked : Action φ) (more : List (Action φ)) :
    ix.Precedes asked ((ix.perform asked).run more) w
      ((ix.perform asked).viewTypes (ix.shownOver (ix.perform asked) w) more) := by
  have between : (ix.perform asked).Views (ix.shownOver (ix.perform asked) w) := viewsRun [asked] views
  exact ⟨views, viewsRun more between, growsRun more, viewTypesGrow more between⟩

theorem precedesSynced (before : ix.Precedes asked later w v)
    (leaves : (ix.perform asked).registry = ix.synced.registry) :
    ix.synced.registry.Grows later.synced.registry ∧ ix.synced.registry.Within later.synced.registry ∧
      ix.types.Extends later.types := by
  have coherent := (viewsSynced before.views).coherent
  have coherentLater := (viewsSynced before.viewsLater).coherent
  have grows := Registry.growsTrans (leaves ▸ before.grows) (Registry.growsMoves Registry.syncMoves)
  have types : ix.synced.types.Extends later.synced.types := grows.types
  rw [syncedTypes, syncedTypes] at types
  exact ⟨grows, Registry.growsWithin coherent coherentLater grows, types⟩

theorem precedesShown (before : ix.Precedes asked later w v) :
    (ix.shownOver (ix.perform asked) w).Extends (later.shownOver (later.perform asked) v) :=
  Universe.extendsTrans before.shown (shownGrows asked before.viewsLater)

section Questions
variable {names namesLater : List TypeName} {found foundLater : List (Instance φ)}

theorem subtypesGrow (before : ix.Precedes (.subtypes base) later w v)
    (ok : ix.answer (Query.subtypes base) = .ok names)
    (okLater : later.answer (Query.subtypes base) = .ok namesLater) : ∀ t ∈ names, t ∈ namesLater := by
  obtain ⟨_, within, known⟩ := precedesSynced before (subtypesLeave ok)
  intro t member
  obtain ⟨differ, below, typed, fits⟩ := (wholeFound before.views ok).1 member
  refine (wholeFound before.viewsLater okLater).2 ⟨differ, ?_, within.types t typed, fun shape => ?_⟩
  · exact Registry.belowWithin within below
  · exact Universe.assignableExtends known (fits shape)

theorem subtypesInGrow (before : ix.Precedes (.subtypesIn base id) later w v)
    (ok : ix.answer (Query.subtypesIn base id) = .ok names)
    (okLater : later.answer (Query.subtypesIn base id) = .ok namesLater) : ∀ t ∈ names, t ∈ namesLater := by
  intro t member
  obtain ⟨grows, within, known⟩ := precedesSynced before (subtypesInLeave ok member)
  obtain ⟨c, stored, differ, reports, fits⟩ := (partFound before.views ok).1 member
  refine (partFound before.viewsLater okLater).2 ⟨c, grows.stored id c stored, differ, ?_, fun shape => ?_⟩
  · exact Registry.reportsWithin within reports
  · exact Universe.assignableExtends known (fits shape)

theorem indexedTypesGrow (before : ix.Precedes .indexedTypes later w v)
    (ok : ix.answer Query.indexedTypes = .ok names) (okLater : later.answer Query.indexedTypes = .ok namesLater) :
    ∀ t ∈ names, t ∈ namesLater := by
  obtain ⟨_, within, _⟩ := precedesSynced before (indexedTypesLeave ok)
  rw [answerIndexedTypes before.views] at ok
  rw [answerIndexedTypes before.viewsLater] at okLater
  obtain ⟨_, _, same⟩ := mapOk.1 ok
  obtain ⟨_, _, sameLater⟩ := mapOk.1 okLater
  subst same sameLater
  exact within.types

theorem instancesGrow (before : ix.Precedes .instances later w v) (ok : ix.answer Query.instances = .ok found)
    (okLater : later.answer Query.instances = .ok foundLater) :
    ∀ tag ∈ found.map Instance.id, tag ∈ foundLater.map Instance.id := by
  obtain ⟨_, within, _⟩ := precedesSynced before (instancesLeave ok)
  have known := precedesShown before
  intro tag member
  refine (instancesShow before.viewsLater okLater).2 ?_
  exact Contribution.showsGrow within.marks known ((instancesShow before.views ok).1 member)

theorem attributesGrow (before : ix.Precedes (.attributes type) later w v)
    (ok : ix.answer (Query.attributes type) = .ok found)
    (okLater : later.answer (Query.attributes type) = .ok foundLater) :
    ∀ tag ∈ found.map Instance.id, tag ∈ foundLater.map Instance.id := by
  obtain ⟨_, within, _⟩ := precedesSynced before (attributesLeave ok)
  have known := precedesShown before
  intro tag member
  obtain ⟨shows, below⟩ := (attributesShow before.views ok).1 member
  refine (attributesShow before.viewsLater okLater).2 ⟨?_, Registry.belowWithin within below⟩
  exact Contribution.showsGrow within.marks known shows

theorem attributesInGrow (before : ix.Precedes (.attributesIn type id) later w v)
    (ok : ix.answer (Query.attributesIn type id) = .ok found)
    (okLater : later.answer (Query.attributesIn type id) = .ok foundLater) :
    ∀ tag ∈ found.map Instance.id, tag ∈ foundLater.map Instance.id := by
  intro tag member
  obtain ⟨i, inside, _⟩ := List.mem_map.1 member
  obtain ⟨grows, within, known⟩ := precedesSynced before (attributesInLeave ok inside)
  obtain ⟨c, stored, mark, marked, below, picked⟩ := (attributesInFound before.views ok).1 member
  refine (attributesInFound before.viewsLater okLater).2 ⟨c, grows.stored id c stored, mark, marked, ?_, ?_⟩
  · exact Registry.belowWithin within below
  · exact Contribution.picksGrow known picked

end Questions

theorem okOfOption {ε α : Type} {outcome : Except ε α} {a : α} (found : outcome.toOption = some a) :
    outcome = .ok a := by
  cases outcome with
  | error e => cases found
  | ok b => exact congrArg _ (Option.some.inj found)

def names? (ix : Index φ) : Action φ → Option (List TypeName)
  | .subtypes base => (ix.answer (Query.subtypes base)).toOption
  | .subtypesIn base id => (ix.answer (Query.subtypesIn base id)).toOption
  | .indexedTypes => (ix.answer Query.indexedTypes).toOption
  | _ => none

def tags? (ix : Index φ) : Action φ → Option (List Tag)
  | .attributes type => (ix.answer (Query.attributes type)).toOption.map (List.map Instance.id)
  | .attributesIn type id => (ix.answer (Query.attributesIn type id)).toOption.map (List.map Instance.id)
  | .instances => (ix.answer Query.instances).toOption.map (List.map Instance.id)
  | _ => none

theorem namesGrow {names namesLater : List TypeName} (before : ix.Precedes asked later w v)
    (ok : ix.names? asked = some names) (okLater : later.names? asked = some namesLater) :
    ∀ t ∈ names, t ∈ namesLater := by
  cases asked with
  | subtypes base => exact subtypesGrow before (okOfOption ok) (okOfOption okLater)
  | subtypesIn base id => exact subtypesInGrow before (okOfOption ok) (okOfOption okLater)
  | indexedTypes => exact indexedTypesGrow before (okOfOption ok) (okOfOption okLater)
  | _ => cases ok

theorem tagsGrow {tags tagsLater : List Tag} (before : ix.Precedes asked later w v) (ok : ix.tags? asked = some tags)
    (okLater : later.tags? asked = some tagsLater) : ∀ tag ∈ tags, tag ∈ tagsLater := by
  -- the answers behind the tags, where the question has any
  have answers : ∀ {first second : Except QueryError (List (Instance φ))},
      first.toOption.map (List.map Instance.id) = some tags →
      second.toOption.map (List.map Instance.id) = some tagsLater →
      (∀ found foundLater, first = .ok found → second = .ok foundLater →
        ∀ tag ∈ found.map Instance.id, tag ∈ foundLater.map Instance.id) → ∀ tag ∈ tags, tag ∈ tagsLater := by
    intro first second ok okLater grow
    obtain ⟨found, here, same⟩ := Option.map_eq_some_iff.1 ok
    obtain ⟨foundLater, there, sameLater⟩ := Option.map_eq_some_iff.1 okLater
    subst same sameLater
    exact grow found foundLater (okOfOption here) (okOfOption there)
  cases asked with
  | attributes type => exact answers ok okLater fun _ _ => attributesGrow before
  | attributesIn type id => exact answers ok okLater fun _ _ => attributesInGrow before
  | instances => exact answers ok okLater fun _ _ => instancesGrow before
  | _ => cases ok

/-- What a question is answered with at one point of a run, it is answered with at every later point, with
any loads, questions and handling of views in between, as far as it is answered at all. -/
theorem answersGrow (config : Config) (limit : Nat) (modules : List (CodeModule φ)) (earlier more : List (Action φ))
    (asked : Action φ) :
    (∀ names namesLater,
      ((ofProgram config limit (.ofModules modules)).run earlier).names? asked = some names →
      ((ofProgram config limit (.ofModules modules)).run (earlier ++ asked :: more)).names? asked = some namesLater →
      ∀ t ∈ names, t ∈ namesLater) ∧
    ∀ tags tagsLater,
      ((ofProgram config limit (.ofModules modules)).run earlier).tags? asked = some tags →
      ((ofProgram config limit (.ofModules modules)).run (earlier ++ asked :: more)).tags? asked = some tagsLater →
      ∀ tag ∈ tags, tag ∈ tagsLater := by
  have views := viewsRun earlier (viewsAtFirst config limit modules)
  have split : (ofProgram config limit (.ofModules modules)).run (earlier ++ asked :: more) =
      (((ofProgram config limit (.ofModules modules)).run earlier).perform asked).run more := by
    rw [run, List.foldl_append]
    rfl
  rw [split]
  have before := precedesRun views asked more
  exact ⟨fun _ _ => namesGrow before, fun _ _ => tagsGrow before⟩

def grownModules : List CodeModule :=
  [({ id := "Runtime" } : CodeModule)
      |>.define { name := "Retrieve", owner := "Runtime", kind := .annotationType, retrievable := true }
      |>.define { name := "Tag", owner := "Runtime", kind := .annotationType, base := some { name := "Retrieve" } }
      |>.define { name := "Base", owner := "Runtime", kind := .classType },
    (({ id := "X" } : CodeModule).define {
        name := "A"
        owner := "X"
        kind := .classType
        base := some { name := "Base" }
        attachments := [⟨"Tag", .plain false, 0⟩, ⟨"Late", .plain false, 1⟩] }).withRecords
      (.delayed [{ type := "A" }])]

def grownLate : CodeModule :=
  (({ id := "L" } : CodeModule)
    |>.define { name := "Late", owner := "L", kind := .annotationType, base := some { name := "Tag" } }
    |>.define { name := "B", owner := "L", kind := .classType, base := some { name := "A" } }).withRecords
    (.eager [{ type := "B" }])

def grownIndex : Index := ofProgram {} 10 (.ofModules grownModules)

def grownTag (type : TypeName) : Tag := ⟨type, ⟨"X", "A", none⟩⟩

theorem grownAnswers :
    ((grownIndex.run []).names? (.subtypes { name := "Base" }) = some ["A"] ∧
      (grownIndex.run ([] ++ .subtypes { name := "Base" } :: [.load grownLate])).names?
        (.subtypes { name := "Base" }) = some ["A", "B"] ∧ ∀ t ∈ ["A"], t ∈ ["A", "B"]) ∧
    (grownIndex.run [.sync]).tags? .instances = some [grownTag "Tag"] ∧
      (grownIndex.run ([.sync] ++ .instances :: [.load grownLate, .release])).tags? .instances =
        some [grownTag "Tag", grownTag "Late"] ∧
      ∀ tag ∈ [grownTag "Tag"], tag ∈ [grownTag "Tag", grownTag "Late"] := by
  have first : (grownIndex.run []).names? (.subtypes { name := "Base" }) = some ["A"] := by decide +kernel
  have later : (grownIndex.run ([] ++ .subtypes { name := "Base" } :: [.load grownLate])).names?
      (.subtypes { name := "Base" }) = some ["A", "B"] := by decide +kernel
  have shown : (grownIndex.run [.sync]).tags? .instances = some [grownTag "Tag"] := by decide +kernel
  have shownLater : (grownIndex.run ([.sync] ++ .instances :: [.load grownLate, .release])).tags? .instances =
      some [grownTag "Tag", grownTag "Late"] := by decide +kernel
  have names := (answersGrow {} 10 grownModules [] [.load grownLate] (.subtypes { name := "Base" })).1
  have tags := (answersGrow {} 10 grownModules [.sync] [.load grownLate, .release] .instances).2
  exact ⟨⟨first, later, names _ _ first later⟩, shown, shownLater, tags _ _ shown shownLater⟩

end Index
end MetadataIndex
