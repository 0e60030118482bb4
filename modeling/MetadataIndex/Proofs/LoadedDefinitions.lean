import MetadataIndex.Proofs.RegistryRun

/-! What a program knows after loading modules in turn. A module is put together from parts, where the
last definition of a name counts; a program accepts the first module of each identity, and a name means
what the earliest accepted module that defines it says. A refused module leaves no trace, and what a name
means never changes. -/
namespace MetadataIndex
variable {φ : Type}

inductive Part (φ : Type := Recipe) where
  | definition (d : TypeDef φ)
  | records (table : RecordTable)
  | instrumentation

structure Draft (φ : Type := Recipe) where
  id : ModuleId
  parts : List (Part φ) := []

def TypeDef.ownedBy (d : TypeDef φ) (id : ModuleId) : TypeDef φ := { d with owner := id }

namespace CodeModule

def addPart (m : CodeModule φ) : Part φ → CodeModule φ
  | .definition d => m.define d
  | .records table => m.withRecords table
  | .instrumentation => { m with instrumented := true }

def addParts (m : CodeModule φ) (parts : List (Part φ)) : CodeModule φ := parts.foldl addPart m

end CodeModule

namespace Part

def definition? : Part φ → Option (TypeDef φ)
  | .definition d => some d
  | .records _ | .instrumentation => none

end Part

namespace Draft
variable {draft : Draft φ} {name : TypeName}

def built (draft : Draft φ) : CodeModule φ := CodeModule.addParts { id := draft.id } draft.parts

def definitions (draft : Draft φ) : List (TypeDef φ) := draft.parts.filterMap Part.definition?

def definition? (draft : Draft φ) (name : TypeName) : Option (TypeDef φ) :=
  (draft.definitions.reverse.find? fun d => d.name = name).map (·.ownedBy draft.id)

end Draft

namespace CodeModule
variable {m : CodeModule φ} {parts : List (Part φ)} {name : TypeName}

theorem addPartId (part : Part φ) : (m.addPart part).id = m.id := by
  cases part <;> rfl

theorem addPartsId : (m.addParts parts).id = m.id := by
  induction parts generalizing m with
  | nil => rfl
  | cons part rest ih => exact ih.trans (addPartId part)

-- the later parts are looked at first, and what the module held before them comes last
theorem findAddParts : (m.addParts parts).find? name =
    (((parts.filterMap Part.definition?).reverse.find? fun d => d.name = name).map (·.ownedBy m.id)).or
      (m.find? name) := by
  induction parts generalizing m with
  | nil => rfl
  | cons part rest ih =>
      cases part with
      | definition d =>
          have defined : (m.define d).find? name = if d.name = name then some (d.ownedBy m.id) else m.find? name :=
            findDefine
          have listed : (Part.definition d :: rest).filterMap Part.definition? =
              d :: rest.filterMap Part.definition? := rfl
          rw [listed, List.reverse_cons, List.find?_append, List.find?_singleton, Option.map_or, Option.or_assoc]
          refine (ih (m := m.define d)).trans (congrArg _ (defined.trans ?_))
          by_cases same : d.name = name
          · simp [same]
          · simp [same]
      | records table => exact ih
      | instrumentation => exact ih

end CodeModule

namespace Draft
variable {draft : Draft φ} {name : TypeName}

theorem builtId (draft : Draft φ) : draft.built.id = draft.id := CodeModule.addPartsId

theorem findBuilt (draft : Draft φ) (name : TypeName) : draft.built.find? name = draft.definition? name := by
  have nothing : ({ id := draft.id } : CodeModule φ).find? name = none := OrderedSet.findEmpty
  rw [built, CodeModule.findAddParts, nothing, Option.or_none]
  rfl

theorem definitionNone : draft.definition? name = none ↔ ∀ d ∈ draft.definitions, d.name ≠ name := by
  simp [definition?]

end Draft

namespace Program
variable {p : Program φ} {m : CodeModule φ} {draft : Draft φ} {drafts more : List (Draft φ)} {name : TypeName}
  {d : TypeDef φ}

def loadAll (p : Program φ) (drafts : List (Draft φ)) : Program φ :=
  drafts.foldl (fun p draft => (p.load draft.built).2) p

def ofDrafts (drafts : List (Draft φ)) : Program φ := ofModules (drafts.map Draft.built)

def accepts (p : Program φ) : List (Draft φ) → List (Draft φ)
  | [] => []
  | draft :: rest =>
      if (p.load draft.built).1 then draft :: (p.load draft.built).2.accepts rest
      else (p.load draft.built).2.accepts rest

def accepted (drafts : List (Draft φ)) : List (Draft φ) := accepts (ofModules []) drafts

theorem loadNew : (p.load m).1 = true ↔ p.module? m.id = none := by
  unfold load
  cases known : p.module? m.id with
  | none => simp
  | some n => simp

theorem loadOld : (p.load m).1 = false ↔ ∃ k ∈ p.modules, k.id = m.id := by
  rw [← Bool.not_eq_true, loadNew, module?, List.find?_eq_none]
  simp

theorem loadSame (old : (p.load m).1 = false) : (p.load m).2 = p := by
  cases known : p.module? m.id with
  | none => rw [loadNew.2 known] at old; cases old
  | some n => exact loadRefused known

theorem modulesLoadAll : (p.loadAll drafts).modules = p.modules ++ (p.accepts drafts).map Draft.built := by
  induction drafts generalizing p with
  | nil => simp [loadAll, accepts]
  | cons draft rest ih =>
      rw [loadAll, List.foldl_cons, ← loadAll, ih, accepts]
      split
      · next new => rw [loadFresh (loadNew.1 new), List.map_cons, List.append_assoc, List.singleton_append]
      · next old => rw [loadSame (Bool.eq_false_iff.2 old)]

theorem ofDraftsLoad : ofDrafts drafts = (ofModules []).loadAll drafts := List.foldl_map

theorem modulesAccepted (drafts : List (Draft φ)) : (ofDrafts drafts).modules = (accepted drafts).map Draft.built := by
  rw [ofDraftsLoad, modulesLoadAll]
  rfl

theorem findInModules (p : Program φ) (name : TypeName) :
    p.knownTypes.find? name = p.modules.findSome? fun m => m.find? name := by
  rw [findKnown, definitionsOf, List.find?_flatMap]
  exact congrArg (p.modules.findSome? ·) (funext fun m => (OrderedSet.findList m.types name).symm)

theorem findAccepted (drafts : List (Draft φ)) (name : TypeName) :
    (ofDrafts drafts).knownTypes.find? name = (accepted drafts).findSome? fun draft => draft.definition? name := by
  rw [findInModules, modulesAccepted, List.findSome?_map]
  exact congrArg ((accepted drafts).findSome? ·) (funext fun draft => draft.findBuilt name)

theorem loadAllExtends : p.knownTypes.Extends (p.loadAll drafts).knownTypes := by
  induction drafts generalizing p with
  | nil => exact fun _ _ found => found
  | cons draft rest ih => exact fun name d found => ih name d (loadExtends name d found)

theorem ofDraftsAppend : ofDrafts (drafts ++ more) = (ofDrafts drafts).loadAll more := by
  simp [ofDraftsLoad, loadAll]

structure Keeps (drafts : List (Draft φ)) : Prop where
  refuses : ∀ draft : Draft φ, ((ofDrafts drafts).load draft.built).1 = false ↔ ∃ k ∈ accepted drafts, k.id = draft.id
  unchanged : ∀ draft : Draft φ, ((ofDrafts drafts).load draft.built).1 = false →
    ((ofDrafts drafts).load draft.built).2 = ofDrafts drafts
  modules : (ofDrafts drafts).modules = (accepted drafts).map Draft.built
  earliest : ∀ name, (ofDrafts drafts).knownTypes.find? name =
    (accepted drafts).findSome? fun draft => draft.definition? name
  undefined : ∀ name, (ofDrafts drafts).knownTypes.find? name = none ↔
    ∀ draft ∈ accepted drafts, ∀ d ∈ draft.definitions, d.name ≠ name
  stable : ∀ name d, (ofDrafts drafts).knownTypes.find? name = some d →
    ∀ more, (ofDrafts (drafts ++ more)).knownTypes.find? name = some d

theorem firstLoadedCounts (drafts : List (Draft φ)) : Keeps drafts where
  refuses := by
    intro draft
    rw [loadOld, modulesAccepted]
    simp only [List.mem_map, exists_exists_and_eq_and, Draft.builtId]
  unchanged := fun _ => loadSame
  modules := modulesAccepted drafts
  earliest := findAccepted drafts
  undefined := by
    intro name
    rw [findAccepted, List.findSome?_eq_none_iff]
    exact forall₂_congr fun _ _ => Draft.definitionNone
  stable := by
    intro name d found more
    rw [ofDraftsAppend]
    exact loadAllExtends name d found

end Program
end MetadataIndex
