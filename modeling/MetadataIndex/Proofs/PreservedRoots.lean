import MetadataIndex.Proofs.RetainedAnnotations

/-! The roots that must be kept. A root is the target of an instance whose value asks for it, or the
declaration of an indexed type below a collecting base that preserves its subtypes. Indexed types are
known by name, and a name leads to its first definition, so a record's own definition is found when no
earlier module defines the name; a shadowed one is a root only when an instance asks for it. -/
namespace MetadataIndex
open Std Relation
variable {φ : Type}

def Attachment.Preserves [Preserving φ] (a : Attachment φ) : Prop := ∃ t, (a.make t).1.preserve = true

def TypeDef.Reaches (owner : TypeDef φ) (u : Universe φ) (d : TypeDef φ) : Prop :=
  d = owner ∨ ∃ above ∈ owner.supertypeNames, u.find? d.name = some d ∧ ReflTransGen u.DirectSupertype above d.name

def TypeDef.Kept (owner : TypeDef φ) (u : Universe φ) : Prop := ∃ d, owner.Reaches u d ∧ d.collects = some true

namespace Universe
variable {u : Universe φ} {name : TypeName} {owner d : TypeDef φ}

theorem closureOfFirst (known : u.find? name = some owner) :
    d ∈ u.supertypeClosure name ↔ owner.Reaches u d := by
  rw [memClosure]
  constructor
  · intro ⟨found, path⟩
    rcases path.cases_head with same | ⟨above, first, rest⟩
    · rw [← same, known] at found
      exact .inl (Option.some.inj found).symm
    · obtain ⟨e, knownToo, member⟩ := first
      rw [known] at knownToo
      cases knownToo
      exact .inr ⟨above, member, found, rest⟩
  · intro reached
    rcases reached with same | ⟨above, member, found, path⟩
    · subst same
      rw [nameOfFind known]
      exact ⟨known, .refl⟩
    · exact ⟨found, .head ⟨owner, known, member⟩ path⟩

theorem preservesKept (known : u.find? name = some owner) :
    u.preservesSubtypes name = true ↔ owner.Kept u := by
  rw [preservesSubtypes, List.any_eq_true]
  simp only [closureOfFirst known, decide_eq_true_eq]
  rfl

end Universe

def Contribution.Asks [Preserving φ] (c : Contribution φ) (u : Universe φ) (d : Declaration φ) : Prop :=
  ∃ a, d.leading? a.type = some a ∧ c.Fits u d a.type ∧ a.Preserves

namespace AttributeGroups
variable {m : Materializer φ} {c : Contribution φ} {t : Tally} {groups : AttributeGroups φ} {i : Instance φ}

theorem instancesMade (ok : (build m c t).1 = .ok groups) (member : i ∈ groups.instances) :
    i.Made ∧ c.Fits m.types i.target i.type := by
  obtain ⟨instances, collected, same⟩ := buildCollects ok
  subst same
  obtain ⟨made, ⟨ds, key, query⟩, called, marked, accepted⟩ :=
    Materializer.collectMade collected (memInstances.1 member)
  have viewed : query = key := Contribution.viewCall called
  subst viewed
  exact ⟨made, ⟨query, i.target⟩, Contribution.memViewCalls.1 ⟨ds, called, marked⟩, rfl,
    (Materializer.assignableOk accepted).1 rfl⟩

end AttributeGroups

theorem Instance.madePreserves [Preserving φ] {i : Instance φ} (made : i.Made) :
    i.value.preserve = true ↔ ∃ a, i.target.leading? i.type = some a ∧ a.Preserves := by
  obtain ⟨a, t, leading, same⟩ := made
  have value : i.value.preserve = (a.make t).1.preserve := by
    rw [same]
    rfl
  constructor
  · intro preserve
    exact ⟨a, leading, t, value.symm.trans preserve⟩
  · intro ⟨b, leadingToo, other, preserve⟩
    rw [leading] at leadingToo
    cases leadingToo
    exact value.trans preserve

theorem Declaration.leadingAttached {d : Declaration φ} {type : TypeName} {a : Attachment φ}
    (leading : d.leading? type = some a) : a ∈ d.attachments ∧ a.type = type :=
  ⟨List.mem_of_find?_eq_some leading, by simpa using List.find?_some leading⟩

namespace Registry
variable {r : Registry φ} {m : Materializer φ} {t : Tally} {groups : AttributeGroups φ} {id : DeclarationId}

theorem askingTargets [Preserving φ] (inv : r.Coherent) (ok : (AttributeGroups.build m r.global t).1 = .ok groups) :
    id ∈ ((groups.instances.filter (·.value.preserve)).map Instance.target).map Declaration.id ↔
      ∃ d, r.global.Asks m.types d ∧ d.id = id := by
  simp only [List.map_map, List.mem_map, List.mem_filter, Function.comp]
  constructor
  · intro ⟨i, ⟨member, preserve⟩, same⟩
    obtain ⟨made, fits⟩ := AttributeGroups.instancesMade ok member
    obtain ⟨a, leading, asks⟩ := (Instance.madePreserves made).1 preserve
    have type := (Declaration.leadingAttached leading).2
    exact ⟨i.target, ⟨a, type.symm ▸ leading, type.symm ▸ fits, asks⟩, same⟩
  · intro ⟨d, ⟨a, leading, ⟨mark, marked, target, fits⟩, asks⟩, same⟩
    subst target
    have attached := (Declaration.leadingAttached leading).1
    have shown : r.global.Shows m.types ⟨a.type, mark.target.id⟩ := ⟨mark, marked, a, attached, fits, rfl⟩
    obtain ⟨i, member, tag⟩ := List.mem_map.1 ((AttributeGroups.buildShows ok).2 shown)
    obtain ⟨type, targetId⟩ := Tag.mk.inj tag
    obtain ⟨made, twin, inside, twinTarget, _⟩ := AttributeGroups.instancesMade ok member
    -- one declaration for each identity, so the instance was made from this attachment
    have target : i.target = mark.target :=
      twinTarget.symm.trans (sameTarget inv inside marked (twinTarget ▸ targetId))
    refine ⟨i, ⟨member, (Instance.madePreserves made).2 ⟨a, ?_, asks⟩⟩, target ▸ same⟩
    rw [target, type]
    exact leading

theorem syncedNames (inv : r.Coherent) (synced : r.Synced) {name : TypeName} :
    name ∈ r.global.types.toList ↔ ∃ ρ ∈ r.program.records, ρ.type = name := by
  rw [memGlobalTypes inv]
  constructor
  · intro ⟨id, c, found, inside⟩
    obtain ⟨m, member, _, _, _, _, told⟩ := storedTold inv found
    subst told
    obtain ⟨ρ, record, named⟩ := CodeModule.memToldTypes.1 inside
    exact ⟨ρ, memRecords.2 ⟨m, member, record⟩, named⟩
  · intro ⟨ρ, listed, named⟩
    obtain ⟨m, member, record⟩ := memRecords.1 listed
    obtain ⟨c, found⟩ := Option.isSome_iff_exists.1 (synced m member (recordInstrumented record))
    obtain ⟨n, inside, _, _, same, _, told⟩ := storedTold inv found
    obtain rfl := moduleUnique inv inside member same
    exact ⟨n.id, c, found, told ▸ CodeModule.memToldTypes.2 ⟨ρ, record, named⟩⟩

theorem syncedResolved (inv : r.Coherent) (synced : r.Synced) {n : CodeModule φ} {ρ : Record}
    (member : n ∈ r.program.modules) (record : ρ ∈ n.recordList) : ∃ owner, n.find? ρ.type = some owner := by
  obtain ⟨c, found⟩ := Option.isSome_iff_exists.1 (synced n member (recordInstrumented record))
  obtain ⟨k, inside, u, _, same, _, derivation⟩ := inv.origin _ (contributionIff.1 found)
  obtain rfl := moduleUnique inv inside member same
  exact CodeModule.deriveResolved derivation record

end Registry

def TypeDef.Rooted (owner : TypeDef φ) (roots : List (Declaration φ)) : Prop :=
  Declaration.id ⟨owner, none⟩ ∈ roots.map Declaration.id

structure Index.Roots [Preserving φ] (ix : Index φ) (v : Universe φ) (roots : List (Declaration φ)) : Prop where
  older : v.Extends ix.types
  distinct : (roots.map Declaration.id).Nodup
  exact : ∀ id, id ∈ roots.map Declaration.id ↔
    (∃ d, ix.synced.registry.global.Asks v d ∧ d.id = id) ∨
      ∃ ρ ∈ ix.registry.program.records, ∃ owner, ix.types.find? ρ.type = some owner ∧ owner.Kept ix.types ∧
        Declaration.id ⟨owner, none⟩ = id
  resolved : ∀ m ∈ ix.registry.program.modules, ∀ ρ ∈ m.recordList, ∃ owner, m.find? ρ.type = some owner
  first : ∀ m ∈ ix.registry.program.modules, ∀ ρ ∈ m.recordList, ∀ owner, m.find? ρ.type = some owner →
    ix.types.find? ρ.type = some owner → owner.Kept ix.types → owner.Rooted roots
  shadowed : ∀ m ∈ ix.registry.program.modules, ∀ ρ ∈ m.recordList, ∀ owner, m.find? ρ.type = some owner →
    ix.types.find? ρ.type ≠ some owner →
      (owner.Rooted roots ↔ ∃ d, ix.synced.registry.global.Asks v d ∧ d.id = Declaration.id ⟨owner, none⟩)
  whole : ix.registry.program.modules.Pairwise CodeModule.Apart →
    ∀ m ∈ ix.registry.program.modules, ∀ ρ ∈ m.recordList, ∀ owner, m.find? ρ.type = some owner →
      owner.Kept ix.types → owner.Rooted roots

namespace Index
variable {ix : Index φ} {w v : Universe φ} {roots : List (Declaration φ)} {groups : AttributeGroups φ}

def rootsOf [Preserving φ] (ix : Index φ) (groups : AttributeGroups φ) : List (Declaration φ) :=
  (groups.instances.filter (·.value.preserve)).map Instance.target ++
    ((ix.synced.registry.global.types.toList.filter ix.types.preservesSubtypes).filterMap ix.types.find?).map
      fun d => ⟨d, none⟩

theorem answerRoots [Preserving φ] (views : ix.Views w) (ok : ix.answer Query.preservedRoots = .ok roots) :
    ∃ v groups, v.Extends ix.types ∧ ix.Given v groups ∧
      roots = (OrderedSet.ofList Declaration.id (ix.rootsOf groups)).toList := by
  obtain ⟨view, flattened, rest⟩ := answerBind.1 ok
  obtain ⟨after, got, last⟩ := answerBind.1 rest
  have kept : ix.Keeps (ix.after Query.flattenedView) := viewSteps.flattenedView
  obtain ⟨given, types⟩ := answerFlattened views flattened
  cases got
  rw [answerPure, kept.types, types] at last
  cases last
  have older := (kept.views w views).older
  rw [kept.types] at older
  exact ⟨_, view.attributes.content, older, given, rfl⟩

theorem memKeptNames {id : DeclarationId} (views : ix.Views w) (given : ix.Given v groups) :
    id ∈ (((ix.synced.registry.global.types.toList.filter ix.types.preservesSubtypes).filterMap
        ix.types.find?).map fun d => (⟨d, none⟩ : Declaration φ)).map Declaration.id ↔
      ∃ ρ ∈ ix.registry.program.records, ∃ owner, ix.types.find? ρ.type = some owner ∧ owner.Kept ix.types ∧
        Declaration.id ⟨owner, none⟩ = id := by
  obtain ⟨n, synced⟩ := given.synced
  have records : ix.synced.registry.program.records = ix.registry.program.records :=
    (Registry.movesRecords Registry.syncMoves).1
  simp only [List.map_map, List.mem_map, List.mem_filterMap, List.mem_filter, Function.comp,
    Registry.syncedNames (viewsSynced views).coherent (syncedOf synced), records]
  constructor
  · intro ⟨owner, ⟨name, ⟨⟨ρ, record, named⟩, preserves⟩, known⟩, same⟩
    subst named
    exact ⟨ρ, record, owner, known, (Universe.preservesKept known).1 preserves, same⟩
  · intro ⟨ρ, record, owner, known, kept, same⟩
    exact ⟨owner, ⟨ρ.type, ⟨⟨ρ, record, rfl⟩, (Universe.preservesKept known).2 kept⟩, known⟩, same⟩

section Records
variable {m : CodeModule φ} {ρ : Record} {owner other : TypeDef φ}

theorem resolvedRecord (views : ix.Views w) (given : ix.Given v groups) (member : m ∈ ix.registry.program.modules)
    (record : ρ ∈ m.recordList) : ∃ owner, m.find? ρ.type = some owner := by
  obtain ⟨_, synced⟩ := given.synced
  obtain ⟨n, inside, eq⟩ := Registry.moduleAfter Registry.syncMoves member
  have resolved : ∀ ρ ∈ n.recordList, ∃ owner, n.find? ρ.type = some owner := fun _ listed =>
    Registry.syncedResolved (viewsSynced views).coherent (syncedOf synced) inside listed
  rcases eq with same | same
  · subst same
    exact resolved ρ record
  · subst same
    obtain ⟨owner, found⟩ := resolved ρ (m.openedRecordList ▸ record)
    rw [CodeModule.find?, m.openedTypes] at found
    exact ⟨owner, found⟩

theorem sameFirst (views : ix.Views w) (member : m ∈ ix.registry.program.modules)
    (found : m.find? ρ.type = some owner) {name : TypeName} (known : ix.types.find? name = some other)
    (same : Declaration.id ⟨other, none⟩ = Declaration.id ⟨owner, none⟩) : ix.types.find? ρ.type = some owner := by
  obtain ⟨inside, named⟩ := OrderedSet.findIff.1 found
  have listed : other ∈ definitionsOf ix.registry.program.modules := by
    rw [types, Program.findKnown] at known
    exact List.mem_of_find?_eq_some known
  obtain ⟨n, second, owned⟩ := List.mem_flatMap.1 listed
  have equal : (⟨other, none⟩ : Declaration φ) = ⟨owner, none⟩ :=
    Registry.ownedUnique views.coherent second member owned inside same
  cases equal
  rw [← named, Universe.nameOfFind known]
  exact known

end Records

/-- Whatever the modules of a reached index, the roots hold the definition that a name leads to whenever
it is kept, so they hold every kept definition of a record that no earlier module shadows. -/
theorem preservedRootsHold [Preserving φ] (reached : ix.Reachable) (ok : ix.answer Query.preservedRoots = .ok roots) :
    ∃ v, ix.Roots v roots := by
  obtain ⟨w, views⟩ := reachableViews reached
  obtain ⟨v, groups, older, given, same⟩ := answerRoots views ok
  have exact : ∀ id, id ∈ roots.map Declaration.id ↔
      (∃ d, ix.synced.registry.global.Asks v d ∧ d.id = id) ∨
        ∃ ρ ∈ ix.registry.program.records, ∃ owner, ix.types.find? ρ.type = some owner ∧ owner.Kept ix.types ∧
          Declaration.id ⟨owner, none⟩ = id := by
    intro id
    obtain ⟨t, built⟩ := given.built
    rw [same]
    refine OrderedSet.keysOfList.trans ?_
    rw [rootsOf, List.map_append, List.mem_append, memKeptNames views given,
      Registry.askingTargets (viewsSynced views).coherent built]
  have first : ∀ m ∈ ix.registry.program.modules, ∀ ρ ∈ m.recordList, ∀ owner, m.find? ρ.type = some owner →
      ix.types.find? ρ.type = some owner → owner.Kept ix.types → owner.Rooted roots := by
    intro m member ρ record owner _ known kept
    exact (exact _).2 (.inr ⟨ρ, Registry.memRecords.2 ⟨m, member, record⟩, owner, known, kept, rfl⟩)
  refine ⟨v, older, ?_, exact, fun m member ρ record => resolvedRecord views given member record, first, ?_, ?_⟩
  · rw [same]
    exact (OrderedSet.ofList Declaration.id (ix.rootsOf groups)).keysNodup
  · intro m member ρ record owner found differ
    refine (exact _).trans (or_iff_left ?_)
    intro ⟨σ, _, other, known, _, equal⟩
    exact differ (sameFirst views member found known equal)
  · intro apart m member ρ record owner found kept
    obtain ⟨inside, named⟩ := OrderedSet.findIff.1 found
    have known : ix.types.find? ρ.type = some owner := named ▸ Program.unshadowed apart m member owner inside
    exact first m member ρ record owner found known kept

def keepType : TypeDef where
  name := "Keep"
  owner := "Runtime"
  kind := .classType
  collects := some true

def derivedType (name : TypeName) : TypeDef where
  name := name
  owner := "X"
  kind := .classType
  base := some { name := "Keep" }

def derivedModule (name : TypeName) : CodeModule :=
  (({ id := "X" } : CodeModule).define (derivedType name)).withRecords (.eager [{ type := name }])

def keepingModules (name : TypeName) : List CodeModule :=
  [({ id := "Runtime" } : CodeModule)
      |>.define keepType
      |>.define { name := "Shared", owner := "Runtime", kind := .classType },
    derivedModule name]

def keepingIndex (name : TypeName) : Index := ofProgram {} 10 (.ofModules (keepingModules name))

theorem shadowedRootMissed :
    (keepingIndex "Shared").answer (Query.subtypes { name := "Keep" }) = .ok ["Shared"] ∧
      derivedModule "Shared" ∈ (keepingIndex "Shared").registry.program.modules ∧
      { type := "Shared" } ∈ (derivedModule "Shared").recordList ∧
      (derivedModule "Shared").find? "Shared" = some (derivedType "Shared") ∧
      (derivedType "Shared").Kept (keepingIndex "Shared").types ∧
      ∃ roots, (keepingIndex "Shared").answer Query.preservedRoots = .ok roots ∧
        ¬ (derivedType "Shared").Rooted roots := by
  have kept : (derivedType "Shared").Kept (keepingIndex "Shared").types :=
    ⟨keepType, .inr ⟨"Keep", by decide, by decide +kernel, .refl⟩, rfl⟩
  have nothing : (keepingIndex "Shared").answer Query.preservedRoots = .ok [] := by decide +kernel
  exact ⟨by decide +kernel, by decide +kernel, by decide +kernel, by decide +kernel, kept, [], nothing,
    by simp [TypeDef.Rooted]⟩

theorem leafRooted :
    (keepingIndex "Leaf").answer Query.preservedRoots = .ok [⟨derivedType "Leaf", none⟩] ∧
      ∃ v, (keepingIndex "Leaf").Roots v [⟨derivedType "Leaf", none⟩] := by
  have reached : (keepingIndex "Leaf").Reachable := ⟨{}, 10, keepingModules "Leaf", [], rfl⟩
  have answered : (keepingIndex "Leaf").answer Query.preservedRoots = .ok [⟨derivedType "Leaf", none⟩] := by
    decide +kernel
  exact ⟨answered, preservedRootsHold reached answered⟩

end Index
end MetadataIndex
