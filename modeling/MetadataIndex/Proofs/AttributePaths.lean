import MetadataIndex.Proofs.ViewAnswers

/-! The two ways to the instances of an annotation type. Over the whole index they are read off the
view, by what each attachment fits there and by the types below the asked one; module by module they
are picked among the marks below the asked type, by what is assignable to it. The answers have the
same tags exactly when both tests say the same of every attachment of a marked declaration. -/
namespace MetadataIndex
open Std Relation
variable {φ : Type}

def Registry.PathsAgree (r : Registry φ) (shown : Universe φ) (type : TypeName) : Prop :=
  ∀ mark ∈ r.global.marks.toList, ∀ a ∈ mark.target.attachments,
    (r.global.Fits shown mark.target a.type ∧ r.Below type a.type) ↔
      ((∃ other ∈ r.global.marks.toList, other.target = mark.target ∧ r.Below type other.marker) ∧
        r.program.knownTypes.AssignableTo a.type ⟨type, []⟩)

namespace Index
variable {ix : Index φ} {w : Universe φ} {tag : Tag} {type : TypeName}

def Scattered (ix : Index φ) (type : TypeName) (tag : Tag) : Prop :=
  ∃ mark ∈ ix.synced.registry.global.marks.toList,
    ix.synced.registry.Below type mark.marker ∧ Materializer.Picks ix.types type mark.target tag

theorem scatteredShow {answers : ModuleId → List (Instance φ)} (views : ix.Views w)
    (each : ∀ m ∈ ix.registry.program.modules, m.instrumented = true →
      ix.answer (Query.attributesIn type m.id) = .ok (answers m.id)) :
    (∃ m ∈ ix.registry.program.modules, m.instrumented = true ∧ tag ∈ (answers m.id).map Instance.id) ↔
      ix.Scattered type tag := by
  have coherent := (viewsSynced views).coherent
  constructor
  · intro ⟨m, member, instrumented, answered⟩
    obtain ⟨c, stored, shows⟩ := attributesInShow views member instrumented (each m member instrumented)
    obtain ⟨mark, marked, below, picked⟩ := (shows tag).1 answered
    exact ⟨mark, (Registry.memGlobalMarks coherent mark).2 ⟨m.id, c, stored, marked⟩, below, picked⟩
  · intro ⟨mark, member, below, picked⟩
    obtain ⟨id, c, stored, marked⟩ := (Registry.memGlobalMarks coherent mark).1 member
    obtain ⟨n, inside, _, _, same, instrumented, _⟩ := Registry.storedTold coherent stored
    obtain ⟨m, before, sameId, sameMark⟩ := Registry.moduleBefore Registry.syncMoves inside
    have instrumentedBefore : m.instrumented = true := sameMark.trans instrumented
    obtain ⟨d, storedToo, shows⟩ := attributesInShow views before instrumentedBefore (each m before instrumentedBefore)
    rw [sameId, same, stored] at storedToo
    cases storedToo
    exact ⟨m, before, instrumentedBefore, (shows tag).2 ⟨mark, marked, below, picked⟩⟩

theorem namesOfScattered (scattered : ix.Scattered type tag) : ix.synced.registry.global.Names tag := by
  obtain ⟨mark, member, _, a, attached, _, same⟩ := scattered
  exact ⟨mark, member, a, attached, same⟩

theorem scatteredAt {mark : Mark φ} {a : Attachment φ} (coherent : ix.synced.registry.Coherent)
    (member : mark ∈ ix.synced.registry.global.marks.toList) (attached : a ∈ mark.target.attachments) :
    ix.Scattered type ⟨a.type, mark.target.id⟩ ↔
      (∃ other ∈ ix.synced.registry.global.marks.toList, other.target = mark.target ∧
        ix.synced.registry.Below type other.marker) ∧
      ix.synced.registry.program.knownTypes.AssignableTo a.type ⟨type, []⟩ := by
  have types : ix.synced.registry.program.knownTypes = ix.types := syncedTypes
  rw [types]
  constructor
  · intro ⟨other, inside, below, b, _, fits, same⟩
    obtain ⟨sameType, sameId⟩ := Tag.mk.inj same
    exact ⟨⟨other, inside, (Registry.sameTarget coherent member inside sameId).symm, below⟩, sameType ▸ fits⟩
  · intro ⟨⟨other, inside, same, below⟩, fits⟩
    exact ⟨other, inside, below, a, same.symm ▸ attached, fits, by rw [same]⟩

/-- After any run, the instances of an annotation type over the whole index are those of its modules
together exactly when both ways judge every attachment of a marked declaration alike. -/
theorem attributePathsAgree [Preserving φ] (config : Config) (limit : Nat) (modules : List (CodeModule φ))
    (actions : List (Action φ)) (type : TypeName) (answer : List (Instance φ)) (answers : ModuleId → List (Instance φ))
    (whole : ((ofProgram config limit (.ofModules modules)).run actions).answer (Query.attributes type) =
      .ok answer)
    (each : ∀ m ∈ ((ofProgram config limit (.ofModules modules)).run actions).registry.program.modules,
      m.instrumented = true →
        ((ofProgram config limit (.ofModules modules)).run actions).answer
          (Query.attributesIn type m.id) = .ok (answers m.id)) :
    (∀ tag, tag ∈ answer.map Instance.id ↔
      ∃ m ∈ ((ofProgram config limit (.ofModules modules)).run actions).registry.program.modules,
        m.instrumented = true ∧ tag ∈ (answers m.id).map Instance.id) ↔
    ((ofProgram config limit (.ofModules modules)).run actions).synced.registry.PathsAgree
      ((ofProgram config limit (.ofModules modules)).viewTypes (Program.ofModules modules).knownTypes
        (actions ++ [.attributes type])) type := by
  have views := viewsRun actions (viewsAtFirst config limit modules)
  rw [viewTypesSnoc]
  generalize (ofProgram config limit (.ofModules modules)).viewTypes _ actions = w at views ⊢
  generalize (ofProgram config limit (.ofModules modules)).run actions = ix at whole each views ⊢
  have coherent := (viewsSynced views).coherent
  have shown : ∀ tag, tag ∈ answer.map Instance.id ↔
      ix.synced.registry.global.Shows (ix.shownOver (ix.perform (.attributes type)) w) tag ∧
        ix.synced.registry.Below type tag.type := fun _ => attributesShow views whole
  -- both sides name marked declarations, so it is enough to look at these
  simp only [shown, scatteredShow views each]
  rw [Contribution.agreeAtMarks (fun _ holds => Contribution.namesOfShown holds.1) fun _ => namesOfScattered]
  refine forall₂_congr fun mark member => forall₂_congr fun a attached => ?_
  rw [Registry.showsAt coherent member attached, scatteredAt coherent member attached]

def claimedModules : List CodeModule :=
  [({ id := "Runtime" } : CodeModule)
      |>.define { name := "Retrieve", owner := "Runtime", kind := .annotationType, retrievable := true }
      |>.define { name := "Tag", owner := "Runtime", kind := .annotationType, base := some { name := "Retrieve" } }
      |>.define { name := "Sub", owner := "Runtime", kind := .annotationType, base := some { name := "Tag" } },
    (({ id := "X" } : CodeModule)
      |>.define {
        name := "T"
        owner := "X"
        kind := .classType
        attachments := [⟨"Sub", .plain false, 0⟩] }).withRecords
      (.eager [{ type := "T", marker := some "Tag" }])]

def claimedIndex : Index := ofProgram {} 10 (.ofModules claimedModules)

def claimedTarget : Declaration :=
  ⟨{ name := "T", owner := "X", kind := .classType, attachments := [⟨"Sub", .plain false, 0⟩] }, none⟩

def claimedInstance : Instance := ⟨"Sub", claimedTarget, ⟨.plain false, 0, [claimedTarget]⟩⟩

theorem claimedMarkerMissed :
    claimedIndex.answer (Query.attributes "Sub") = .ok [claimedInstance] ∧
      claimedIndex.registry.program.modules.filter CodeModule.instrumented =
        claimedModules.filter (·.id = "X") ∧
      claimedIndex.answer (Query.attributesIn "Sub" "X") = .ok [] := by
  decide +kernel

theorem claimedPathsDisagree :
    ¬ (claimedIndex.run []).synced.registry.PathsAgree
      (claimedIndex.viewTypes (Program.ofModules claimedModules).knownTypes ([] ++ [.attributes "Sub"]))
      "Sub" := by
  intro agree
  have same := (attributePathsAgree {} 10 claimedModules [] "Sub" [claimedInstance] (fun _ => [])
    (by decide +kernel) (by decide +kernel)).2 agree
  obtain ⟨_, _, _, nothing⟩ := (same claimedInstance.id).1 (List.mem_singleton.2 rfl)
  cases nothing

end Index
end MetadataIndex
