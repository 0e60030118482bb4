import MetadataIndex.Proofs.SkewReports

/-! Which declarations the skew of an attribute query can be about. Over one module it is a mark below the
asked type. Over the whole index the answer is read off one view of all marks, so any contradicted mark
fails the query, whatever type was asked for, and every type fails for the same one. -/
namespace MetadataIndex
open Std Relation
variable {φ : Type}

namespace Index
variable {ix : Index φ} {w : Universe φ} {type other : TypeName} {mark : Mark φ} {e : QueryError} {n : Nat}

theorem attributesOutcome (accepted : ix.checkAnnotationType type = .ok ()) (synced : ix.answer Query.sync = .ok n) :
    ix.answer (Query.attributes type) = (ix.synced.answer Query.attributeView).map fun s =>
      (type :: (ix.synced.registry.search ix.walkLimit).candidates ix.synced.registry.global false type).flatMap
        s.content.ofType := by
  have checked : ix.answer (Query.read (·.checkAnnotationType type)) = .ok () := accepted
  rw [Query.attributes, answerNext checked, afterRead, answerNext synced, afterSync]
  cases view : ix.synced.answer Query.attributeView with
  | error e =>
      rw [answerStopped view]
      rfl
  | ok s =>
      have found : (ix.synced.after Query.attributeView).answer (Query.read (·.annotationCandidates type)) = _ :=
        candidatesEq (ix.synced.after Query.attributeView) type
      rw [answerNext view, answerNext found, answerPure, viewRegistry, viewLimit]
      rfl

theorem attributesFails (accepted : ix.checkAnnotationType type = .ok ()) (synced : ix.answer Query.sync = .ok n) :
    ix.answer (Query.attributes type) = .error e ↔ ix.synced.answer Query.attributeView = .error e := by
  rw [attributesOutcome accepted synced]
  cases ix.synced.answer Query.attributeView <;> simp [Except.map]

theorem attributesUnbuilt (views : ix.Views ix.types) (full : ix.registry.Full)
    (accepted : ix.checkAnnotationType type = .ok ())
    (failed : (ix.materializer.pickCalls ∅ (AttributeGroups.calls ix.registry.global)).2 = .error e) :
    ix.answer (Query.attributes type) = .error e := by
  obtain ⟨synced, same⟩ := syncedFull full
  refine (attributesFails accepted synced).2 ?_
  rw [same]
  exact viewBuildFails views (AttributeGroups.buildFailed failed)

-- a view handed out was built over types that the present ones extend, so none of its marks is contradicted
theorem answeredSound {answer : List (Instance φ)} (views : ix.Views w)
    (ok : ix.answer (Query.attributes type) = .ok answer) (contradicted : ix.Contradicted mark) : False := by
  obtain ⟨_, given, _⟩ := answerAttributes views ok
  have sound := (readyGiven given views (viewSteps.attributes type)).sound
  rw [syncedTypes] at sound
  obtain ⟨_, call, marked⟩ := Contribution.memViewCalls.2 contradicted.marked
  exact contradicted.lacks (sound _ call _ marked)

theorem contradictedFails (views : ix.Views w) (accepted : ix.checkAnnotationType type = .ok ())
    (synced : ix.answer Query.sync = .ok n) (contradicted : ix.Contradicted mark) :
    ∃ e, ix.answer (Query.attributes type) = .error e ∧ (e.Skewed ∨ Materializer.Undecided e) := by
  cases outcome : ix.answer (Query.attributes type) with
  | ok answer => exact (answeredSound views outcome contradicted).elim
  | error e =>
      have failed := viewFails ((attributesFails accepted synced).1 outcome)
      exact ⟨e, rfl, failed.imp Materializer.skewedOf Materializer.undecidedOf⟩

structure SkewScope (ix : Index φ) (type : TypeName) : Prop where
  whole : ∀ e, e.Skewed → ix.answer (Query.attributes type) = .error e → ∃ mark, ix.Contradicted mark ∧ e = mark.skew
  contradicted : ∀ mark, ix.Contradicted mark →
    ∃ e, ix.answer (Query.attributes type) = .error e ∧ (e.Skewed ∨ Materializer.Undecided e)
  uniform : ∀ other, ix.checkAnnotationType other = .ok () → ∀ e,
    ix.answer (Query.attributes type) = .error e ↔ ix.answer (Query.attributes other) = .error e
  candidates : (∀ mark, ix.Contradicted mark → ix.synced.registry.Below type mark.marker) → ∀ e, e.Skewed →
    ix.answer (Query.attributes type) = .error e →
      ∃ mark, ix.Contradicted mark ∧ ix.synced.registry.Below type mark.marker ∧ e = mark.skew
  alone : ∀ id e, e.Skewed → ix.answer (Query.attributesIn type id) = .error e →
    ∃ mark c, ix.synced.registry.contribution? id = some c ∧ mark ∈ c.marks.toList ∧
      ix.synced.registry.Below type mark.marker ∧ ix.Contradicted mark ∧ e = mark.skew

/-- In any index that a run reaches and that can be synced, a query over the whole index is skewed by any
contradicted mark and by nothing else, unless a walk meets its limit first, and a query over one module by
contradicted marks below the asked type alone. -/
theorem skewScope [Preserving φ] (reached : ix.Reachable) (type : TypeName) (synced : ∃ n, ix.answer Query.sync = .ok n)
    (accepted : ix.checkAnnotationType type = .ok ()) : ix.SkewScope type := by
  obtain ⟨w, views⟩ := reachableViews reached
  obtain ⟨n, synced⟩ := synced
  constructor
  · exact fun e skewed failed => attributesSkewed failed skewed
  · exact fun mark contradicted => contradictedFails views accepted synced contradicted
  · intro other acceptedToo e
    rw [attributesFails accepted synced, attributesFails acceptedToo synced]
  · intro below e skewed failed
    obtain ⟨mark, contradicted, same⟩ := attributesSkewed failed skewed
    exact ⟨mark, contradicted, below mark contradicted, same⟩
  · exact fun id e skewed failed => attributesInSkewed views failed skewed

def strayTarget : TypeDef where
  name := "T"
  owner := "X"
  kind := .classType
  attachments := [⟨"Tag", .plain false, 0⟩]

def strayModules : List CodeModule :=
  [({ id := "Runtime" } : CodeModule)
      |>.define { name := "Retrieve", owner := "Runtime", kind := .annotationType, retrievable := true }
      |>.define { name := "Tag", owner := "Runtime", kind := .annotationType, base := some { name := "Retrieve" } }
      |>.define { name := "Other", owner := "Runtime", kind := .annotationType, base := some { name := "Retrieve" } },
    (({ id := "X" } : CodeModule).define strayTarget).withRecords (.eager [{ type := "T" }]),
    (({ id := "Y" } : CodeModule).define { name := "S", owner := "Y", kind := .classType }).withRecords
      (.eager [{ type := "S", marker := some "Other" }])]

def strayIndex : Index := ofProgram {} 10 (.ofModules strayModules)

theorem strayMarkerSkews :
    (strayIndex.answer (Query.attributes "Tag") = .error (.metadataSkew "S" "Other") ∧
      strayIndex.synced.annotationCandidates "Tag" = .ok ["Tag"] ∧
      strayIndex.synced.registry.global.markedWith "Tag" = [⟨strayTarget, none⟩]) ∧
    (strayIndex.answer (Query.attributesIn "Tag" "X")).map (List.map Instance.id) = .ok [⟨"Tag", ⟨"X", "T", none⟩⟩] ∧
      strayIndex.answer (Query.attributesIn "Tag" "Y") = .ok [] := by
  decide +kernel

theorem strayMarkerScope :
    strayIndex.answer Query.sync = .ok 2 ∧ strayIndex.checkAnnotationType "Tag" = .ok () ∧
      strayIndex.SkewScope "Tag" := by
  have reached : strayIndex.Reachable := ⟨{}, 10, strayModules, [], rfl⟩
  have synced : strayIndex.answer Query.sync = .ok 2 := by decide +kernel
  have accepted : strayIndex.checkAnnotationType "Tag" = .ok () := by decide +kernel
  exact ⟨synced, accepted, skewScope reached "Tag" ⟨2, synced⟩ accepted⟩

end Index
end MetadataIndex
