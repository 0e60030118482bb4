import MetadataIndex.Proofs.DecidedWalks
import MetadataIndex.Proofs.ExactSearch

/-! Which walks end. A walk ends for every target exactly where finitely many references lie above its
candidate: ranks of the generic places are enough for that, and in well formed metadata necessary. A
definition that derives from an instantiation of itself, with its parameter inside another argument, has
no rank, and the references that its walk looks at never repeat. -/
namespace MetadataIndex
open Std Relation
variable {φ : Type}

structure WalksEnd (u : Universe φ) : Prop where
  targets : ∀ candidate, (∀ target, ∃ limit answer, u.assignable? limit candidate target = some answer) ↔
    (u.Above candidate).Finite
  missed : ∀ candidate target, ¬ u.AssignableTo candidate target →
    ((∃ limit answer, u.assignable? limit candidate target = some answer) ↔ (u.Above candidate).Finite)
  everywhere : (∃ limit, u.Suffices limit) ↔ ∀ candidate, (u.Above candidate).Finite
  ranked : ∀ candidate rank top, u.Ranked candidate rank top → (u.Above candidate).Finite
  formed : u.WellFormed → ∀ candidate d, u.find? candidate = some d →
    ((u.Above candidate).Finite ↔ ∃ rank top, u.Ranked candidate rank top)
  searches : ∀ limit, u.Suffices limit → ∀ graph scope recordedOnly base e,
    (⟨graph, u, limit⟩ : SubtypeSearch φ).find scope recordedOnly base = .error e → e = .unsupportedGenericQuery base
  collects : ∀ limit, u.Suffices limit → ∀ calls t e,
    ((⟨u, limit⟩ : Materializer φ).collect calls t).1 = .error e → Materializer.Contradicts u calls e

/-- Walks end exactly where finitely many references lie above their candidates. -/
theorem walksEnd (u : Universe φ) : WalksEnd u where
  targets := fun _ => Universe.decidedIff
  missed := fun _ _ => Universe.decidedOutOfReach
  everywhere := by
    constructor
    · intro ⟨limit, enough⟩ candidate
      exact Universe.decidedIff.1 fun target => ⟨limit, enough candidate target⟩
    · exact Universe.decidedEverywhere
  ranked := fun _ _ _ => Universe.aboveRanked
  formed := by
    intro formed candidate d known
    constructor
    · intro finite
      exact ⟨_, _, Universe.rankedFinite formed finite known⟩
    · intro ⟨_, _, ranked⟩
      exact Universe.aboveRanked ranked
  searches := by
    intro limit enough graph scope recordedOnly base e failed
    rcases SubtypeSearch.findFails failed with ⟨_, same⟩ | ⟨_, t, stuck, _⟩
    · exact same
    · obtain ⟨answer, decided⟩ := enough t base
      cases stuck.symm.trans decided
  collects := fun _ enough _ _ _ failed => Materializer.collectContradicts enough failed

def exchanging : Universe := .ofDefs [
  { name := "Pair", owner := "M", kind := .classType, parameters := ["T", "U"],
    base := some ⟨"Pair", [.parameter "U", .parameter "T"]⟩ }]

example : exchanging.assignable? 5 "Pair" ⟨"Stop", []⟩ = some false := by decide +kernel

theorem growingNeverDecided : ¬ ∃ limit answer, growing.assignable? limit "Grow" ⟨"Stop", []⟩ = some answer := by
  intro ⟨limit, answer, decided⟩
  rw [Universe.growsUndecided growingKnown growTypeGrows (by decide)] at decided
  cases decided

end MetadataIndex
