import MetadataIndex.Assignability
import MetadataIndex.Total
import Mathlib.Data.Multiset.AddSub
import Mathlib.Data.Set.Insert
import Mathlib.Logic.Relation

/-! Searches for a supertype in any order. A search looks at whichever reference it likes among those that
wait and remembers as much of what it looked at as it likes. Nothing above its start gets lost: what was
looked at and what waits stay closed under supertypes, so an answer says whether the start reaches the
target. The walk over a stack is the search that takes the top and remembers everything. -/
namespace MetadataIndex
open Std Relation
variable {φ : Type}

structure SupertypeSearch where
  waiting : Multiset TypeRef
  recalled : Set TypeRef

namespace SupertypeSearch

def supertypes (u : Universe φ) (r : TypeRef) : Multiset TypeRef :=
  match u.find? r.name with
  | none => 0
  | some d => d.supertypesAt r.arguments

inductive Step (u : Universe φ) (target : TypeRef) (remembers : Bool) : SupertypeSearch → SupertypeSearch → Prop where
  | skip {r waiting recalled} (differs : r ≠ target) (known : r ∈ recalled) :
      Step u target remembers ⟨r ::ₘ waiting, recalled⟩ ⟨waiting, recalled⟩
  | visit {r waiting recalled kept} (differs : r ≠ target) (fresh : r ∉ recalled) (within : kept ⊆ insert r recalled)
      (whole : remembers = true → kept = insert r recalled) :
      Step u target remembers ⟨r ::ₘ waiting, recalled⟩ ⟨supertypes u r + waiting, kept⟩

inductive Answers (target : TypeRef) : SupertypeSearch → Bool → Prop where
  | found {waiting recalled} : Answers target ⟨target ::ₘ waiting, recalled⟩ true
  | exhausted {recalled} : Answers target ⟨0, recalled⟩ false

def Finishes (u : Universe φ) (target : TypeRef) (remembers : Bool) (search : SupertypeSearch) (answer : Bool) : Prop :=
  ∃ last, ReflTransGen (Step u target remembers) search last ∧ Answers target last answer

def Ends (u : Universe φ) (target : TypeRef) (remembers : Bool) (search : SupertypeSearch) : Prop :=
  Acc (fun next search => Step u target remembers search next) search

def first (u : Universe φ) (candidate : TypeName) : SupertypeSearch :=
  ⟨((u.find? candidate).map TypeDef.selfRef).toList, ∅⟩

def ofWalk (walk : SupertypeWalk) : SupertypeSearch := ⟨walk.pending, {r | r ∈ walk.seen}⟩

variable {u : Universe φ} {target start r s : TypeRef} {remembers : Bool} {search next : SupertypeSearch}
  {looked : Set TypeRef} {candidate : TypeName}

theorem memSupertypes : s ∈ supertypes u r ↔ u.Supertype r s := by
  cases found : u.find? r.name with
  | none => simp [supertypes, Universe.Supertype, found]
  | some d => simp [supertypes, Universe.Supertype, found]

theorem reachedStep (reached : ∀ r ∈ search.waiting, ReflTransGen u.Supertype start r)
    (step : Step u target remembers search next) : ∀ r ∈ next.waiting, ReflTransGen u.Supertype start r := by
  cases step with
  | skip => exact fun r member => reached r (Multiset.mem_cons_of_mem member)
  | visit =>
      intro s member
      rcases Multiset.mem_add.1 member with new | old
      · exact (reached _ (Multiset.mem_cons_self ..)).tail (memSupertypes.1 new)
      · exact reached s (Multiset.mem_cons_of_mem old)

structure Covers (u : Universe φ) (target start : TypeRef) (search : SupertypeSearch) (looked : Set TypeRef) :
    Prop where
  reached : ∀ r ∈ search.waiting, ReflTransGen u.Supertype start r
  origin : start ∈ looked ∨ start ∈ search.waiting
  closed : ∀ r ∈ looked, ∀ s, u.Supertype r s → s ∈ looked ∨ s ∈ search.waiting
  missed : target ∉ looked
  recalls : search.recalled ⊆ looked

theorem coversFirst : Covers u target start ⟨{start}, ∅⟩ ∅ where
  reached := by
    intro r member
    rw [Multiset.mem_singleton.1 member]
  origin := .inr (Multiset.mem_singleton_self start)
  closed := fun _ member => absurd member (Set.notMem_empty _)
  missed := Set.notMem_empty _
  recalls := Set.Subset.rfl

theorem coversStep (inv : Covers u target start search looked) (step : Step u target remembers search next) :
    ∃ after, Covers u target start next after ∧
      (remembers = true → search.recalled = looked → next.recalled = after) := by
  have reached := reachedStep inv.reached step
  cases step with
  | @skip r waiting recalled differs known =>
      have old : r ∈ looked := inv.recalls known
      have left {s : TypeRef} (member : s ∈ looked ∨ s ∈ r ::ₘ waiting) : s ∈ looked ∨ s ∈ waiting := by
        rcases member with before | waits
        · exact .inl before
        · rcases Multiset.mem_cons.1 waits with same | later
          · exact .inl (same ▸ old)
          · exact .inr later
      refine ⟨looked, ?_, fun _ same => same⟩
      exact {
        reached
        origin := left inv.origin
        closed := fun s member t above => left (inv.closed s member t above)
        missed := inv.missed
        recalls := inv.recalls }
  | @visit r waiting recalled kept differs fresh within whole =>
      have left {s : TypeRef} (member : s ∈ looked ∨ s ∈ r ::ₘ waiting) :
          s ∈ insert r looked ∨ s ∈ supertypes u r + waiting := by
        rcases member with before | waits
        · exact .inl (Set.mem_insert_of_mem _ before)
        · rcases Multiset.mem_cons.1 waits with same | later
          · exact .inl (same ▸ Set.mem_insert ..)
          · exact .inr (Multiset.mem_add.2 (.inr later))
      refine ⟨insert r looked, ?_, fun all same => (whole all).trans (congrArg (insert r) same)⟩
      exact {
        reached
        origin := left inv.origin
        closed := by
          intro s member t above
          rcases Set.mem_insert_iff.1 member with same | before
          · rw [same] at above
            exact .inr (Multiset.mem_add.2 (.inl (memSupertypes.2 above)))
          · exact left (inv.closed s before t above)
        missed := fun member => (Set.mem_insert_iff.1 member).elim (fun same => differs same.symm) inv.missed
        recalls := within.trans (Set.insert_subset_insert inv.recalls) }

theorem coversSteps (inv : Covers u target start search looked)
    (steps : ReflTransGen (Step u target remembers) search next) :
    ∃ after, Covers u target start next after ∧
      (remembers = true → search.recalled = looked → next.recalled = after) := by
  induction steps with
  | refl => exact ⟨looked, inv, fun _ same => same⟩
  | tail _ last ih =>
      obtain ⟨before, covered, held⟩ := ih
      obtain ⟨after, coveredToo, heldToo⟩ := coversStep covered last
      exact ⟨after, coveredToo, fun all same => heldToo all (held all same)⟩

theorem lookedOnPath {recalled : Set TypeRef} (inv : Covers u target start ⟨0, recalled⟩ looked)
    (path : ReflTransGen u.Supertype start r) : r ∈ looked := by
  induction path with
  | refl => exact inv.origin.resolve_right (Multiset.notMem_zero _)
  | tail _ last ih => exact (inv.closed _ ih _ last).resolve_right (Multiset.notMem_zero _)

theorem coversAnswer {answer : Bool} (inv : Covers u target start search looked) (done : Answers target search answer) :
    answer = true ↔ ReflTransGen u.Supertype start target := by
  cases done with
  | found => exact ⟨fun _ => inv.reached target (Multiset.mem_cons_self ..), fun _ => rfl⟩
  | exhausted =>
      exact ⟨fun same => absurd same Bool.false_ne_true, fun path => absurd (lookedOnPath inv path) inv.missed⟩

open Classical in
noncomputable def remaining (u : Universe φ) (reached : List TypeRef) (search : SupertypeSearch) : Nat :=
  total (fun r => if decide (r ∈ search.recalled) then 0 else (supertypes u r).card) reached + search.waiting.card

theorem remainingStep {reached : List TypeRef} (closed : ∀ r ∈ search.waiting, r ∈ reached)
    (step : Step u target true search next) : remaining u reached next < remaining u reached search := by
  classical
  cases step with
  | @skip r waiting recalled differs known =>
      simp only [remaining, Multiset.card_cons]
      omega
  | @visit r waiting recalled kept differs fresh within whole =>
      have paid : total (fun s => if decide (s ∈ insert r recalled) then 0 else (supertypes u s).card) reached +
          (supertypes u r).card ≤
            total (fun s => if decide (s ∈ recalled) then 0 else (supertypes u s).card) reached :=
        totalPays (closed r (Multiset.mem_cons_self ..)) (by simp [fresh]) (by simp)
          fun s old => by simp [of_decide_eq_true old]
      simp only [remaining, whole rfl, Multiset.card_cons, Multiset.card_add]
      omega

theorem ofWalkInsert (pending : List TypeRef) (seen : TreeSet TypeRef) (current : TypeRef) :
    ofWalk ⟨pending, seen.insert current⟩ = ⟨pending, insert current {r | r ∈ seen}⟩ := by
  refine congrArg (SupertypeSearch.mk _) (Set.ext fun r => ?_)
  rw [Set.mem_insert_iff]
  exact TreeSet.mem_insert.trans (or_congr_left (Std.compare_eq_iff_eq.trans eq_comm))

theorem ofWalkCons (current : TypeRef) (rest : List TypeRef) (seen : TreeSet TypeRef) :
    ofWalk ⟨current :: rest, seen⟩ = ⟨current ::ₘ (rest : Multiset TypeRef), {r | r ∈ seen}⟩ := rfl

theorem walkSearches {walk after : SupertypeWalk} (step : walk.step u target = .next after) :
    Step u target true (ofWalk walk) (ofWalk after) := by
  obtain ⟨pending, seen⟩ := walk
  cases pending with
  | nil => cases step
  | cons current rest =>
      rw [ofWalkCons]
      simp only [SupertypeWalk.step] at step
      split at step
      · cases step
      · next differs =>
        split at step
        · next known =>
          cases step
          have old : current ∈ {r | r ∈ seen} := TreeSet.contains_iff_mem.1 known
          exact .skip differs old
        · next fresh =>
          have unseen : current ∉ {r | r ∈ seen} := fun member => fresh (TreeSet.contains_iff_mem.2 member)
          have visited : Step u target true ⟨current ::ₘ rest, {r | r ∈ seen}⟩
              ⟨supertypes u current + rest, insert current {r | r ∈ seen}⟩ :=
            .visit differs unseen Set.Subset.rfl fun _ => rfl
          split at step
          · next missing =>
            cases step
            rw [ofWalkInsert]
            simpa only [supertypes, missing, Multiset.zero_add] using visited
          · next d found =>
            cases step
            rw [ofWalkInsert, ← Multiset.coe_add, Multiset.coe_reverse]
            simpa only [supertypes, found] using visited

theorem exhausted (done : Answers target search false) : search.waiting = 0 := by
  cases done
  rfl

theorem walkAnswers {walk : SupertypeWalk} {answer : Bool} (step : walk.step u target = .answer answer) :
    Answers target (ofWalk walk) answer := by
  obtain ⟨pending, seen⟩ := walk
  cases pending with
  | nil =>
      cases step
      exact .exhausted
  | cons current rest =>
      rw [ofWalkCons]
      simp only [SupertypeWalk.step] at step
      split at step
      · next same =>
        cases step
        exact same ▸ .found
      · split at step
        · cases step
        · split at step <;> cases step

end SupertypeSearch

namespace SupertypeWalk
variable {u : Universe φ} {target start r : TypeRef} {walk after : SupertypeWalk} {limit : Nat} {answer : Bool}

def Goes (u : Universe φ) (target : TypeRef) (walk next : SupertypeWalk) : Prop := walk.step u target = .next next

theorem goesSearches (path : ReflTransGen (Goes u target) walk after) :
    ReflTransGen (SupertypeSearch.Step u target true) (.ofWalk walk) (.ofWalk after) :=
  path.lift SupertypeSearch.ofWalk fun _ _ step => SupertypeSearch.walkSearches step

theorem runGoes (done : walk.run u target limit = some answer) :
    ∃ last, ReflTransGen (Goes u target) walk last ∧ last.step u target = .answer answer := by
  induction limit generalizing walk with
  | zero => cases done
  | succ limit ih =>
      rw [run] at done
      cases step : walk.step u target with
      | answer found =>
          rw [step] at done
          cases done
          exact ⟨walk, .refl, step⟩
      | next after =>
          rw [step] at done
          obtain ⟨last, path, answers⟩ := ih done
          exact ⟨last, .head step path, answers⟩

theorem runFinishes (done : walk.run u target limit = some answer) :
    SupertypeSearch.Finishes u target true (.ofWalk walk) answer := by
  obtain ⟨last, path, answers⟩ := runGoes done
  exact ⟨.ofWalk last, goesSearches path, SupertypeSearch.walkAnswers answers⟩

theorem ofWalkFirst : SupertypeSearch.ofWalk ⟨[start], ∅⟩ = ⟨{start}, ∅⟩ :=
  congrArg (SupertypeSearch.mk _) (Set.eq_empty_of_forall_notMem fun _ => TreeSet.not_mem_emptyc)

theorem coversGone (path : ReflTransGen (Goes u target) ⟨[start], ∅⟩ walk) :
    SupertypeSearch.Covers u target start (.ofWalk walk) {r | r ∈ walk.seen} := by
  have steps := goesSearches path
  rw [ofWalkFirst] at steps
  obtain ⟨looked, covered, held⟩ := SupertypeSearch.coversSteps SupertypeSearch.coversFirst steps
  have same : {r | r ∈ walk.seen} = looked := held rfl rfl
  exact same ▸ covered

theorem goneOut (done : walk.run u target limit = some false) :
    ∃ seen, ReflTransGen (Goes u target) walk ⟨[], seen⟩ := by
  obtain ⟨⟨pending, seen⟩, path, answers⟩ := runGoes done
  cases pending with
  | nil => exact ⟨seen, path⟩
  | cons current rest =>
      have nothing : current ::ₘ (rest : Multiset TypeRef) = 0 :=
        SupertypeSearch.exhausted (SupertypeSearch.walkAnswers answers)
      exact absurd nothing Multiset.cons_ne_zero

theorem seenOnPath {seen : TreeSet TypeRef} (gone : ReflTransGen (Goes u target) ⟨[start], ∅⟩ ⟨[], seen⟩)
    (path : ReflTransGen u.Supertype start r) : r ∈ seen := SupertypeSearch.lookedOnPath (coversGone gone) path

theorem runEnds {reached : List TypeRef} (closed : ∀ r, ReflTransGen u.Supertype start r → r ∈ reached)
    (waits : ∀ r ∈ walk.pending, ReflTransGen u.Supertype start r)
    (enough : SupertypeSearch.remaining u reached (.ofWalk walk) < limit) :
    ∃ answer, walk.run u target limit = some answer := by
  induction limit generalizing walk with
  | zero => omega
  | succ limit ih =>
      rw [run]
      split
      · next answer _ => exact ⟨answer, rfl⟩
      · next after step =>
        have searched := SupertypeSearch.walkSearches step
        have fewer := SupertypeSearch.remainingStep (fun r member => closed r (waits r member)) searched
        exact ih (SupertypeSearch.reachedStep waits searched) (by omega)

theorem runFirst {reached : List TypeRef} (closed : ∀ r, ReflTransGen u.Supertype start r → r ∈ reached) :
    ∃ limit, ∀ target, ∃ answer, run u target limit ⟨[start], ∅⟩ = some answer := by
  have waits : ∀ r ∈ [start], ReflTransGen u.Supertype start r := fun r member => by
    rw [List.mem_singleton.1 member]
  exact ⟨_, fun _ => runEnds closed waits (Nat.lt_succ_self _)⟩

end SupertypeWalk
end MetadataIndex
