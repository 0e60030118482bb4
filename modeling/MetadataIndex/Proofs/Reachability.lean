import MetadataIndex.Exploration
import Mathlib.Logic.Relation

/-! Exploring a table from one key visits exactly the entries that the key leads to, in either
order. The loop keeps one invariant over the entries seen and the keys pending; when nothing is
pending any more, what was seen is closed under the steps of the table. -/
namespace MetadataIndex.OrderedSet
open Std Relation

section Steps
variable {α κ : Type} [Ord κ] {key : α → κ}

def Leads (table : OrderedSet key) (targets : α → List κ) (k l : κ) : Prop :=
  ∃ a, table.find? k = some a ∧ l ∈ targets a

def Settled (table seen : OrderedSet key) (pending : List κ) (k : κ) : Prop :=
  k ∈ seen.keys ∨ k ∈ pending ∨ table.find? k = none

structure Explored (table : OrderedSet key) (targets : α → List κ) (start : κ)
    (seen : OrderedSet key) (pending : List κ) : Prop where
  entries : ∀ a ∈ seen.toList, table.find? (key a) = some a
  seenReached : ∀ k ∈ seen.keys, ReflTransGen (table.Leads targets) start k
  pendingReached : ∀ k ∈ pending, ReflTransGen (table.Leads targets) start k
  origin : table.Settled seen pending start
  closed : ∀ a ∈ seen.toList, ∀ l ∈ targets a, table.Settled seen pending l

variable {table seen : OrderedSet key} {targets : α → List κ} {start k : κ} {pending : List κ}

theorem exploredAtFirst : table.Explored targets start ∅ [start] where
  entries := by simp
  seenReached := by simp
  pendingReached := by
    intro k member
    rw [List.mem_singleton.1 member]
  origin := .inr (.inl (List.mem_singleton.2 rfl))
  closed := by simp

theorem exploredSkip (inv : table.Explored targets start seen (k :: pending))
    (known : k ∈ seen.keys ∨ table.find? k = none) : table.Explored targets start seen pending := by
  have narrow : ∀ l, table.Settled seen (k :: pending) l → table.Settled seen pending l := by
    intro l settled
    rcases settled with old | waits | missing
    · exact .inl old
    · rcases List.mem_cons.1 waits with same | later
      · subst same
        exact known.elim .inl fun missing => .inr (.inr missing)
      · exact .inr (.inl later)
    · exact .inr (.inr missing)
  exact {
    entries := inv.entries
    seenReached := inv.seenReached
    pendingReached := fun l member => inv.pendingReached l (List.mem_cons_of_mem _ member)
    origin := narrow start inv.origin
    closed := fun a member l target => narrow l (inv.closed a member l target) }

theorem settledDefined {a : α} (inv : table.Explored targets start seen [])
    (settled : table.Settled seen [] k) (found : table.find? k = some a) : a ∈ seen.toList := by
  rcases settled with old | waits | missing
  · obtain ⟨b, member, same⟩ := List.mem_map.1 old
    have entry := inv.entries b member
    rw [same, found] at entry
    exact Option.some.inj entry ▸ member
  · cases waits
  · simp [missing] at found

theorem settledOnPath (inv : table.Explored targets start seen [])
    (path : ReflTransGen (table.Leads targets) start k) : table.Settled seen [] k := by
  induction path with
  | refl => exact inv.origin
  | tail path last ih =>
      obtain ⟨a, found, target⟩ := last
      exact inv.closed a (settledDefined inv ih found) _ target

end Steps

section Exploring
variable {α κ : Type} [Ord κ] [TransOrd κ] [LawfulEqOrd κ] {key : α → κ} {table seen : OrderedSet key}
  {targets : α → List κ} {order : Order} {start k : κ} {pending : List κ}

theorem exploredVisit {a : α} (inv : table.Explored targets start seen (k :: pending))
    (found : table.find? k = some a) (fresh : k ∉ seen.keys) :
    table.Explored targets start (seen.insert a) (order.enqueue (targets a) pending) := by
  obtain ⟨_, same⟩ := findIff.1 found
  subst same
  have reached := inv.pendingReached _ (List.mem_cons_self ..)
  have widen : ∀ l, table.Settled seen (key a :: pending) l →
      table.Settled (seen.insert a) (order.enqueue (targets a) pending) l := by
    intro l settled
    rcases settled with old | waits | missing
    · exact .inl (keysInsert.2 (.inl old))
    · rcases List.mem_cons.1 waits with same | later
      · exact .inl (keysInsert.2 (.inr same))
      · exact .inr (.inl (Order.memEnqueue.2 (.inr later)))
    · exact .inr (.inr missing)
  have member : ∀ b, b ∈ (seen.insert a).toList → b ∈ seen.toList ∨ b = a := by
    intro b inside
    exact (memInsert.1 inside).imp id And.left
  exact {
    entries := by
      intro b inside
      rcases member b inside with old | same
      · exact inv.entries b old
      · exact same ▸ found
    seenReached := by
      intro l inside
      rcases keysInsert.1 inside with old | same
      · exact inv.seenReached l old
      · exact same ▸ reached
    pendingReached := by
      intro l inside
      rcases Order.memEnqueue.1 inside with next | old
      · exact reached.tail ⟨a, found, next⟩
      · exact inv.pendingReached l (List.mem_cons_of_mem _ old)
    origin := widen start inv.origin
    closed := by
      intro b inside l target
      rcases member b inside with old | same
      · exact widen l (inv.closed b old l target)
      · subst same
        exact .inr (.inl (Order.memEnqueue.2 (.inl target))) }

theorem exploredAtLast (inv : table.Explored targets start seen pending) :
    table.Explored targets start (table.explore targets order seen pending) [] := by
  fun_induction table.explore targets order seen pending with
  | case1 seen => exact inv
  | case2 seen k pending visited ih => exact ih (exploredSkip inv (.inl (containsIff.1 visited)))
  | case3 seen k pending fresh missing ih => exact ih (exploredSkip inv (.inr missing))
  | case4 seen k pending fresh a found ih =>
      exact ih (exploredVisit inv found fun old => fresh (containsIff.2 old))

theorem memExplore {a : α} :
    a ∈ (table.explore targets order ∅ [start]).toList ↔
      table.find? (key a) = some a ∧ ReflTransGen (table.Leads targets) start (key a) := by
  have inv : table.Explored targets start (table.explore targets order ∅ [start]) [] :=
    exploredAtLast exploredAtFirst
  constructor
  · intro member
    exact ⟨inv.entries a member, inv.seenReached _ (List.mem_map.2 ⟨a, member, rfl⟩)⟩
  · intro ⟨found, path⟩
    exact settledDefined inv (settledOnPath inv path) found

theorem keysExplore :
    k ∈ (table.explore targets order ∅ [start]).keys ↔
      k ∈ table.keys ∧ ReflTransGen (table.Leads targets) start k := by
  constructor
  · intro member
    obtain ⟨a, inside, same⟩ := List.mem_map.1 member
    subst same
    obtain ⟨found, path⟩ := memExplore.1 inside
    exact ⟨List.mem_map.2 ⟨a, (findIff.1 found).1, rfl⟩, path⟩
  · intro ⟨member, path⟩
    obtain ⟨a, inside, same⟩ := List.mem_map.1 member
    subst same
    exact List.mem_map.2 ⟨a, memExplore.2 ⟨findIff.2 ⟨inside, rfl⟩, path⟩, rfl⟩

theorem exploreVisited (visited : seen.contains k = true) :
    table.explore targets order seen (k :: pending) = table.explore targets order seen pending := by
  rw [explore, dif_pos visited]

theorem exploreMissing (fresh : ¬ seen.contains k = true) (missing : table.find? k = none) :
    table.explore targets order seen (k :: pending) = table.explore targets order seen pending := by
  rw [explore, dif_neg fresh]
  split
  · rfl
  · next a found =>
    rw [missing] at found
    cases found

theorem exploreFound {a : α} (fresh : ¬ seen.contains k = true) (found : table.find? k = some a) :
    table.explore targets order seen (k :: pending) =
      table.explore targets order (seen.insert a) (order.enqueue (targets a) pending) := by
  rw [explore, dif_neg fresh]
  split
  · next missing =>
    rw [missing] at found
    cases found
  · next b foundToo =>
    rw [foundToo] at found
    cases found
    rfl

theorem exploreAgree {other : OrderedSet key}
    (agree : ∀ k ∈ pending, ∀ l, ReflTransGen (table.Leads targets) k l → table.find? l = other.find? l) :
    table.explore targets order seen pending = other.explore targets order seen pending := by
  fun_induction table.explore targets order seen pending with
  | case1 seen => rw [explore]
  | case2 seen k pending visited ih =>
      rw [exploreVisited visited]
      exact ih fun l waits => agree l (List.mem_cons_of_mem _ waits)
  | case3 seen k pending fresh missing ih =>
      rw [exploreMissing fresh ((agree k (List.mem_cons_self ..) k .refl).symm.trans missing)]
      exact ih fun l waits => agree l (List.mem_cons_of_mem _ waits)
  | case4 seen k pending fresh a found ih =>
      rw [exploreFound fresh ((agree k (List.mem_cons_self ..) k .refl).symm.trans found)]
      refine ih fun l waits m path => ?_
      rcases Order.memEnqueue.1 waits with next | later
      · exact agree k (List.mem_cons_self ..) m (.head ⟨a, found, next⟩ path)
      · exact agree l (List.mem_cons_of_mem _ later) m path

end Exploring
end MetadataIndex.OrderedSet
