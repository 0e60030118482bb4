import MetadataIndex.Snapshot
import Mathlib.Data.List.Basic

/-! The snapshot cache along a run of calls, among callers that keep, share and drop what they are
given. A session follows beside the cache which snapshot was built last and not invalidated since, all
that were ever built, and how often a builder ran. What an access does is told from these and from who
still holds a snapshot, without the handles of the cache: the weak one always names the snapshot built
last, and the strong one, if any, the same. -/
namespace MetadataIndex

namespace SnapshotCache
variable {α : Type} {c after : SnapshotCache α} {s t : Snapshot α} {slot other : String} {generation later : Nat}

def Held (c : SnapshotCache α) (s : Snapshot α) : Prop := c.strong = some s ∨ ∃ slot, c.heldIn slot = some s

def keep (c : SnapshotCache α) (slot : Option String) (s : Snapshot α) : SnapshotCache α :=
  match slot with
  | none => c
  | some slot => c.hold slot s

def retained (c : SnapshotCache α) (s : Snapshot α) : SnapshotCache α :=
  if c.retain && c.strong.isNone then { c with strong := some s } else c

theorem heldMember (held : c.heldIn slot = some s) : (slot, s) ∈ c.held := by
  obtain ⟨before, after, whole, _⟩ := List.lookup_eq_some_iff.1 held
  exact whole ▸ List.mem_append_right _ (List.mem_cons_self ..)

theorem dropApart (apart : other ≠ slot) : (c.drop slot).heldIn other = c.heldIn other := by
  change (c.held.filter _).lookup other = c.held.lookup other
  induction c.held with
  | nil => rfl
  | cons entry rest ih =>
      by_cases same : entry.1 = slot
      · have differs : (other == entry.1) = false := beq_eq_false_iff_ne.2 fun equal => apart (equal.trans same)
        rw [List.filter_cons_of_neg (by simpa using same), ih, List.lookup_cons, differs]
      · rw [List.filter_cons_of_pos (by simpa using same), List.lookup_cons, List.lookup_cons, ih]

theorem dropHeld (held : (c.drop slot).heldIn other = some s) : c.heldIn other = some s := by
  have apart : other ≠ slot := of_decide_eq_true (List.mem_filter.1 (heldMember held)).2
  exact (dropApart apart).symm.trans held

theorem holdHere : (c.hold slot s).heldIn slot = some s := by
  change ((slot, s) :: (c.drop slot).held).lookup slot = some s
  rw [List.lookup_cons, beq_self_eq_true]

theorem holdApart (apart : other ≠ slot) : (c.hold slot s).heldIn other = c.heldIn other := by
  have dropped : (c.drop slot).heldIn other = c.heldIn other := dropApart apart
  rw [← dropped]
  change ((slot, s) :: (c.drop slot).held).lookup other = (c.drop slot).held.lookup other
  rw [List.lookup_cons, beq_eq_false_iff_ne.2 apart]

theorem keepApart {target : Option String} (apart : target ≠ some slot) :
    (c.keep target s).heldIn slot = c.heldIn slot := by
  cases target with
  | none => rfl
  | some name => exact holdApart fun same => apart (congrArg some same.symm)

def Readable (c : SnapshotCache α) : Prop := ∀ slot s, (slot, s) ∈ c.held → c.heldIn slot = some s

theorem readableDrop (readable : c.Readable) : (c.drop slot).Readable := by
  intro other s member
  obtain ⟨inside, apart⟩ := List.mem_filter.1 member
  rw [dropApart (of_decide_eq_true apart)]
  exact readable other s inside

theorem readableHold (readable : c.Readable) : (c.hold slot s).Readable := by
  intro other t member
  rcases List.mem_cons.1 member with same | inside
  · cases same
    exact holdHere
  · have apart : other ≠ slot := of_decide_eq_true (List.mem_filter.1 inside).2
    rw [holdApart apart]
    exact readable other t (List.mem_filter.1 inside).1

theorem reuseRecent (peeked : c.peek = some s) (recent : generation ≤ s.generation) :
    c.reuse? generation = some (s, c.retained s) := by
  rw [reuse?, peeked]
  exact if_pos recent

theorem reuseNone (older : ∀ s, c.peek = some s → s.generation < generation) : c.reuse? generation = none := by
  unfold reuse?
  split
  · rfl
  · next s peeked => exact if_neg (Nat.not_le.2 (older s peeked))

theorem reuseWeak (reused : c.reuse? generation = some (s, after)) :
    c.weak = some s ∧ generation ≤ s.generation ∧ after.weak = c.weak ∧ after.built = c.built := by
  unfold reuse? at reused
  split at reused
  · cases reused
  · next t found =>
    split at reused
    · next recent =>
      cases reused
      refine ⟨(Option.filter_eq_some_iff.1 found).1, recent, ?_⟩
      split <;> exact ⟨rfl, rfl⟩
    · cases reused

section Access
variable {ε σ : Type} {build : σ → Except ε (Nat × α) × σ} {state next : σ} {content : α} {e : ε}

theorem accessReused (reused : c.reuse? generation = some (s, after)) :
    c.getOrBuild generation build state = (.ok (s, false), after, state) := by
  rw [getOrBuild, reused]

theorem accessFailed (unused : c.reuse? generation = none) (failed : build state = (.error e, next)) :
    c.getOrBuild generation build state = (.error e, c, next) := by
  rw [getOrBuild, unused]
  simp only [failed]

theorem accessBuilt (unused : c.reuse? generation = none) (made : build state = (.ok (later, content), next)) :
    c.getOrBuild generation build state =
      (.ok ((c.install later content).1, true), (c.install later content).2, next) := by
  rw [getOrBuild, unused]
  simp only [made]

end Access
end SnapshotCache

abbrev Builder (σ ε α : Type) := σ → Except ε (Nat × α) × σ

structure Session (σ α : Type) where
  cache : SnapshotCache α
  world : σ
  runs : Nat := 0
  latest : Option (Snapshot α) := none
  made : List (Snapshot α) := []

namespace Session
variable {σ ε α : Type} {s : Session σ α} {t u : Snapshot α} {retain : Bool} {generation later : Nat}
  {build : Builder σ ε α} {slot : String} {content : α} {e : ε}

inductive Call (σ ε α : Type)
  | access (generation : Nat) (build : Builder σ ε α) (slot : Option String)
  | peek (slot : Option String)
  | share (source slot : String)
  | drop (slot : String)
  | release
  | invalidate

def Call.Writes (slot : String) : Call σ ε α → Prop
  | .access _ _ target | .peek target => target = some slot
  | .share _ target | .drop target => target = slot
  | .release | .invalidate => False

def counted (build : Builder σ ε α) : Builder (σ × Nat) ε α := fun state =>
  ((build state.1).1, (build state.1).2, state.2 + 1)

def access (s : Session σ α) (generation : Nat) (build : Builder σ ε α) :
    Except ε (Snapshot α) × Session σ α :=
  match s.cache.getOrBuild generation (counted build) (s.world, s.runs) with
  | (.error e, cache, world, runs) => (.error e, { s with cache, world, runs })
  | (.ok (t, _), cache, world, runs) =>
      if runs = s.runs then (.ok t, { s with cache, world, runs })
      else (.ok t, { s with cache, world, runs, latest := some t, made := t :: s.made })

def extended (s : Session σ α) (world : σ) (generation : Nat) (content : α) : Session σ α where
  cache := (s.cache.install generation content).2
  world := world
  runs := s.runs + 1
  latest := some (s.cache.install generation content).1
  made := (s.cache.install generation content).1 :: s.made

def give (s : Session σ α) (slot : Option String) (t : Snapshot α) : Session σ α :=
  { s with cache := s.cache.keep slot t }

def perform (s : Session σ α) : Call σ ε α → Session σ α
  | .access generation build slot =>
      match s.access generation build with
      | (.ok t, after) => after.give slot t
      | (.error _, after) => after
  | .peek slot => s.cache.peek.elim s (s.give slot)
  | .share source slot => (s.cache.heldIn source).elim s (s.give (some slot))
  | .drop slot => { s with cache := s.cache.drop slot }
  | .release => { s with cache := s.cache.release }
  | .invalidate => { s with cache := s.cache.invalidate, latest := none }

def run (s : Session σ α) (calls : List (Call σ ε α)) : Session σ α := calls.foldl perform s

def started (retain : Bool) (world : σ) : Session σ α := { cache := { retain }, world }

structure Reusable (s : Session σ α) (generation : Nat) (t : Snapshot α) : Prop where
  latest : s.latest = some t
  held : s.cache.Held t
  recent : generation ≤ t.generation

structure Serves (ε : Type) (retain : Bool) (s : Session σ α) : Prop where
  strong : ∀ t, s.cache.strong = some t → s.cache.weak = some t ∧ retain = true
  peeked : ∀ t, s.cache.peek = some t ↔ s.latest = some t ∧ s.cache.Held t
  reused : ∀ generation (build : Builder σ ε α) t, s.Reusable generation t →
    (s.access generation build).1 = .ok t ∧ (s.access generation build).2.runs = s.runs ∧
      (s.access generation build).2.world = s.world
  ran : ∀ generation (build : Builder σ ε α), (∀ t, ¬ s.Reusable generation t) →
    (s.access generation build).1.map (fun t => (t.generation, t.content)) = (build s.world).1 ∧
      (s.access generation build).2.runs = s.runs + 1 ∧ (s.access generation build).2.world = (build s.world).2
  succeeded : ∀ generation (build : Builder σ ε α) t, (s.access generation build).1 = .ok t →
    (s.access generation build).2.latest = some t ∧
      (s.access generation build).2.cache.strong = if retain then some t else none
  failed : ∀ generation (build : Builder σ ε α) e, (s.access generation build).1 = .error e →
    (s.access generation build).2.cache = s.cache ∧ (s.access generation build).2.latest = s.latest
  made : ∀ t, s.latest = some t ∨ s.cache.Held t → t ∈ s.made
  kept : ∀ slot t (calls : List (Call σ ε α)), s.cache.heldIn slot = some t →
    (∀ call ∈ calls, ¬ call.Writes slot) → (s.run calls).cache.heldIn slot = some t
  unaltered : ∀ (calls : List (Call σ ε α)), ∀ t ∈ s.made, t ∈ (s.run calls).made ∧
    ∀ u ∈ (s.run calls).made, u.serial = t.serial → u = t

structure Sound (retain : Bool) (s : Session σ α) : Prop where
  retention : s.cache.retain = retain
  weak : s.cache.weak = s.latest
  strong : ∀ t, s.cache.strong = some t → s.latest = some t ∧ retain = true
  latest : ∀ t, s.latest = some t → t ∈ s.made
  readable : s.cache.Readable
  held : ∀ slot t, s.cache.heldIn slot = some t → t ∈ s.made
  earlier : ∀ t ∈ s.made, t.serial < s.cache.built
  apart : ∀ t ∈ s.made, ∀ u ∈ s.made, u.serial = t.serial → u = t

theorem soundStarted (world : σ) : (started retain world : Session σ α).Sound retain where
  retention := rfl
  weak := rfl
  strong := fun _ found => nomatch found
  latest := fun _ found => nomatch found
  readable := fun _ _ member => nomatch member
  held := fun _ _ found => nomatch found
  earlier := fun _ member => nomatch member
  apart := fun _ member => nomatch member

section Looking
variable (sound : s.Sound retain)
include sound

theorem heldMade (held : s.cache.Held t) : t ∈ s.made := by
  rcases held with strong | ⟨slot, kept⟩
  · exact sound.latest t (sound.strong t strong).1
  · exact sound.held slot t kept

-- the cache compares serials, which tell apart the snapshots ever made
theorem aliveIff (member : t ∈ s.made) : s.cache.alive t = true ↔ s.cache.Held t := by
  unfold SnapshotCache.alive
  rw [Bool.or_eq_true, Option.any_eq_true, List.any_eq_true]
  constructor
  · rintro (⟨u, found, same⟩ | ⟨⟨slot, u⟩, inside, same⟩)
    · have equal := sound.apart t member u (heldMade sound (.inl found)) (of_decide_eq_true same)
      exact .inl (equal ▸ found)
    · have found := sound.readable slot u inside
      have equal := sound.apart t member u (sound.held slot u found) (of_decide_eq_true same)
      exact .inr ⟨slot, equal ▸ found⟩
  · rintro (strong | ⟨slot, kept⟩)
    · exact .inl ⟨t, strong, decide_eq_true rfl⟩
    · exact .inr ⟨(slot, t), SnapshotCache.heldMember kept, decide_eq_true rfl⟩

theorem peekIff : s.cache.peek = some t ↔ s.latest = some t ∧ s.cache.Held t := by
  rw [SnapshotCache.peek, Option.filter_eq_some_iff, sound.weak]
  exact and_congr_right fun latest => aliveIff sound (sound.latest t latest)

-- keeping the reused snapshot strongly is all that a reuse can change
theorem retainedEq (latest : s.latest = some t) :
    s.cache.retained t = { s.cache with strong := if retain then some t else none } := by
  have unchanged : ∀ {strong}, s.cache.strong = strong → { s.cache with strong } = s.cache :=
    fun found => found ▸ rfl
  unfold SnapshotCache.retained
  cases found : s.cache.strong with
  | none =>
      cases retain with
      | false =>
          have weakly : (s.cache.retain && (none : Option (Snapshot α)).isNone) = false := by
            rw [sound.retention, Bool.false_and]
          rw [if_neg (Bool.eq_false_iff.1 weakly)]
          exact (unchanged found).symm
      | true =>
          have strongly : (s.cache.retain && (none : Option (Snapshot α)).isNone) = true := by
            rw [sound.retention, Option.isNone_none, Bool.true_and]
          rw [if_pos strongly, if_pos rfl]
  | some u =>
      obtain ⟨same, retains⟩ := sound.strong u found
      cases latest.symm.trans same
      rw [Option.isNone_some, Bool.and_false, if_neg Bool.false_ne_true, if_pos retains]
      exact (unchanged found).symm

end Looking

section Accessing
variable (sound : s.Sound retain)
include sound

theorem accessReusable (reusable : s.Reusable generation t) : s.access generation build =
    (.ok t, { s with cache := { s.cache with strong := if retain then some t else none } }) := by
  have reused := SnapshotCache.reuseRecent ((peekIff sound).2 ⟨reusable.latest, reusable.held⟩) reusable.recent
  rw [access, SnapshotCache.accessReused reused, retainedEq sound reusable.latest]
  exact if_pos rfl

variable (unfit : ∀ t, ¬ s.Reusable generation t)
include unfit

theorem reuseUnfit : s.cache.reuse? generation = none := by
  refine SnapshotCache.reuseNone fun t peeked => Nat.lt_of_not_le fun recent => unfit t ?_
  obtain ⟨latest, held⟩ := (peekIff sound).1 peeked
  exact ⟨latest, held, recent⟩

theorem accessFailing (failed : (build s.world).1 = .error e) :
    s.access generation build = (.error e, { s with world := (build s.world).2, runs := s.runs + 1 }) := by
  have counts : counted build (s.world, s.runs) = (.error e, (build s.world).2, s.runs + 1) := by
    rw [counted, failed]
  rw [access, SnapshotCache.accessFailed (reuseUnfit sound unfit) counts]

theorem accessMaking (made : (build s.world).1 = .ok (later, content)) : s.access generation build =
    (.ok (s.cache.install later content).1, s.extended (build s.world).2 later content) := by
  have counts : counted build (s.world, s.runs) = (.ok (later, content), (build s.world).2, s.runs + 1) := by
    rw [counted, made]
  rw [access, SnapshotCache.accessBuilt (reuseUnfit sound unfit) counts]
  exact if_neg (Nat.succ_ne_self _)

end Accessing

theorem accessCases (sound : s.Sound retain) (generation : Nat) (build : Builder σ ε α) :
    (∃ t, s.latest = some t ∧ s.access generation build =
      (.ok t, { s with cache := { s.cache with strong := if retain then some t else none } })) ∨
    (∃ e, s.access generation build =
      (.error e, { s with world := (build s.world).2, runs := s.runs + 1 })) ∨
    ∃ later content, s.access generation build =
      (.ok (s.cache.install later content).1, s.extended (build s.world).2 later content) := by
  by_cases reusable : ∃ t, s.Reusable generation t
  · obtain ⟨t, reusable⟩ := reusable
    exact .inl ⟨t, reusable.latest, accessReusable sound reusable⟩
  · have unfit := not_exists.1 reusable
    cases outcome : (build s.world).1 with
    | error e => exact .inr (.inl ⟨e, accessFailing sound unfit outcome⟩)
    | ok made => exact .inr (.inr ⟨made.1, made.2, accessMaking sound unfit outcome⟩)

section Steps
variable (sound : s.Sound retain)
include sound

theorem soundStrong {strong : Option (Snapshot α)}
    (named : ∀ t, strong = some t → s.latest = some t ∧ retain = true) :
    Sound retain { s with cache := { s.cache with strong } } :=
  { sound with strong := named }

theorem soundExtended (world : σ) : (s.extended world later content).Sound retain where
  retention := sound.retention
  weak := rfl
  strong := by
    intro t found
    change (if s.cache.retain then some _ else none) = some t at found
    rw [sound.retention] at found
    cases retain with
    | false => cases found
    | true => exact ⟨found, rfl⟩
  latest := fun t found => Option.some.inj found ▸ List.mem_cons_self ..
  readable := sound.readable
  held := fun slot t found => List.mem_cons_of_mem _ (sound.held slot t found)
  earlier := by
    intro t member
    rcases List.mem_cons.1 member with rfl | old
    · exact Nat.lt_succ_self _
    · exact Nat.lt_succ_of_lt (sound.earlier t old)
  apart := by
    -- the serial of the new snapshot is above all those given before
    intro t first u second same
    rcases List.mem_cons.1 first with rfl | old
    · rcases List.mem_cons.1 second with rfl | older
      · rfl
      · exact absurd same (Nat.ne_of_lt (sound.earlier u older))
    · rcases List.mem_cons.1 second with rfl | older
      · exact absurd same.symm (Nat.ne_of_lt (sound.earlier t old))
      · exact sound.apart t old u older same

theorem soundAccess (generation : Nat) (build : Builder σ ε α) : (s.access generation build).2.Sound retain := by
  rcases accessCases sound generation build with ⟨t, latest, done⟩ | ⟨e, done⟩ | ⟨later, content, done⟩
  · rw [done]
    refine soundStrong sound fun u found => ?_
    cases retain with
    | false => cases found
    | true => exact ⟨Option.some.inj found ▸ latest, rfl⟩
  · rw [done]
    exact { sound with }
  · rw [done]
    exact soundExtended sound _

theorem soundGive (target : Option String) (member : t ∈ s.made) : (s.give target t).Sound retain := by
  cases target with
  | none => exact sound
  | some slot =>
      refine { sound with readable := SnapshotCache.readableHold sound.readable, held := fun other u found => ?_ }
      by_cases same : other = slot
      · subst same
        cases SnapshotCache.holdHere.symm.trans found
        exact member
      · exact sound.held other u ((SnapshotCache.holdApart same).symm.trans found)

theorem soundDrop (slot : String) : Sound retain { s with cache := s.cache.drop slot } :=
  { sound with
    readable := SnapshotCache.readableDrop sound.readable
    held := fun other t found => sound.held other t (SnapshotCache.dropHeld found) }

theorem soundPerform (call : Call σ ε α) : (s.perform call).Sound retain := by
  cases call with
  | access generation build slot =>
      have after := soundAccess sound generation build
      rcases accessCases sound generation build with ⟨t, latest, done⟩ | ⟨e, done⟩ | ⟨later, content, done⟩
      · rw [perform, done]
        rw [done] at after
        exact soundGive after slot (sound.latest t latest)
      · rw [perform, done]
        rw [done] at after
        exact after
      · rw [perform, done]
        rw [done] at after
        exact soundGive after slot (List.mem_cons_self ..)
  | peek slot =>
      rw [perform]
      cases peeked : s.cache.peek with
      | none => exact sound
      | some t => exact soundGive sound slot (sound.latest t ((peekIff sound).1 peeked).1)
  | share source slot =>
      rw [perform]
      cases found : s.cache.heldIn source with
      | none => exact sound
      | some t => exact soundGive sound (some slot) (sound.held source t found)
  | drop slot => exact soundDrop sound slot
  | release => exact soundStrong sound fun _ found => nomatch found
  | invalidate =>
      exact
        { sound with
          weak := rfl
          strong := fun _ found => nomatch found
          latest := fun _ found => nomatch found }

end Steps

theorem soundRun (sound : s.Sound retain) (calls : List (Call σ ε α)) : (s.run calls).Sound retain := by
  induction calls generalizing s with
  | nil => exact sound
  | cons call rest ih => exact ih (soundPerform sound call)

theorem madeAccess (sound : s.Sound retain) (generation : Nat) (build : Builder σ ε α) (member : t ∈ s.made) :
    t ∈ (s.access generation build).2.made := by
  rcases accessCases sound generation build with ⟨u, _, done⟩ | ⟨e, done⟩ | ⟨later, content, done⟩
  · rwa [done]
  · rwa [done]
  · rw [done]
    exact List.mem_cons_of_mem _ member

theorem madePerform (sound : s.Sound retain) (call : Call σ ε α) (member : t ∈ s.made) :
    t ∈ (s.perform call).made := by
  cases call with
  | access generation build slot =>
      have stays := madeAccess sound generation build member
      rw [perform]
      split <;> next done => rwa [done] at stays
  | peek slot =>
      rw [perform]
      cases s.cache.peek <;> exact member
  | share source slot =>
      rw [perform]
      cases s.cache.heldIn source <;> exact member
  | drop _ | release | invalidate => exact member

theorem madeRun (sound : s.Sound retain) (calls : List (Call σ ε α)) (member : t ∈ s.made) :
    t ∈ (s.run calls).made := by
  induction calls generalizing s with
  | nil => exact member
  | cons call rest ih => exact ih (soundPerform sound call) (madePerform sound call member)

theorem accessHeld (sound : s.Sound retain) (generation : Nat) (build : Builder σ ε α) :
    (s.access generation build).2.cache.heldIn slot = s.cache.heldIn slot := by
  rcases accessCases sound generation build with ⟨u, _, done⟩ | ⟨e, done⟩ | ⟨later, content, done⟩ <;>
    rw [done] <;> rfl

theorem keptPerform (sound : s.Sound retain) {call : Call σ ε α} (apart : ¬ call.Writes slot) :
    (s.perform call).cache.heldIn slot = s.cache.heldIn slot := by
  cases call with
  | access generation build target =>
      have stays : _ = s.cache.heldIn slot := accessHeld sound generation build
      rw [perform]
      split
      · next done =>
          rw [done] at stays
          exact (SnapshotCache.keepApart apart).trans stays
      · next done =>
          rw [done] at stays
          exact stays
  | peek target =>
      rw [perform]
      cases s.cache.peek with
      | none => rfl
      | some t => exact SnapshotCache.keepApart apart
  | share source target =>
      rw [perform]
      cases s.cache.heldIn source with
      | none => rfl
      | some t => exact SnapshotCache.keepApart fun same => apart (Option.some.inj same)
  | drop target => exact SnapshotCache.dropApart fun same => apart same.symm
  | release | invalidate => rfl

theorem keptRun (sound : s.Sound retain) {calls : List (Call σ ε α)}
    (apart : ∀ call ∈ calls, ¬ call.Writes slot) :
    (s.run calls).cache.heldIn slot = s.cache.heldIn slot := by
  induction calls generalizing s with
  | nil => rfl
  | cons call rest ih =>
      exact (ih (soundPerform sound call) fun other member => apart other (List.mem_cons_of_mem _ member)).trans
        (keptPerform sound (apart call (List.mem_cons_self ..)))

theorem soundServes (sound : s.Sound retain) : s.Serves ε retain where
  strong := by
    intro t found
    obtain ⟨latest, retains⟩ := sound.strong t found
    exact ⟨sound.weak.trans latest, retains⟩
  peeked := fun t => peekIff sound
  reused := by
    intro generation build t reusable
    rw [accessReusable sound reusable]
    exact ⟨rfl, rfl, rfl⟩
  ran := by
    intro generation build unfit
    cases outcome : (build s.world).1 with
    | error e =>
        rw [accessFailing sound unfit outcome]
        exact ⟨rfl, rfl, rfl⟩
    | ok made =>
        rw [accessMaking sound unfit outcome]
        exact ⟨rfl, rfl, rfl⟩
  succeeded := by
    intro generation build t answered
    rcases accessCases sound generation build with ⟨u, latest, done⟩ | ⟨e, done⟩ | ⟨later, content, done⟩
    · rw [done] at answered ⊢
      cases answered
      exact ⟨latest, rfl⟩
    · rw [done] at answered
      cases answered
    · rw [done] at answered ⊢
      cases answered
      exact ⟨rfl, congrArg (fun retain => if retain = true then some _ else none) sound.retention⟩
  failed := by
    intro generation build e answered
    rcases accessCases sound generation build with ⟨u, _, done⟩ | ⟨e, done⟩ | ⟨later, content, done⟩
    · rw [done] at answered
      cases answered
    · rw [done]
      exact ⟨rfl, rfl⟩
    · rw [done] at answered
      cases answered
  made := fun t known => known.elim (sound.latest t) (heldMade sound)
  kept := fun slot t calls found apart => (keptRun sound apart).trans found
  unaltered := by
    intro calls t member
    have still := madeRun sound calls member
    exact ⟨still, (soundRun sound calls).apart t still⟩

theorem sessionServes (retain : Bool) (world : σ) (calls : List (Call σ ε α)) :
    ((started retain world).run calls).Serves ε retain :=
  soundServes (soundRun (soundStarted world) calls)

end Session
end MetadataIndex
