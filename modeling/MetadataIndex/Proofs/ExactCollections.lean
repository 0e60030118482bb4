import MetadataIndex.Proofs.BoundInstances
import MetadataIndex.Proofs.CollectOutcomes

/-! Collections told without limits and without the order of tables. Calls in sequence all succeed exactly
when each marked declaration carries its key and the walks that are made for it end. What they hold then is
one instance for each declaration and accepted type, and as many values were made as instances bound. A view
holds the same instances, parted by type, in whatever order its marker table gives the markers. -/
namespace MetadataIndex
open Std
variable {φ : Type}

def Universe.Decides (u : Universe φ) (type target : TypeName) : Prop :=
  ∃ limit answer, u.assignable? limit type ⟨target, []⟩ = some answer

namespace Materializer
variable {u : Universe φ} {limit : Nat} {type key query : TypeName} {answer : Bool} {a : Attachment φ}
  {as before after : List (Attachment φ)} {d : Declaration φ} {ds : List (Declaration φ)} {calls : List (CollectCall φ)}
  {picks : OrderedSet (@Pick.id φ)} {t : Tally} {place : Nat} {instances : List (Instance φ)}

theorem assignableEq :
    (⟨u, limit⟩ : Materializer φ).assignable type key = .ok answer ↔
      u.assignable? limit type ⟨key, []⟩ = some answer := by
  unfold assignable
  constructor
  · intro ok
    split at ok
    · cases ok
    · next found decided =>
      cases ok
      exact decided
  · intro decided
    simp only [decided]

theorem assignableLonger (ok : (⟨u, limit⟩ : Materializer φ).assignable type key = .ok answer) (extra : Nat) :
    (⟨u, limit + extra⟩ : Materializer φ).assignable type key = .ok answer :=
  assignableEq.2 (Universe.assignableMore (assignableEq.1 ok) extra)

theorem carriesLonger (ok : (⟨u, limit⟩ : Materializer φ).carries key as = .ok answer) (extra : Nat) :
    (⟨u, limit + extra⟩ : Materializer φ).carries key as = .ok answer := by
  induction as with
  | nil => exact ok
  | cons a rest ih =>
      rw [carries] at ok ⊢
      cases first : (⟨u, limit⟩ : Materializer φ).assignable a.type key with
      | error e =>
          rw [first] at ok
          cases ok
      | ok fits =>
          rw [first] at ok
          rw [assignableLonger first extra]
          cases fits with
          | true => exact ok
          | false => exact ih ok

theorem readyLonger (ready : (⟨u, limit⟩ : Materializer φ).Ready key query d) (extra : Nat) :
    (⟨u, limit + extra⟩ : Materializer φ).Ready key query d where
  carries := carriesLonger ready.carries extra
  decided := by
    intro a attached
    obtain ⟨answer, ok⟩ := ready.decided a attached
    exact ⟨answer, assignableLonger ok extra⟩

structure Ended (u : Universe φ) (key query : TypeName) (d : Declaration φ) : Prop where
  carries : ∀ before a after, d.attachments = before ++ a :: after →
    (∀ b ∈ before, ¬ u.AssignableTo b.type ⟨key, []⟩) → u.Decides a.type key
  picks : ∀ a ∈ d.attachments, u.Decides a.type query

theorem carriesDecides (ok : (⟨u, limit⟩ : Materializer φ).carries key as = .ok answer)
    (whole : as = before ++ a :: after) (unfit : ∀ b ∈ before, ¬ u.AssignableTo b.type ⟨key, []⟩) :
    u.Decides a.type key := by
  induction before generalizing as with
  | nil =>
      subst whole
      rw [List.nil_append, carries] at ok
      cases first : (⟨u, limit⟩ : Materializer φ).assignable a.type key with
      | error e =>
          rw [first] at ok
          cases ok
      | ok fits => exact ⟨limit, fits, assignableEq.1 first⟩
  | cons b rest ih =>
      subst whole
      rw [List.cons_append, carries] at ok
      have refused : ¬ u.AssignableTo b.type ⟨key, []⟩ := unfit b (List.mem_cons_self ..)
      cases first : (⟨u, limit⟩ : Materializer φ).assignable b.type key with
      | error e =>
          rw [first] at ok
          cases ok
      | ok fits =>
          rw [first] at ok
          cases fits with
          | true => exact absurd ((assignableOk first).1 rfl) refused
          | false => exact ih ok rfl fun c member => unfit c (List.mem_cons_of_mem _ member)

theorem carriesSome (carried : ∃ a ∈ as, u.AssignableTo a.type ⟨key, []⟩)
    (ends : ∀ before a after, as = before ++ a :: after →
      (∀ b ∈ before, ¬ u.AssignableTo b.type ⟨key, []⟩) → u.Decides a.type key) :
    ∃ limit, (⟨u, limit⟩ : Materializer φ).carries key as = .ok true := by
  induction as with
  | nil => simp at carried
  | cons a rest ih =>
      obtain ⟨limit, fits, decided⟩ := ends [] a rest rfl (by simp)
      cases fits with
      | true => exact ⟨limit, by rw [carries, assignableEq.2 decided]⟩
      | false =>
          have refused : ¬ u.AssignableTo a.type ⟨key, []⟩ := fun above =>
            Bool.false_ne_true ((Universe.assignableIff decided).2 above)
          obtain ⟨b, member, above⟩ := carried
          have later : ∃ b ∈ rest, u.AssignableTo b.type ⟨key, []⟩ := by
            rcases List.mem_cons.1 member with same | inside
            · exact absurd (same ▸ above) refused
            · exact ⟨b, inside, above⟩
          obtain ⟨longer, ok⟩ := ih later fun before c after whole unfit =>
            ends (a :: before) c after (by rw [whole, List.cons_append]) (List.forall_mem_cons.2 ⟨refused, unfit⟩)
          refine ⟨limit + longer, ?_⟩
          rw [carries, assignableLonger (assignableEq.2 decided) longer]
          exact Nat.add_comm longer limit ▸ carriesLonger ok limit

theorem readySome :
    (∃ limit, (⟨u, limit⟩ : Materializer φ).Ready key query d) ↔ Carries u key d ∧ Ended u key query d := by
  constructor
  · intro ⟨limit, carried, decided⟩
    refine ⟨(carriesOk carried).1 rfl, fun _ _ _ => carriesDecides carried, fun a attached => ?_⟩
    obtain ⟨answer, ok⟩ := decided a attached
    exact ⟨limit, answer, assignableEq.1 ok⟩
  · intro ⟨carried, ends⟩
    obtain ⟨limit, found⟩ := carriesSome carried ends.carries
    have each : ∀ a ∈ d.attachments, ∃ limit answer,
        (⟨u, limit⟩ : Materializer φ).assignable a.type query = .ok answer := by
      intro a attached
      obtain ⟨limit, answer, decided⟩ := ends.picks a attached
      exact ⟨limit, answer, assignableEq.2 decided⟩
    obtain ⟨more, decided⟩ := commonLimit (fun ⟨answer, ok⟩ extra => ⟨answer, assignableLonger ok extra⟩) each
    refine ⟨limit + more, carriesLonger found more, fun a attached => ?_⟩
    obtain ⟨answer, ok⟩ := decided a attached
    exact ⟨answer, Nat.add_comm more limit ▸ assignableLonger ok limit⟩

theorem collectSome :
    (∃ limit t instances, ((⟨u, limit⟩ : Materializer φ).collect calls t).1 = .ok instances) ↔
      ∀ call ∈ calls, ∀ d ∈ call.marked, Carries u call.key d ∧ Ended u call.key call.query d := by
  constructor
  · intro ⟨limit, t, done⟩ call member d marked
    exact readySome.1 ⟨limit, collectDone.1 done call member d marked⟩
  · intro each
    have callwise : ∀ call ∈ calls, ∃ limit, ∀ d ∈ call.marked,
        (⟨u, limit⟩ : Materializer φ).Ready call.key call.query d :=
      fun call member => commonLimit readyLonger fun d marked => readySome.2 (each call member d marked)
    obtain ⟨limit, ready⟩ := commonLimit (fun all extra d marked => readyLonger (all d marked) extra) callwise
    exact ⟨limit, {}, collectDone.2 ready⟩

theorem collectSufficed (enough : u.Suffices limit) :
    (∃ instances, ((⟨u, limit⟩ : Materializer φ).collect calls t).1 = .ok instances) ↔ Sound u calls := by
  refine ⟨fun ⟨_, ok⟩ => collectSound ok, fun sound => ?_⟩
  cases outcome : ((⟨u, limit⟩ : Materializer φ).collect calls t).1 with
  | ok instances => exact ⟨instances, rfl⟩
  | error e =>
      have contradicts : Contradicts u calls e := collectContradicts enough outcome
      exact absurd contradicts (soundAgrees sound)

theorem pickAttachmentsLonger (ok : ((⟨u, limit⟩ : Materializer φ).pickAttachments query d picks as).2 = .ok ())
    (extra : Nat) : (⟨u, limit + extra⟩ : Materializer φ).pickAttachments query d picks as =
      (⟨u, limit⟩ : Materializer φ).pickAttachments query d picks as := by
  induction as generalizing picks with
  | nil => rfl
  | cons a rest ih =>
      rw [pickAttachments] at ok ⊢
      rw [pickAttachments]
      cases first : (⟨u, limit⟩ : Materializer φ).assignable a.type query with
      | error e =>
          rw [first] at ok
          cases ok
      | ok fits =>
          rw [first] at ok
          rw [assignableLonger first extra]
          cases fits with
          | true => exact ih ok
          | false => exact ih ok

theorem pickDeclarationsLonger (ok : ((⟨u, limit⟩ : Materializer φ).pickDeclarations key query picks ds).2 = .ok ())
    (extra : Nat) : (⟨u, limit + extra⟩ : Materializer φ).pickDeclarations key query picks ds =
      (⟨u, limit⟩ : Materializer φ).pickDeclarations key query picks ds := by
  induction ds generalizing picks with
  | nil => rfl
  | cons d rest ih =>
      have ready := pickDeclarationsDone.1 ok d (List.mem_cons_self ..)
      have attached : ((⟨u, limit⟩ : Materializer φ).pickAttachments query d picks d.attachments).2 = .ok () :=
        pickAttachmentsDone.2 ready.decided
      rw [pickDeclarations, ready.carries] at ok
      rw [pickDeclarations, pickDeclarations, ready.carries, carriesLonger ready.carries extra,
        pickAttachmentsLonger attached extra]
      cases outcome : (⟨u, limit⟩ : Materializer φ).pickAttachments query d picks d.attachments with
      | mk next result =>
          rw [outcome] at ok attached
          subst attached
          exact ih ok

theorem pickCallsLonger (ok : ((⟨u, limit⟩ : Materializer φ).pickCalls picks calls).2 = .ok ()) (extra : Nat) :
    (⟨u, limit + extra⟩ : Materializer φ).pickCalls picks calls =
      (⟨u, limit⟩ : Materializer φ).pickCalls picks calls := by
  induction calls generalizing picks with
  | nil => rfl
  | cons call rest ih =>
      have declared :
          ((⟨u, limit⟩ : Materializer φ).pickDeclarations call.key call.query picks call.marked).2 = .ok () :=
        pickDeclarationsDone.2 (pickCallsDone.1 ok call (List.mem_cons_self ..))
      rw [pickCalls] at ok
      rw [pickCalls, pickCalls, pickDeclarationsLonger declared extra]
      cases outcome : (⟨u, limit⟩ : Materializer φ).pickDeclarations call.key call.query picks call.marked with
      | mk next result =>
          rw [outcome] at ok declared
          subst declared
          exact ih ok

theorem collectLonger (ok : ((⟨u, limit⟩ : Materializer φ).collect calls t).1 = .ok instances) (extra : Nat) :
    (⟨u, limit + extra⟩ : Materializer φ).collect calls t = (⟨u, limit⟩ : Materializer φ).collect calls t := by
  have picked : ((⟨u, limit⟩ : Materializer φ).pickCalls ∅ calls).2 = .ok () :=
    pickCallsDone.2 (collectDone.1 ⟨instances, ok⟩)
  rw [collect, collect, pickCallsLonger picked extra]

theorem bindAllPlaces (picked : List (Attachment φ × Declaration φ)) (t : Tally) :
    (Instance.bindAll picked t).2.count place =
      t.count place + picked.countP fun p => p.1.place = place := by
  induction picked generalizing t with
  | nil => rfl
  | cons first rest ih =>
      obtain ⟨a, d⟩ := first
      calc (Instance.bindAll ((a, d) :: rest) t).2.count place
          = (t.record a.place).count place + rest.countP fun p => p.1.place = place := ih (t.record a.place)
        _ = t.count place + ((a, d) :: rest).countP fun p => p.1.place = place := by
          rw [Tally.countRecord, List.countP_cons]
          simp only [decide_eq_true_eq]
          omega

theorem bindAllBound (picked : List (Attachment φ × Declaration φ)) (t : Tally) :
    ((Instance.bindAll picked t).1.map fun i => (i.type, i.target)) = picked.map fun p => (p.1.type, p.2) := by
  induction picked generalizing t with
  | nil => rfl
  | cons first rest ih =>
      obtain ⟨a, d⟩ := first
      rw [Instance.bindAll, List.map_cons, List.map_cons, ih]
      rfl

def leadsFrom (place : Nat) (bound : TypeName × Declaration φ) : Bool :=
  (bound.2.leading? bound.1).any fun a => a.place = place

theorem collectPlaces (ok : ((⟨u, limit⟩ : Materializer φ).collect calls t).1 = .ok instances) :
    ((⟨u, limit⟩ : Materializer φ).collect calls t).2.count place =
      t.count place + instances.countP fun i => leadsFrom place (i.type, i.target) := by
  let picks := ((⟨u, limit⟩ : Materializer φ).pickCalls ∅ calls).1.toList
  have leading : ∀ p ∈ picks, p.Leading := fun p member => by
    obtain ⟨_, _, _, chosen⟩ := (pickedCalls member).resolve_left fun none => by cases none
    exact chosen.leading
  have bound : (instances.map fun i => (i.type, i.target)) = picks.map fun p => (p.attachment.type, p.target) := by
    rw [collectPicks ok, bindAllBound, List.map_map]
    rfl
  have counted : (instances.countP fun i => leadsFrom place (i.type, i.target)) =
      picks.countP fun p => p.attachment.place = place := by
    calc
      (instances.countP fun i => leadsFrom place (i.type, i.target)) =
          (instances.map fun i => (i.type, i.target)).countP (leadsFrom place) := by
        rw [List.countP_map]
        rfl
      _ = picks.countP fun p => leadsFrom place (p.attachment.type, p.target) := by
        rw [bound, List.countP_map]
        rfl
      _ = picks.countP fun p => p.attachment.place = place := by
        refine List.countP_congr fun p member => ?_
        have first : p.target.leading? p.attachment.type = some p.attachment := leading p member
        simp [leadsFrom, first]
  have made : ((⟨u, limit⟩ : Materializer φ).collect calls t).2.count place =
      t.count place + (picks.map fun p => (p.attachment, p.target)).countP fun p => p.1.place = place :=
    bindAllPlaces _ t
  rw [made, counted, List.countP_map]
  rfl

structure Collected (u : Universe φ) (calls : List (CollectCall φ)) (t : Tally) (instances : List (Instance φ))
    (ran : Tally) : Prop where
  holds : ∀ tag, tag ∈ instances.map Instance.id ↔
    ∃ call ∈ calls, ∃ d ∈ call.marked, Picks u call.query d tag
  once : (instances.map Instance.id).Nodup
  bound : ∀ i ∈ instances, i.Made ∧
    ∃ call ∈ calls, i.target ∈ call.marked ∧ u.AssignableTo i.type ⟨call.query, []⟩
  places : ∀ place, ran.count place =
    t.count place + instances.countP fun i => leadsFrom place (i.type, i.target)

theorem collectedOk (ok : ((⟨u, limit⟩ : Materializer φ).collect calls t).1 = .ok instances) :
    Collected u calls t instances ((⟨u, limit⟩ : Materializer φ).collect calls t).2 where
  holds := fun _ => collectOk ok
  once := collectNodup ok
  bound := by
    intro i member
    obtain ⟨made, call, called, marked, accepted⟩ := collectMade ok member
    exact ⟨made, call, called, marked, (assignableOk accepted).1 rfl⟩
  places := fun _ => collectPlaces ok

def requests (c : Contribution φ) (pairs : List (TypeName × TypeName)) : List (CollectCall φ) :=
  pairs.map fun (key, query) => ⟨c.markedWith key, key, query⟩

structure ExactCollection (u : Universe φ) (calls : List (CollectCall φ)) : Prop where
  succeeds : (∃ limit t instances, ((⟨u, limit⟩ : Materializer φ).collect calls t).1 = .ok instances) ↔
    Sound u calls ∧ ∀ call ∈ calls, ∀ d ∈ call.marked, Ended u call.key call.query d
  enough : ∀ limit t, u.Suffices limit →
    ((∃ instances, ((⟨u, limit⟩ : Materializer φ).collect calls t).1 = .ok instances) ↔ Sound u calls)
  fails : ∀ limit t e, ((⟨u, limit⟩ : Materializer φ).collect calls t).1 = .error e →
    Contradicts u calls e ∨ (⟨u, limit⟩ : Materializer φ).Stuck e
  steady : ∀ limit t instances extra, ((⟨u, limit⟩ : Materializer φ).collect calls t).1 = .ok instances →
    (⟨u, limit + extra⟩ : Materializer φ).collect calls t = (⟨u, limit⟩ : Materializer φ).collect calls t
  leaves : ∀ limit t instances, ((⟨u, limit⟩ : Materializer φ).collect calls t).1 = .ok instances →
    Collected u calls t instances ((⟨u, limit⟩ : Materializer φ).collect calls t).2

theorem collectExact (u : Universe φ) (calls : List (CollectCall φ)) : ExactCollection u calls where
  succeeds := by
    rw [collectSome]
    constructor
    · intro each
      exact ⟨fun call member d marked => (each call member d marked).1,
        fun call member d marked => (each call member d marked).2⟩
    · intro ⟨sound, ends⟩ call member d marked
      exact ⟨sound call member d marked, ends call member d marked⟩
  enough := fun _ _ => collectSufficed
  fails := fun _ _ _ => collectFails
  steady := fun _ _ _ extra ok => collectLonger ok extra
  leaves := fun _ _ _ => collectedOk

end Materializer

section Parting
variable {α κ : Type} [DecidableEq κ] {key : α → κ} {keys : List κ}

theorem partsPerm (distinct : keys.Nodup) (values : List α) :
    (keys.flatMap fun k => values.filter fun a => key a = k).Perm (values.filter fun a => key a ∈ keys) := by
  induction keys with
  | nil => simp
  | cons k rest ih =>
      obtain ⟨unlike, distinct⟩ := List.nodup_cons.1 distinct
      let kept := values.filter fun a => key a ∈ k :: rest
      have here : (values.filter fun a => key a = k) = kept.filter fun a => key a = k := by
        rw [List.filter_filter]
        refine List.filter_congr fun a _ => ?_
        by_cases same : key a = k <;> simp [same]
      have there : (values.filter fun a => key a ∈ rest) = kept.filter fun a => !decide (key a = k) := by
        rw [List.filter_filter]
        refine List.filter_congr fun a _ => ?_
        by_cases same : key a = k
        · simp [same, unlike]
        · simp [same]
      rw [List.flatMap_cons, here]
      exact ((ih distinct).append_left _).trans (there ▸ List.filter_append_perm _ kept)

end Parting

namespace AttributeGroups
variable {u : Universe φ} {limit : Nat} {m : Materializer φ} {c other : Contribution φ} {t : Tally}
  {groups : AttributeGroups φ} {instances : List (Instance φ)} {keys : List TypeName}

structure Parts (groups : AttributeGroups φ) (instances : List (Instance φ)) : Prop where
  types : (groups.groups.toList.map AttributeGroup.type).Nodup
  filled : ∀ g ∈ groups.groups.toList, g.instances ≠ [] ∧ ∀ i ∈ g.instances, i.type = g.type
  ofType : ∀ type, groups.ofType type = instances.filter fun i => i.type = type
  whole : groups.instances.Perm instances
  size : groups.size = instances.length

theorem groupsEq :
    (ofInstances instances).groups.toList = (firstOccurrences (instances.map Instance.type)).map fun type =>
      ⟨type, instances.filter fun i => i.type = type⟩ := by
  have parts (type : TypeName) : (groupBy Instance.type instances).getD type [] =
      instances.filter fun i => i.type = type := groupOf instances type
  simp only [ofInstances, parts]
  have distinct : (((firstOccurrences (instances.map Instance.type)).map fun type =>
      (⟨type, instances.filter fun i => i.type = type⟩ : AttributeGroup φ)).map AttributeGroup.type).Nodup := by
    rw [List.map_map]
    exact (List.map_id _).symm ▸ firstOccurrencesNodup _
  exact (OrderedSet.insertAllFresh distinct fun _ _ present => by cases present).trans (List.nil_append _)

theorem instancesPerm : (ofInstances instances).instances.Perm instances := by
  have all : (instances.filter fun i => i.type ∈ firstOccurrences (instances.map Instance.type)) = instances := by
    refine List.filter_eq_self.2 fun i member => decide_eq_true ?_
    exact memFirstOccurrences.2 (List.mem_map_of_mem member)
  have parted : ((firstOccurrences (instances.map Instance.type)).flatMap fun type =>
      instances.filter fun i => i.type = type).Perm instances :=
    (partsPerm (firstOccurrencesNodup _) instances).trans (.of_eq all)
  rw [AttributeGroups.instances, groupsEq, List.flatMap_map]
  exact parted

theorem ofInstancesParts (instances : List (Instance φ)) : Parts (ofInstances instances) instances where
  types := OrderedSet.keysNodup _
  filled := by
    intro g member
    rw [groupsEq] at member
    obtain ⟨type, listed, same⟩ := List.mem_map.1 member
    subst same
    obtain ⟨i, inside, typed⟩ := List.mem_map.1 (memFirstOccurrences.1 listed)
    refine ⟨List.ne_nil_of_mem (List.mem_filter.2 ⟨inside, decide_eq_true typed⟩), fun j grouped => ?_⟩
    exact of_decide_eq_true (List.mem_filter.1 grouped).2
  ofType := fun _ => ofTypeEq
  whole := instancesPerm
  size := totalLength.trans instancesPerm.length_eq

def marked (c : Contribution φ) (markers : List TypeName) : List (CollectCall φ) :=
  Materializer.requests c (markers.map fun marker => (marker, marker))

theorem memMarkers {marker : TypeName} : marker ∈ c.marksByMarker ↔ ∃ d, d ∈ c.markedWith marker := by
  rw [Contribution.marksByMarker, memGroupBy, List.mem_map]
  constructor
  · rintro ⟨mark, member, same⟩
    exact ⟨mark.target, Contribution.memMarkedWith.2 (same ▸ member)⟩
  · rintro ⟨d, marked⟩
    exact ⟨_, Contribution.memMarkedWith.1 marked, rfl⟩

theorem callsMarked : calls c = marked c c.marksByMarker.keys := by
  rw [calls, Contribution.markTable, entriesOfKeys [], List.map_map, List.map_map, marked, Materializer.requests,
    List.map_map]
  rfl

theorem callsSorted (distinct : keys.Nodup) (listed : ∀ marker, marker ∈ keys ↔ ∃ d, d ∈ c.markedWith marker) :
    calls c = marked c (keys.mergeSort fun a b => (compare a b).isLE) := by
  rw [callsMarked, keysSorted distinct fun marker => (listed marker).trans memMarkers.symm]

theorem markedAgree (same : ∀ marker, other.markedWith marker = c.markedWith marker) (markers : List TypeName) :
    marked other markers = marked c markers := by
  simp only [marked, Materializer.requests, same]

theorem callsAgree (same : ∀ marker, other.markedWith marker = c.markedWith marker) : calls other = calls c := by
  have listed : ∀ marker, marker ∈ c.marksByMarker.keys ↔ ∃ d, d ∈ other.markedWith marker := fun marker => by
    rw [TreeMap.mem_keys, memMarkers, same]
  have own : ∀ marker, marker ∈ c.marksByMarker.keys ↔ ∃ d, d ∈ c.markedWith marker := fun marker => by
    rw [TreeMap.mem_keys, memMarkers]
  rw [callsSorted TreeMap.nodup_keys listed, callsSorted TreeMap.nodup_keys own, markedAgree same]

theorem buildOk :
    (∃ groups, (build m c t).1 = .ok groups) ↔ ∃ instances, (m.collect (calls c) t).1 = .ok instances := by
  constructor
  · intro ⟨groups, ok⟩
    obtain ⟨instances, collected, _⟩ := buildCollects ok
    exact ⟨instances, collected⟩
  · intro ⟨instances, collected⟩
    exact ⟨_, mapOk.2 ⟨instances, collected, rfl⟩⟩

structure ExactView (u : Universe φ) (c : Contribution φ) : Prop where
  collects : Materializer.ExactCollection u (calls c)
  succeeds : ∀ limit t, (∃ groups, (build ⟨u, limit⟩ c t).1 = .ok groups) ↔
    ∃ instances, ((⟨u, limit⟩ : Materializer φ).collect (calls c) t).1 = .ok instances
  parts : ∀ limit t groups, (build ⟨u, limit⟩ c t).1 = .ok groups →
    ∃ instances, Materializer.Collected u (calls c) t instances (build ⟨u, limit⟩ c t).2 ∧ Parts groups instances
  listed : ∀ keys : List TypeName, keys.Nodup → (∀ marker, marker ∈ keys ↔ ∃ d, d ∈ c.markedWith marker) →
    calls c = marked c (keys.mergeSort fun a b => (compare a b).isLE)
  unordered : ∀ other : Contribution φ, (∀ marker, other.markedWith marker = c.markedWith marker) →
    ∀ limit t, build ⟨u, limit⟩ other t = build ⟨u, limit⟩ c t

theorem viewExact (u : Universe φ) (c : Contribution φ) : ExactView u c where
  collects := Materializer.collectExact u (calls c)
  succeeds := fun _ _ => buildOk
  parts := by
    intro limit t groups ok
    obtain ⟨instances, collected, same⟩ := buildCollects ok
    subst same
    exact ⟨instances, Materializer.collectedOk collected, ofInstancesParts instances⟩
  listed := fun _ => callsSorted
  unordered := by
    intro other same limit t
    rw [build, build, callsAgree same]

end AttributeGroups

/-- Collections are exact, and so are the views made of them. -/
theorem collectionsExact (u : Universe φ) (c : Contribution φ) (pairs : List (TypeName × TypeName)) :
    Materializer.ExactCollection u (Materializer.requests c pairs) ∧ AttributeGroups.ExactView u c :=
  ⟨Materializer.collectExact u (Materializer.requests c pairs), AttributeGroups.viewExact u c⟩

def growingTags : Universe := .ofDefs [
  { name := "Tag", owner := "M", kind := .annotationType },
  growType "M" .annotationType]

def taggedGrowing : Declaration where
  owner := {
    name := "D"
    owner := "X"
    kind := .classType
    attachments := [⟨"Tag", .plain false, 0⟩, ⟨"Grow", .plain false, 1⟩] }

def growingMarks : Contribution := (({} : Contribution).addMarks [⟨"Tag", taggedGrowing⟩]).2

theorem carriedNeverCollected :
    growingMarks.markedWith "Tag" = [taggedGrowing] ∧ Materializer.Carries growingTags "Tag" taggedGrowing ∧
      (¬ ∃ limit t instances,
        ((⟨growingTags, limit⟩ : Materializer).collect (Materializer.requests growingMarks [("Tag", "Tag")]) t).1 =
          .ok instances) ∧
      ¬ ∃ limit t groups, (AttributeGroups.build ⟨growingTags, limit⟩ growingMarks t).1 = .ok groups := by
  have marked : growingMarks.markedWith "Tag" = [taggedGrowing] := by decide +kernel
  obtain ⟨tag, knownTag, plain⟩ : ∃ d, growingTags.find? "Tag" = some d ∧ d.selfRef = ⟨"Tag", []⟩ := ⟨_, by rfl, by rfl⟩
  have known : growingTags.find? "Grow" = some (growType "M" .annotationType) := by decide +kernel
  have carries : Materializer.Carries growingTags "Tag" taggedGrowing :=
    ⟨⟨"Tag", .plain false, 0⟩, by decide, tag, knownTag, by rw [plain]⟩
  have refused : ¬ ∃ limit t instances,
      ((⟨growingTags, limit⟩ : Materializer).collect (Materializer.requests growingMarks [("Tag", "Tag")]) t).1 =
        .ok instances := by
    rw [Materializer.collectSome]
    intro done
    obtain ⟨_, ends⟩ := done ⟨[taggedGrowing], "Tag", "Tag"⟩ (by simp [Materializer.requests, marked]) taggedGrowing
      (List.mem_singleton_self _)
    obtain ⟨limit, answer, decided⟩ := ends.picks ⟨"Grow", .plain false, 1⟩ (by decide)
    rw [Universe.growsUndecided known growTypeGrows (by decide)] at decided
    cases decided
  have table : growingMarks.markTable = [("Tag", [taggedGrowing])] := by decide +kernel
  have calls : AttributeGroups.calls growingMarks = Materializer.requests growingMarks [("Tag", "Tag")] := by
    simp [AttributeGroups.calls, Materializer.requests, table, marked]
  refine ⟨marked, carries, refused, fun built => ?_⟩
  obtain ⟨limit, t, groups⟩ := built
  exact refused ⟨limit, t, calls ▸ AttributeGroups.buildOk.1 groups⟩

end MetadataIndex
