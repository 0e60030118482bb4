import MetadataIndex.Json.Basic
import Mathlib.Data.List.Forall2
import Mathlib.Data.List.Nodup

/-! What a record gives under each of its names. Reading the fields of a record finds what it gives, and
succeeds just for objects with readable names that give no field twice and for arrays that are short enough.
Names that are not asked for do not count, and neither does the order of the names in an object. -/
namespace MetadataIndex

namespace Json
variable {record : Json} {names : List String} {name : String} {given : List (Option Json)}

def Gives (record : Json) (names : List String) (name : String) (value : Json) : Prop :=
  match record with
  | .object fields => (some name, value) ∈ fields
  | .array items => ∃ i : Nat, names[i]? = some name ∧ items[i]? = some value
  | _ => False

def IsRecord (names : List String) : Json → Prop
  | .object fields => (∀ f ∈ fields, f.1.isSome = true) ∧
      ∀ name ∈ names, (fields.filter fun f => f.1 = some name).length ≤ 1
  | .array items => items.length ≤ names.length
  | _ => False

def Finds (record : Json) (names : List String) (name : String) (found : Option Json) : Prop :=
  ∀ value, found = some value ↔ record.Gives names name value

theorem mapMSome {α β : Type} {f : α → Option β} {as : List α} {bs : List β} :
    as.mapM f = some bs ↔ List.Forall₂ (fun a b => f a = some b) as bs := by
  induction as generalizing bs with
  | nil => simp [eq_comm]
  | cons a rest ih =>
      rw [List.mapM_cons]
      cases made : f a with
      | none => simp [List.forall₂_cons_left_iff, made]
      | some b =>
          cases later : rest.mapM f with
          | none => simp [List.forall₂_cons_left_iff, made, ← ih, later]
          | some more => simp [List.forall₂_cons_left_iff, made, ← ih, later, eq_comm]

theorem mapMDefined {α β : Type} {f : α → Option β} {as : List α} (defined : ∀ a ∈ as, ∃ b, f a = some b) :
    ∃ bs, as.mapM f = some bs := by
  induction as with
  | nil => exact ⟨[], rfl⟩
  | cons a rest ih =>
      obtain ⟨⟨b, made⟩, later⟩ := List.forall_mem_cons.1 defined
      obtain ⟨bs, rested⟩ := ih later
      exact ⟨b :: bs, by simp [made, rested]⟩

def fieldOf (fields : List (Option String × Json)) (name : String) : Option (Option Json) :=
  match fields.filter fun field => field.1 = some name with
  | [] => some none
  | [field] => some (some field.2)
  | _ => none

theorem objectFields (fields : List (Option String × Json)) (names : List String) :
    (Json.object fields).recordFields names =
      if fields.all fun field => field.1.isSome then names.mapM (fieldOf fields) else none := rfl

theorem fieldFound {fields : List (Option String × Json)} {found : Option Json} :
    fieldOf fields name = some found ↔
      (fields.filter fun f => f.1 = some name).length ≤ 1 ∧ Finds (.object fields) names name found := by
  have named : ∀ f ∈ fields.filter fun f => f.1 = some name, f.1 = some name := by simp
  have listed : Finds (.object fields) names name found ↔
      ∀ value, found = some value ↔ (some name, value) ∈ fields.filter fun f => f.1 = some name := by
    simp [Finds, Gives]
  rw [listed, fieldOf]
  generalize fields.filter (fun f => f.1 = some name) = matching at named
  match matching with
  | [] => simp [Option.eq_none_iff_forall_ne_some, eq_comm (a := none)]
  | [(first, only)] =>
      obtain rfl : first = some name := named _ (List.mem_cons_self ..)
      simp only [Option.some.injEq, List.length_singleton, Nat.le_refl, true_and, List.mem_singleton, Prod.mk.injEq]
      constructor
      · rintro rfl value
        rw [Option.some.injEq, eq_comm]
      · exact fun same => ((same only).2 rfl).symm
  | _ :: _ :: _ => simp

theorem fieldDefined {fields : List (Option String × Json)}
    (single : (fields.filter fun f => f.1 = some name).length ≤ 1) : ∃ found, fieldOf fields name = some found := by
  rw [fieldOf]
  generalize fields.filter (fun f => f.1 = some name) = matching at single
  match matching with
  | [] => exact ⟨none, rfl⟩
  | [field] => exact ⟨some field.2, rfl⟩
  | _ :: _ :: _ => simp at single

theorem itemsFound {items : List Json} (distinct : names.Nodup) (fits : items.length ≤ names.length) :
    List.Forall₂ (Finds (.array items) names) names
      (items.map some ++ List.replicate (names.length - items.length) none) := by
  refine List.forall₂_iff_get.2 ⟨by simp [fits], fun i below _ value => ?_⟩
  have place : (items.map some ++ List.replicate (names.length - items.length) none)[i]? = some items[i]? := by
    by_cases inside : i < items.length
    · rw [List.getElem?_append_left (by simpa using inside), List.getElem?_map, List.getElem?_eq_getElem inside]
      rfl
    · rw [List.getElem?_append_right (by simpa using inside), List.getElem?_eq_none (Nat.le_of_not_lt inside)]
      simp only [List.length_map, List.getElem?_replicate]
      exact if_pos (by omega)
  obtain ⟨_, found⟩ := List.getElem?_eq_some_iff.1 place
  rw [List.get_eq_getElem, List.get_eq_getElem, found]
  constructor
  · exact fun given => ⟨i, List.getElem?_eq_getElem below, given⟩
  · intro ⟨j, named, given⟩
    obtain ⟨belowToo, same⟩ := List.getElem?_eq_some_iff.1 named
    obtain rfl : j = i := (List.Nodup.getElem_inj_iff distinct).1 same
    exact given

theorem recordFound (distinct : names.Nodup) (found : record.recordFields names = some given) :
    record.IsRecord names ∧ List.Forall₂ (record.Finds names) names given := by
  cases record with
  | object fields =>
      rw [objectFields] at found
      split at found
      · next readable =>
        have each := mapMSome.1 found
        have told : List.Forall₂ (fun name found => (fields.filter fun f => f.1 = some name).length ≤ 1 ∧
            Finds (.object fields) names name found) names given := each.imp fun _ _ => fieldFound.1
        refine ⟨⟨List.all_eq_true.1 readable, fun name member => ?_⟩, told.imp fun _ _ => And.right⟩
        obtain ⟨i, below, rfl⟩ := List.getElem_of_mem member
        exact ((List.forall₂_iff_get.1 told).2 i below ((List.forall₂_iff_get.1 told).1 ▸ below)).1
      · cases found
  | array items =>
      rw [recordFields] at found
      split at found
      · next fits =>
        cases found
        exact ⟨fits, itemsFound distinct fits⟩
      · cases found
  | null | bool _ | number _ | text _ => cases found

theorem recordRead (isRecord : record.IsRecord names) : ∃ given, record.recordFields names = some given := by
  cases record with
  | object fields =>
      obtain ⟨readable, single⟩ := isRecord
      rw [objectFields, if_pos (List.all_eq_true.2 readable)]
      exact mapMDefined fun name member => fieldDefined (single name member)
  | array items => exact ⟨_, if_pos isRecord⟩
  | null | bool _ | number _ | text _ => cases isRecord

def Settles {α : Type} (record : Json) (names : List String) (name : String) (Means : Json → α → Prop)
    (fallback x : α) : Prop :=
  (∃ value, record.Gives names name value ∧ Means value x) ∨
    (∀ value, ¬ record.Gives names name value) ∧ x = fallback

theorem settlesIff {α : Type} {Means : Json → α → Prop} {read : Json → Option α} {fallback x : α}
    {found : Option Json} (means : ∀ {value x}, read value = some x ↔ Means value x)
    (finds : record.Finds names name found) :
    fieldOr fallback read found = some x ↔ record.Settles names name Means fallback x := by
  cases found with
  | none =>
      have absent : ∀ value, ¬ record.Gives names name value := fun value gives => nomatch (finds value).2 gives
      simp [fieldOr, Settles, absent, eq_comm]
  | some value =>
      have given := (finds value).1 rfl
      constructor
      · exact fun done => .inl ⟨value, given, means.1 done⟩
      · rintro (⟨other, gives, meaning⟩ | ⟨absent, _⟩)
        · cases (finds other).2 gives
          exact means.2 meaning
        · exact absurd given (absent value)

end Json
end MetadataIndex
