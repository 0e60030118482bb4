import MetadataIndex.Definition
import Mathlib.Data.List.Nodup

/-! Substitution into references. What a reference becomes depends only on what is bound to the
parameters it mentions, and substituting twice is substituting once what the second makes of the
values of the first. It is closed when there is no unbound slot at any depth and every parameter it
mentions is bound to a closed argument. A supertype is its declared reference under the arguments
passed to the parameters of its definition, so substituting into those arguments is substituting into
the supertype. -/
namespace MetadataIndex
variable {φ : Type}

namespace Argument

@[elab_as_elim]
theorem nested {P : Argument → Prop} (unbound : P .unbound) (parameter : ∀ p, P (.parameter p))
    (type : ∀ name arguments, (∀ a ∈ arguments, P a) → P (.type name arguments)) : (a : Argument) → P a
  | .unbound => unbound
  | .parameter p => parameter p
  | .type name arguments => type name arguments fun a _ => nested unbound parameter type a

mutual
def parameters : Argument → List String
  | .unbound => []
  | .parameter p => [p]
  | .type _ arguments => parametersAll arguments
def parametersAll : List Argument → List String
  | [] => []
  | a :: rest => a.parameters ++ parametersAll rest
end

theorem parametersAllEq (arguments : List Argument) : parametersAll arguments = arguments.flatMap parameters := by
  induction arguments with
  | nil => rfl
  | cons a rest ih => simp [parametersAll, ih]

theorem memParametersType {name : TypeName} {arguments : List Argument} {p : String} :
    p ∈ (Argument.type name arguments).parameters ↔ ∃ a ∈ arguments, p ∈ a.parameters := by
  rw [parameters, parametersAllEq, List.mem_flatMap]

theorem substituteType (bindings : Bindings) (name : TypeName) (arguments : List Argument) :
    (Argument.type name arguments).substitute bindings = .type name (arguments.map (substitute bindings)) := by
  rw [substitute, substituteAllEq]

end Argument

namespace Bindings

def andThen (first second : Bindings) : Bindings := fun p =>
  match first p with
  | some a => some (a.substitute second)
  | none => second p

end Bindings

namespace Argument
variable {first second : Bindings} {a : Argument}

theorem substituteCongr (same : ∀ p ∈ a.parameters, first p = second p) :
    a.substitute first = a.substitute second := by
  induction a using nested with
  | unbound => simp only [substitute]
  | parameter p => simp only [substitute, same p (by simp [parameters])]
  | type name arguments ih =>
      rw [substituteType, substituteType]
      refine congrArg _ (List.map_congr_left fun b member => ih b member fun p mentioned => ?_)
      exact same p (memParametersType.2 ⟨b, member, mentioned⟩)

theorem substituteTwice : (a.substitute first).substitute second = a.substitute (first.andThen second) := by
  induction a using nested with
  | unbound => simp only [substitute]
  | parameter p => cases bound : first p <;> simp [substitute, Bindings.andThen, bound]
  | type name arguments ih =>
      simp only [substituteType, List.map_map]
      exact congrArg _ (List.map_congr_left ih)

theorem substituteFixed (fixed : ∀ p ∈ a.parameters, first p = none ∨ first p = some (.parameter p)) :
    a.substitute first = a := by
  induction a using nested with
  | unbound => simp only [substitute]
  | parameter p => rcases fixed p (by simp [parameters]) with bound | bound <;> simp [substitute, bound]
  | type name arguments ih =>
      have each : ∀ b ∈ arguments, b.substitute first = b := fun b member =>
        ih b member fun p mentioned => fixed p (memParametersType.2 ⟨b, member, mentioned⟩)
      rw [substituteType, List.map_congr_left each, List.map_id']

theorem substituteUnmentioned (nothing : ∀ p ∈ a.parameters, first p = none) : a.substitute first = a :=
  substituteFixed fun p mentioned => .inl (nothing p mentioned)

theorem closedType {name : TypeName} {arguments : List Argument} :
    (Argument.type name arguments).closed = true ↔ ∀ a ∈ arguments, a.closed = true := by
  rw [closed, allClosedEq, List.all_eq_true]

inductive HasSlot : Argument → Prop where
  | here : HasSlot .unbound
  | inside {name : TypeName} {arguments : List Argument} {a : Argument} (member : a ∈ arguments)
      (slot : a.HasSlot) : HasSlot (.type name arguments)

theorem hasSlotType {name : TypeName} {arguments : List Argument} :
    (Argument.type name arguments).HasSlot ↔ ∃ a ∈ arguments, a.HasSlot := by
  constructor
  · intro slot
    cases slot with
    | inside member slot => exact ⟨_, member, slot⟩
  · intro ⟨a, member, slot⟩
    exact .inside member slot

theorem closedSubstitute : (a.substitute first).closed = true ↔
    ¬ a.HasSlot ∧ ∀ p ∈ a.parameters, ∃ b, first p = some b ∧ b.closed = true := by
  induction a using nested with
  | unbound => simp [substitute, closed, HasSlot.here]
  | parameter p =>
      have slotless : ¬ (Argument.parameter p).HasSlot := by rintro ⟨⟩
      cases bound : first p with
      | none => simp [substitute, parameters, closed, bound]
      | some b => simp [substitute, parameters, bound, slotless]
  | type name arguments ih =>
      rw [substituteType, closedType, List.forall_mem_map]
      simp only [hasSlotType, memParametersType, not_exists, not_and]
      constructor
      · intro each
        refine ⟨fun b member => ((ih b member).1 (each b member)).1, ?_⟩
        rintro p ⟨b, member, mentioned⟩
        exact ((ih b member).1 (each b member)).2 p mentioned
      · rintro ⟨slotless, bound⟩ b member
        exact (ih b member).2 ⟨slotless b member, fun p mentioned => bound p ⟨b, member, mentioned⟩⟩

-- a closed argument is closed also when nothing is bound, so there is nothing to bind
theorem closedMentionsNone (closed : a.closed = true) : a.parameters = [] := by
  have unfilled : (a.substitute fun _ => none).closed = true := by
    rwa [substituteUnmentioned fun _ _ => rfl]
  refine List.eq_nil_iff_forall_not_mem.2 fun p mentioned => ?_
  obtain ⟨b, bound, _⟩ := (closedSubstitute.1 unfilled).2 p mentioned
  cases bound

end Argument

namespace TypeRef
variable {first second : Bindings} {r : TypeRef}

def parameters (r : TypeRef) : List String := r.arguments.flatMap Argument.parameters

theorem substituteCongr (same : ∀ p ∈ r.parameters, first p = second p) :
    r.substitute first = r.substitute second := by
  rw [substitute, substitute]
  refine congrArg _ (List.map_congr_left fun a member => Argument.substituteCongr fun p mentioned => ?_)
  exact same p (List.mem_flatMap.2 ⟨a, member, mentioned⟩)

theorem substituteFixed (fixed : ∀ p ∈ r.parameters, first p = none ∨ first p = some (.parameter p)) :
    r.substitute first = r := by
  have each : ∀ a ∈ r.arguments, a.substitute first = a := fun a member =>
    Argument.substituteFixed fun p mentioned => fixed p (List.mem_flatMap.2 ⟨a, member, mentioned⟩)
  rw [substitute, List.map_congr_left each, List.map_id']

theorem substituteNone (nothing : ∀ p ∈ r.parameters, first p = none) : r.substitute first = r :=
  substituteFixed fun p mentioned => .inl (nothing p mentioned)

theorem substituteClosed (closed : r.isClosed = true) : r.substitute first = r := by
  refine substituteNone fun p mentioned => ?_
  obtain ⟨a, member, inside⟩ := List.mem_flatMap.1 mentioned
  rw [Argument.closedMentionsNone (List.all_eq_true.1 closed a member)] at inside
  cases inside

def HasSlot (r : TypeRef) : Prop := ∃ a ∈ r.arguments, a.HasSlot

def ClosedBy (r : TypeRef) (bindings : Bindings) : Prop :=
  ∀ p ∈ r.parameters, ∃ a, bindings p = some a ∧ a.closed = true

theorem closedSubstitute : (r.substitute first).isClosed = true ↔ ¬ r.HasSlot ∧ r.ClosedBy first := by
  have whole : (r.asArgument.substitute first).closed = true ↔ ¬ r.asArgument.HasSlot ∧
      ∀ p ∈ r.asArgument.parameters, ∃ b, first p = some b ∧ b.closed = true := Argument.closedSubstitute
  rw [asArgumentSubstitute, asArgumentClosed, asArgument, Argument.hasSlotType] at whole
  refine whole.trans (and_congr_right fun _ => forall_congr' fun p => ?_)
  rw [parameters, List.mem_flatMap, Argument.memParametersType]

theorem substituteTwice : (r.substitute first).substitute second = r.substitute (first.andThen second) := by
  simp only [substitute, List.map_map]
  exact congrArg _ (List.map_congr_left fun a _ => Argument.substituteTwice)

end TypeRef

section Lookup
variable {α β : Type} {pairs : List (String × α)} {k : String} {a : α}

theorem lookupMember (found : pairs.lookup k = some a) : (k, a) ∈ pairs := by
  obtain ⟨before, after, whole, _⟩ := List.lookup_eq_some_iff.1 found
  exact whole ▸ List.mem_append_right _ (List.mem_cons_self ..)

theorem lookupDistinct (distinct : (pairs.map Prod.fst).Nodup) (member : (k, a) ∈ pairs) :
    pairs.lookup k = some a := by
  obtain ⟨before, after, whole⟩ := List.append_of_mem member
  refine List.lookup_eq_some_iff.2 ⟨before, after, whole, fun pair earlier => bne_iff_ne.2 fun same => ?_⟩
  rw [whole, List.map_append, List.map_cons] at distinct
  exact (List.nodup_append.1 distinct).2.2 _ (List.mem_map_of_mem earlier) _ (List.mem_cons_self ..) same.symm

theorem lookupMapped (f : α → β) :
    (pairs.map fun pair => (pair.1, f pair.2)).lookup k = (pairs.lookup k).map f := by
  induction pairs with
  | nil => rfl
  | cons pair rest ih =>
      rw [List.map_cons, List.lookup_cons, List.lookup_cons, ih]
      cases k == pair.1 <;> rfl

theorem lookupRenamed {f : String → String} (apart : ∀ pair ∈ pairs, f pair.1 = f k → pair.1 = k) :
    (pairs.map fun pair => (f pair.1, pair.2)).lookup (f k) = pairs.lookup k := by
  induction pairs with
  | nil => rfl
  | cons pair rest ih =>
      have same : (f k == f pair.1) = (k == pair.1) := by
        rw [Bool.eq_iff_iff, beq_iff_eq, beq_iff_eq]
        exact ⟨fun equal => (apart pair (List.mem_cons_self ..) equal.symm).symm, congrArg f⟩
      rw [List.map_cons, List.lookup_cons, List.lookup_cons, same,
        ih fun other member => apart other (List.mem_cons_of_mem _ member)]

end Lookup

namespace TypeDef
variable {d : TypeDef φ} {arguments : List Argument} {a : Argument} {p : String} {i : Nat}

def passed (d : TypeDef φ) (arguments : List Argument) : Bindings :=
  .ofTable (Bindings.tableOf (d.parameters.zip arguments))

theorem passedEq (d : TypeDef φ) (arguments : List Argument) (p : String) :
    d.passed arguments p = (d.parameters.zip arguments).reverse.lookup p := Bindings.ofTableOf _ _

theorem passedMember (bound : d.passed arguments p = some a) : (p, a) ∈ d.parameters.zip arguments := by
  rw [passedEq] at bound
  exact List.mem_reverse.1 (lookupMember bound)

theorem passedPlace (bound : d.passed arguments p = some a) :
    ∃ i : Nat, d.parameters[i]? = some p ∧ arguments[i]? = some a := by
  obtain ⟨i, place⟩ := List.mem_iff_getElem?.1 (passedMember bound)
  exact ⟨i, List.getElem?_zip_eq_some.1 place⟩

theorem passedAt (distinct : d.parameters.Nodup) (full : arguments.length = d.parameters.length)
    (place : d.parameters[i]? = some p) (given : arguments[i]? = some a) : d.passed arguments p = some a := by
  have pair : (d.parameters.zip arguments)[i]? = some (p, a) := List.getElem?_zip_eq_some.2 ⟨place, given⟩
  rw [passedEq]
  refine lookupDistinct ?_ (List.mem_reverse.2 (List.mem_of_getElem? pair))
  rwa [List.map_reverse, List.nodup_reverse, List.map_fst_zip (Nat.le_of_eq full.symm)]

theorem passedMapped (f : Argument → Argument) :
    d.passed (arguments.map f) p = (d.passed arguments p).map f := by
  rw [passedEq, passedEq, List.zip_map_right, ← List.map_reverse]
  exact lookupMapped f

theorem passedFull (distinct : d.parameters.Nodup) (full : arguments.length = d.parameters.length)
    (member : p ∈ d.parameters) : ∃ a, d.passed arguments p = some a := by
  obtain ⟨i, place⟩ := List.mem_iff_getElem?.1 member
  obtain ⟨below, _⟩ := List.getElem?_eq_some_iff.1 place
  exact ⟨_, passedAt distinct full place (List.getElem?_eq_getElem (full ▸ below))⟩

end TypeDef
end MetadataIndex
