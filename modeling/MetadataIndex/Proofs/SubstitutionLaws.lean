import MetadataIndex.Proofs.Substitution

/-! The laws of substitution into references. Substitutions compose, and those that bind each parameter to
itself at most change nothing. The result is closed exactly when the reference has no unbound slot at any
depth and every parameter it mentions is bound to a closed argument. Name and arity always stay. -/
namespace MetadataIndex

namespace TypeRef
variable {r : TypeRef}

theorem shapeClosed (closed : r.isClosed = true) :
    r.shape = if r.arguments = [] then .nonGeneric else .constructed := by
  obtain ⟨name, arguments⟩ := r
  cases arguments with
  | nil => rfl
  | cons first rest =>
      have filled : (first == .unbound) = false := by
        rw [beq_eq_false_iff_ne]
        rintro rfl
        exact Bool.false_ne_true (List.all_eq_true.1 closed .unbound (List.mem_cons_self ..))
      simp [shape, closed, filled]

structure Substitutes (r : TypeRef) : Prop where
  composes : ∀ first second, (r.substitute first).substitute second = r.substitute (first.andThen second)
  nothing : r.substitute (fun _ => none) = r
  itself : r.substitute (fun p => some (.parameter p)) = r
  fixed : ∀ bindings, (∀ p ∈ r.parameters, bindings p = none ∨ bindings p = some (.parameter p)) →
    r.substitute bindings = r
  closed : r.isClosed = true → ∀ bindings, r.substitute bindings = r
  closes : ∀ bindings, (r.substitute bindings).isClosed = true ↔ ¬ r.HasSlot ∧ r.ClosedBy bindings
  shape : ∀ bindings, ¬ r.HasSlot → r.ClosedBy bindings →
    (r.substitute bindings).shape = if r.arguments = [] then .nonGeneric else .constructed
  name : ∀ bindings, (r.substitute bindings).name = r.name
  arity : ∀ bindings, (r.substitute bindings).arguments.length = r.arguments.length

theorem substitutionLaws (r : TypeRef) : r.Substitutes where
  composes := fun _ _ => substituteTwice
  nothing := substituteFixed fun _ _ => .inl rfl
  itself := substituteFixed fun _ _ => .inr rfl
  fixed := fun _ => substituteFixed
  closed := fun closed _ => substituteClosed closed
  closes := fun _ => closedSubstitute
  shape := by
    intro bindings slotless closing
    rw [shapeClosed (closedSubstitute.2 ⟨slotless, closing⟩)]
    simp [substitute]
  name := fun _ => rfl
  arity := fun _ => List.length_map ..

end TypeRef
end MetadataIndex
