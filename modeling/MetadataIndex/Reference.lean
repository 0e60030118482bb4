import Std.Data.TreeMap.Lemmas

/-! References to type definitions, possibly with generic arguments.
A slot is unbound, names a parameter of the definition around it, or holds another reference.
Substitution fills parameters; the shape says how far a reference is bound. -/
namespace MetadataIndex
open Std

abbrev TypeName := String

abbrev ModuleId := String

def TypeName.simpleName (name : TypeName) : String :=
  String.ofList (name.toList.reverse.takeWhile (· ≠ '.')).reverse

inductive Argument where
  | unbound
  | parameter (name : String)
  | type (name : TypeName) (arguments : List Argument)
  deriving Repr

structure TypeRef where
  name : TypeName
  arguments : List Argument := []
  deriving Repr

inductive Shape where
  | nonGeneric
  | definition
  | constructed
  | partiallyBound
  deriving DecidableEq, Repr

abbrev Bindings := String → Option Argument

namespace Argument

mutual
def decideEq : (a b : Argument) → Decidable (a = b)
  | .unbound, .unbound => .isTrue rfl
  | .parameter p, .parameter q =>
      if same : p = q then .isTrue (same ▸ rfl) else .isFalse (fun e => same (Argument.parameter.inj e))
  | .type n as, .type m bs =>
      if same : n = m then
        match decideEqAll as bs with
        | .isTrue e => .isTrue (same ▸ e ▸ rfl)
        | .isFalse differ => .isFalse (fun e => differ (Argument.type.inj e).2)
      else .isFalse (fun e => same (Argument.type.inj e).1)
  | .unbound, .parameter _ | .unbound, .type _ _ | .parameter _, .unbound | .parameter _, .type _ _
  | .type _ _, .unbound | .type _ _, .parameter _ => .isFalse nofun
def decideEqAll : (as bs : List Argument) → Decidable (as = bs)
  | [], [] => .isTrue rfl
  | [], _ :: _ | _ :: _, [] => .isFalse nofun
  | a :: as, b :: bs =>
      match decideEq a b, decideEqAll as bs with
      | .isTrue h, .isTrue e => .isTrue (h ▸ e ▸ rfl)
      | .isFalse differ, _ => .isFalse (fun e => differ (List.cons.inj e).1)
      | _, .isFalse differ => .isFalse (fun e => differ (List.cons.inj e).2)
end

instance : DecidableEq Argument := decideEq

mutual
def closed : Argument → Bool
  | .unbound | .parameter _ => false
  | .type _ arguments => allClosed arguments
def allClosed : List Argument → Bool
  | [] => true
  | a :: rest => a.closed && allClosed rest
end

mutual
def substitute (bindings : Bindings) : Argument → Argument
  | .unbound => .unbound
  | .parameter p => (bindings p).getD (.parameter p)
  | .type name arguments => .type name (substituteAll bindings arguments)
def substituteAll (bindings : Bindings) : List Argument → List Argument
  | [] => []
  | a :: rest => a.substitute bindings :: substituteAll bindings rest
end

def applied (name : TypeName) : List String → String
  | [] => name
  | first :: rest => name ++ "<" ++ String.intercalate "," (first :: rest) ++ ">"

mutual
def text : Argument → String
  | .unbound => ""
  | .parameter p => p
  | .type name arguments => applied name (texts arguments)
def texts : List Argument → List String
  | [] => []
  | a :: rest => a.text :: texts rest
end

theorem allClosedEq (arguments : List Argument) : allClosed arguments = arguments.all closed := by
  induction arguments with
  | nil => rfl
  | cons a rest ih => simp [allClosed, ih]

theorem substituteAllEq (bindings : Bindings) (arguments : List Argument) :
    substituteAll bindings arguments = arguments.map (substitute bindings) := by
  induction arguments with
  | nil => rfl
  | cons a rest ih => simp [substituteAll, ih]

end Argument

namespace Bindings

def ofTable (table : TreeMap String Argument) : Bindings := fun parameter => table[parameter]?

def tableOf (pairs : List (String × Argument)) : TreeMap String Argument :=
  pairs.foldl (fun table pair => table.insert pair.1 pair.2) ∅

theorem lookupAfterPairs {pairs : List (String × Argument)} {table : TreeMap String Argument}
    {parameter : String} :
    (pairs.foldl (fun table pair => table.insert pair.1 pair.2) table)[parameter]? =
      (pairs.reverse.lookup parameter).or table[parameter]? := by
  induction pairs generalizing table with
  | nil => simp
  | cons pair rest ih =>
      obtain ⟨name, argument⟩ := pair
      rw [List.foldl_cons, ih, TreeMap.getElem?_insert, List.reverse_cons, List.lookup_append,
        Option.or_assoc]
      by_cases same : name = parameter
      · simp [same]
      · have other : (parameter == name) = false := by
          simpa using fun equal => same equal.symm
        simp [same, List.lookup_cons, other]

theorem ofTableOf (pairs : List (String × Argument)) (parameter : String) :
    ofTable (tableOf pairs) parameter = pairs.reverse.lookup parameter := by
  simp [ofTable, tableOf, lookupAfterPairs]

end Bindings

namespace TypeRef

deriving instance DecidableEq for TypeRef

def openDefinition (name : TypeName) (arity : Nat) : TypeRef := ⟨name, List.replicate arity .unbound⟩

def asArgument (ref : TypeRef) : Argument := .type ref.name ref.arguments

def isGeneric (ref : TypeRef) : Bool := !ref.arguments.isEmpty

def isClosed (ref : TypeRef) : Bool := ref.arguments.all Argument.closed

def shape (ref : TypeRef) : Shape :=
  if ref.arguments = [] then .nonGeneric
  else if ref.arguments.all (· == .unbound) then .definition
  else if ref.isClosed then .constructed
  else .partiallyBound

def substitute (bindings : Bindings) (ref : TypeRef) : TypeRef :=
  { ref with arguments := ref.arguments.map (Argument.substitute bindings) }

def text (ref : TypeRef) : String := Argument.applied ref.name (ref.arguments.map Argument.text)

theorem asArgumentClosed (ref : TypeRef) : ref.asArgument.closed = ref.isClosed := by
  simp [asArgument, Argument.closed, isClosed, Argument.allClosedEq]

theorem asArgumentSubstitute (bindings : Bindings) (ref : TypeRef) :
    ref.asArgument.substitute bindings = (ref.substitute bindings).asArgument := by
  simp [asArgument, Argument.substitute, substitute, Argument.substituteAllEq]

end TypeRef
end MetadataIndex
