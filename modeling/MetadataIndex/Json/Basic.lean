/-! Values of the strict data format that files and manifests are written in. Numbers are kept as
written, since no field reads one. A text whose escapes do not make characters is kept as absent: it
may be skipped, never read. -/
namespace MetadataIndex

inductive Json where
  | null
  | bool (value : Bool)
  | number (written : String)
  | text (value : Option String)
  | array (items : List Json)
  | object (fields : List (Option String × Json))
  deriving Repr

namespace Json

def recordFields (names : List String) : Json → Option (List (Option Json))
  | .array items =>
      if items.length ≤ names.length then
        some ((items.map some) ++ List.replicate (names.length - items.length) none)
      else none
  | .object fields =>
      if fields.all (fun field => field.1.isSome) then
        names.mapM fun name =>
          match fields.filter (fun field => field.1 = some name) with
          | [] => some none
          | [field] => some (some field.2)
          | _ => none
      else none
  | _ => none

def fieldOr {α : Type} (fallback : α) (read : Json → Option α) : Option Json → Option α
  | none => some fallback
  | some value => read value

def field {α : Type} (read : Json → Option α) (value : Option Json) : Option α := value.bind read

def asText : Json → Option String
  | .text value => value
  | _ => none

def asBool : Json → Option Bool
  | .bool value => some value
  | _ => none

def asArray : Json → Option (List Json)
  | .array items => some items
  | _ => none

end Json
end MetadataIndex
