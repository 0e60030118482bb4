import MetadataIndex.Json.Basic

/-! Printing with an indent of two blanks for each level: an item or a field on a line, a colon and
a blank after a field's name, and empty arrays and objects closed at once. In a text only quotes,
backslashes and control characters are escaped. -/
namespace MetadataIndex.Json

def hexDigit (n : Nat) : Char := if n < 10 then Char.ofNat (48 + n) else Char.ofNat (87 + n)

def escape (c : Char) : List Char :=
  if c = '"' then ['\\', '"']
  else if c = '\\' then ['\\', '\\']
  else if c = '\x08' then ['\\', 'b']
  else if c = '\x0c' then ['\\', 'f']
  else if c = '\n' then ['\\', 'n']
  else if c = '\r' then ['\\', 'r']
  else if c = '\t' then ['\\', 't']
  else if c.toNat < 32 then ['\\', 'u', '0', '0', hexDigit (c.toNat / 16), hexDigit (c.toNat % 16)]
  else [c]

def quoted (text : List Char) : List Char := '"' :: text.flatMap escape ++ ['"']

def newline (depth : Nat) : List Char := '\n' :: List.replicate (2 * depth) ' '

def block (opening closing : Char) (depth : Nat) : List (List Char) → List Char
  | [] => [opening, closing]
  | first :: rest =>
      opening :: newline (depth + 1) ++ first ++ rest.flatMap (fun part => ',' :: newline (depth + 1) ++ part)
        ++ newline depth ++ [closing]

mutual
def print (depth : Nat) : Json → List Char
  | .null => ['n', 'u', 'l', 'l']
  | .bool true => ['t', 'r', 'u', 'e']
  | .bool false => ['f', 'a', 'l', 's', 'e']
  | .number written => written.toList
  | .text value => quoted (value.getD "").toList
  | .array items => block '[' ']' depth (printItems (depth + 1) items)
  | .object fields => block '\x7b' '\x7d' depth (printFields (depth + 1) fields)
def printItems (depth : Nat) : List Json → List (List Char)
  | [] => []
  | item :: rest => print depth item :: printItems depth rest
def printFields (depth : Nat) : List (Option String × Json) → List (List Char)
  | [] => []
  | (name, value) :: rest =>
      (quoted (name.getD "").toList ++ [':', ' '] ++ print depth value) :: printFields depth rest
end

def pretty (value : Json) : String := String.ofList (print 0 value)

end MetadataIndex.Json
