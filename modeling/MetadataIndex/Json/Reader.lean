import MetadataIndex.Json.Basic
import MetadataIndex.Json.Lexer

/-! Reading one value from the tokens of an input. The reader keeps the arrays and objects it is
inside of and what may come next, takes one token at a time, and so reads values of any depth. A
comma stands between items only, and nothing follows the value. -/
namespace MetadataIndex.Json

inductive Frame where
  | items (done : List Json)
  | fields (done : List (Option String × Json))
  | entry (done : List (Option String × Json)) (name : Option String)
  deriving Repr

inductive Expect where
  | value
  | valueOrClose
  | nameOrClose
  | name
  | colon
  | commaOrClose
  | nothing (value : Json)
  deriving Repr

structure Reading where
  expect : Expect
  frames : List Frame
  deriving Repr

namespace Reading

def complete (value : Json) : List Frame → Reading
  | [] => ⟨.nothing value, []⟩
  | .items done :: outer => ⟨.commaOrClose, .items (value :: done) :: outer⟩
  | .entry done name :: outer => ⟨.commaOrClose, .fields ((name, value) :: done) :: outer⟩
  | .fields done :: outer => ⟨.commaOrClose, .fields done :: outer⟩

def start (frames : List Frame) : Token → Option Reading
  | .openBrace => some ⟨.nameOrClose, .fields [] :: frames⟩
  | .openBracket => some ⟨.valueOrClose, .items [] :: frames⟩
  | .null => some (complete .null frames)
  | .bool value => some (complete (.bool value) frames)
  | .number written => some (complete (.number written) frames)
  | .text value => some (complete (.text value) frames)
  | .closeBrace | .closeBracket | .comma | .colon => none

def closeArray : List Frame → Option Reading
  | .items done :: outer => some (complete (.array done.reverse) outer)
  | _ => none

def closeObject : List Frame → Option Reading
  | .fields done :: outer => some (complete (.object done.reverse) outer)
  | _ => none

def takeName (name : Option String) : List Frame → Option Reading
  | .fields done :: outer => some ⟨.colon, .entry done name :: outer⟩
  | _ => none

def takeComma : List Frame → Option Reading
  | .items done :: outer => some ⟨.value, .items done :: outer⟩
  | .fields done :: outer => some ⟨.name, .fields done :: outer⟩
  | _ => none

def step (r : Reading) (token : Token) : Option Reading :=
  match r.expect, token with
  | .value, token => start r.frames token
  | .valueOrClose, .closeBracket => closeArray r.frames
  | .valueOrClose, token => start r.frames token
  | .nameOrClose, .closeBrace => closeObject r.frames
  | .nameOrClose, .text name | .name, .text name => takeName name r.frames
  | .colon, .colon => some ⟨.value, r.frames⟩
  | .commaOrClose, .comma => takeComma r.frames
  | .commaOrClose, .closeBracket => closeArray r.frames
  | .commaOrClose, .closeBrace => closeObject r.frames
  | _, _ => none

def run : Reading → List Token → Option Reading
  | r, [] => some r
  | r, token :: rest => do
      let r ← r.step token
      r.run rest

end Reading

def ofTokens (input : List Token) : Option Json := do
  let r ← Reading.run ⟨.value, []⟩ input
  match r.expect with
  | .nothing value => some value
  | _ => none

def parse (input : String) : Option Json := do
  let input ← tokens input.toList
  ofTokens input

end MetadataIndex.Json
