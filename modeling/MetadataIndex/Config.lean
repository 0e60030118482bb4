import MetadataIndex.Error
import MetadataIndex.Json.Reader

/-! Configuration: defaults, then the file named by the environment, then one environment variable
for each field. A flag is read without the blanks at its ends, which are the characters with the Unicode
property of white space. A flag that cannot be read stops the overrides, and the fields before it keep
their new values. A file that cannot be read fails before any override is looked at. -/
namespace MetadataIndex

structure Config where
  strict : Bool := false
  /-- Derive contributions of several modules at once, which leaves the order of answers open. -/
  parallelIngest : Bool := true
  retainViews : Bool := true
  logDir : Option String := none
  deriving DecidableEq, Repr

abbrev Environment := String → Option String

inductive ConfigFile where
  | unset
  | missing
  | content (bytes : ByteArray)

namespace Text

def blankRanges : List (Nat × Nat) :=
  [(0x9, 0xD), (0x20, 0x20), (0x85, 0x85), (0xA0, 0xA0), (0x1680, 0x1680), (0x2000, 0x200A),
   (0x2028, 0x2029), (0x202F, 0x202F), (0x205F, 0x205F), (0x3000, 0x3000)]

def isBlank (c : Char) : Bool := blankRanges.any fun (low, high) => low ≤ c.toNat && c.toNat ≤ high

def trimmed (text : List Char) : List Char :=
  ((text.dropWhile isBlank).reverse.dropWhile isBlank).reverse

end Text

namespace Config

def strictVariable : String := "RETRIEVE_STRICT"
def parallelIngestVariable : String := "RETRIEVE_PARALLEL_INGEST"
def retainViewsVariable : String := "RETRIEVE_RETAIN_VIEWS"
def logDirVariable : String := "RETRIEVE_LOG_DIR"

def normalFlag (text : String) : String :=
  String.ofList ((Text.trimmed text.toList).map Char.toLower)

def flag? (text : String) : Option Bool :=
  if text ∈ ["1", "true", "yes", "on"] then some true
  else if text ∈ ["0", "false", "no", "off"] then some false
  else none

def flagFrom (environment : Environment) (variableName : String) (old : Bool) :
    Except QueryError Bool :=
  match environment variableName with
  | none => .ok old
  | some text =>
      match flag? (normalFlag text) with
      | some value => .ok value
      | none =>
          .error (.config (variableName ++ ": expected a boolean, got '" ++ normalFlag text ++ "'"))

def applyOverrides (environment : Environment) (c : Config) : Except QueryError Unit × Config :=
  match flagFrom environment strictVariable c.strict with
  | .error e => (.error e, c)
  | .ok strict =>
      let c := { c with strict }
      match flagFrom environment parallelIngestVariable c.parallelIngest with
      | .error e => (.error e, c)
      | .ok parallelIngest =>
          let c := { c with parallelIngest }
          match flagFrom environment retainViewsVariable c.retainViews with
          | .error e => (.error e, c)
          | .ok retainViews =>
              let c := { c with retainViews }
              (.ok (), { c with logDir := (environment logDirVariable).or c.logDir })

def readLogDir : Json → Option (Option String)
  | .null => some none
  | value => value.asText.map some

def ofJson? (value : Json) : Option Config := do
  match ← value.recordFields ["strict", "parallel_ingest", "retain_views", "log_dir"] with
  | [strict, parallelIngest, retainViews, logDir] =>
      let strict ← Json.fieldOr false Json.asBool strict
      let parallelIngest ← Json.fieldOr true Json.asBool parallelIngest
      let retainViews ← Json.fieldOr true Json.asBool retainViews
      let logDir ← Json.fieldOr none readLogDir logDir
      some { strict, parallelIngest, retainViews, logDir }
  | _ => none

def ofFile : ConfigFile → Except QueryError Config
  | .unset => .ok {}
  | .missing => .error .file
  | .content bytes =>
      match String.fromUTF8? bytes with
      | none => .error .file
      | some text =>
          match (Json.parse text).bind ofJson? with
          | none => .error .json
          | some c => .ok c

def load (file : ConfigFile) (environment : Environment) : Except QueryError Config := do
  let c ← ofFile file
  let (outcome, c) := c.applyOverrides environment
  outcome
  .ok c

end Config

def defaultLogDir (home : String) : String :=
  if home.toList.getLast? = some '/' then home ++ ".retrieve/logs" else home ++ "/.retrieve/logs"

end MetadataIndex
