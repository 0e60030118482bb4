import MetadataIndex.Proofs.ConfigOverrides
import MetadataIndex.Proofs.GivenFields

/-! A configuration in its three layers. A file describes one when it is a record whose given fields are of
their kinds: fields that are not given have their defaults, others do not count, and the order of the names in
an object is free. What a load answers is told field by field from the environment, the file and the defaults.
A file that describes none is refused whatever the environment. -/
namespace MetadataIndex

def Flag.fieldName : Flag → String
  | .strict => "strict"
  | .parallelIngest => "parallel_ingest"
  | .retainViews => "retain_views"

namespace Config
variable {value : Json} {c : Config}

def logDirName : String := "log_dir"

def fieldNames : List String := Flag.all.map Flag.fieldName ++ [logDirName]

def IsFlag (value : Json) (b : Bool) : Prop := value = .bool b

inductive IsLogDir : Json → Option String → Prop where
  | null : IsLogDir .null none
  | text (directory : String) : IsLogDir (.text (some directory)) (some directory)

structure Describes (value : Json) (c : Config) : Prop where
  isRecord : value.IsRecord fieldNames
  flags : ∀ f : Flag, value.Settles fieldNames f.fieldName IsFlag (flag {} f) (c.flag f)
  logDir : value.Settles fieldNames logDirName IsLogDir none c.logDir

theorem readFlag {b : Bool} : value.asBool = some b ↔ IsFlag value b := by
  cases value <;> simp [Json.asBool, IsFlag]

theorem readDirectory {directory : Option String} : readLogDir value = some directory ↔ IsLogDir value directory := by
  constructor
  · intro read
    match value with
    | .null => cases read; exact .null
    | .text (some t) => cases read; exact .text t
    | .text none | .bool _ | .number _ | .array _ | .object _ => cases read
  · rintro (_ | _) <;> rfl

theorem forallFlags {P : Flag → Prop} : (∀ f, P f) ↔ P .strict ∧ P .parallelIngest ∧ P .retainViews :=
  ⟨fun each => ⟨each _, each _, each _⟩, fun ⟨one, two, three⟩ f => by cases f <;> assumption⟩

theorem fieldsDescribe {given : List (Option Json)} (read : value.recordFields fieldNames = some given)
    (finds : List.Forall₂ (value.Finds fieldNames) fieldNames given) : ofJson? value = some c ↔
      (∀ f : Flag, value.Settles fieldNames f.fieldName IsFlag (flag {} f) (c.flag f)) ∧
        value.Settles fieldNames logDirName IsLogDir none c.logDir := by
  rcases finds with _ | ⟨strict, _ | ⟨parallelIngest, _ | ⟨retainViews, _ | ⟨logDir, _ | _⟩⟩⟩⟩
  rw [← Json.settlesIff readDirectory logDir, forallFlags, ← Json.settlesIff readFlag strict,
    ← Json.settlesIff readFlag parallelIngest, ← Json.settlesIff readFlag retainViews]
  rw [ofJson?, show ["strict", "parallel_ingest", "retain_views", "log_dir"] = fieldNames from rfl, read]
  obtain ⟨strict, parallelIngest, retainViews, logDir⟩ := c
  simp only [Option.bind_eq_bind, Option.bind_some, Option.bind_eq_some_iff, Option.some.injEq, Config.mk.injEq]
  constructor
  · rintro ⟨_, one, _, two, _, three, _, four, rfl, rfl, rfl, rfl⟩
    exact ⟨⟨one, two, three⟩, four⟩
  · intro ⟨⟨one, two, three⟩, four⟩
    exact ⟨_, one, _, two, _, three, _, four, rfl, rfl, rfl, rfl⟩

theorem describesIff : ofJson? value = some c ↔ Describes value c := by
  have distinct : fieldNames.Nodup := by decide
  constructor
  · intro made
    have fields : ∃ given, value.recordFields fieldNames = some given := by
      cases read : value.recordFields fieldNames with
      | some given => exact ⟨given, rfl⟩
      | none => cases made.symm.trans (congrArg (Option.bind · _) read)
    obtain ⟨given, read⟩ := fields
    obtain ⟨isRecord, finds⟩ := Json.recordFound distinct read
    obtain ⟨flags, logDir⟩ := (fieldsDescribe read finds).1 made
    exact ⟨isRecord, flags, logDir⟩
  · intro describes
    obtain ⟨given, read⟩ := Json.recordRead describes.isRecord
    exact (fieldsDescribe read (Json.recordFound distinct read).2).2 ⟨describes.flags, describes.logDir⟩

theorem describesSame {other : Json} (records : value.IsRecord fieldNames ↔ other.IsRecord fieldNames)
    (gives : ∀ name ∈ fieldNames, ∀ v, value.Gives fieldNames name v ↔ other.Gives fieldNames name v) :
    ofJson? value = ofJson? other := by
  have settles {α : Type} {Means : Json → α → Prop} {fallback x : α} {name : String} (known : name ∈ fieldNames) :
      value.Settles fieldNames name Means fallback x ↔ other.Settles fieldNames name Means fallback x := by
    simp only [Json.Settles, gives name known]
  have known (f : Flag) : f.fieldName ∈ fieldNames := List.mem_append_left _ (List.mem_map_of_mem f.memAll)
  refine Option.ext fun c => describesIff.trans (Iff.trans ?_ describesIff.symm)
  constructor
  · rintro ⟨isRecord, flags, logDir⟩
    exact ⟨records.1 isRecord, fun f => (settles (known f)).1 (flags f), (settles (by decide)).1 logDir⟩
  · rintro ⟨isRecord, flags, logDir⟩
    exact ⟨records.2 isRecord, fun f => (settles (known f)).2 (flags f), (settles (by decide)).2 logDir⟩

theorem fieldsReordered {fields others : List (Option String × Json)} (reordered : fields.Perm others) :
    ofJson? (.object fields) = ofJson? (.object others) := by
  refine describesSame ?_ fun name _ v => reordered.mem_iff
  simp only [Json.IsRecord, reordered.mem_iff, (reordered.filter _).length_eq]

theorem fieldUnknown {fields : List (Option String × Json)} {name : String} (unknown : name ∉ fieldNames) :
    ofJson? (.object ((some name, value) :: fields)) = ofJson? (.object fields) := by
  have apart {known : String} (member : known ∈ fieldNames) : name ≠ known := fun same => unknown (same ▸ member)
  refine describesSame ?_ fun known member v => ?_
  · simp only [Json.IsRecord, List.forall_mem_cons, Option.isSome_some, true_and]
    refine and_congr_right fun _ => forall₂_congr fun known member => ?_
    rw [List.filter_cons_of_neg (by simpa using apart member)]
  · simp [Json.Gives, (apart member).symm]

end Config

inductive ConfigFile.Reads : ConfigFile → Except QueryError Config → Prop where
  | unset : Reads .unset (.ok {})
  | missing : Reads .missing (.error .file)
  | undecoded {bytes : ByteArray} (decoded : String.fromUTF8? bytes = none) : Reads (.content bytes) (.error .file)
  | undescribed {bytes : ByteArray} {text : String} (decoded : String.fromUTF8? bytes = some text)
      (nothing : ∀ value c, Json.parse text = some value → ¬ Config.Describes value c) :
      Reads (.content bytes) (.error .json)
  | described {bytes : ByteArray} {text : String} {value : Json} {c : Config}
      (decoded : String.fromUTF8? bytes = some text) (parsed : Json.parse text = some value)
      (describes : Config.Describes value c) : Reads (.content bytes) (.ok c)

namespace Config
variable {c : Config} {file : ConfigFile} {environment : Environment} {e : QueryError}

theorem fileReads (file : ConfigFile) : file.Reads (ofFile file) := by
  match file with
  | .unset => exact .unset
  | .missing => exact .missing
  | .content bytes =>
      rw [ofFile]
      cases decoded : String.fromUTF8? bytes with
      | none => exact .undecoded decoded
      | some text =>
          dsimp only
          cases made : (Json.parse text).bind ofJson? with
          | none =>
              refine .undescribed decoded fun value c parsed describes => ?_
              rw [parsed, Option.bind_some, describesIff.2 describes] at made
              cases made
          | some c =>
              obtain ⟨value, parsed, made⟩ := Option.bind_eq_some_iff.1 made
              exact .described decoded parsed (describesIff.1 made)

theorem readsIff {outcome : Except QueryError Config} : ofFile file = outcome ↔ file.Reads outcome := by
  refine ⟨fun same => same ▸ fileReads file, fun reads => ?_⟩
  cases reads with
  | unset | missing => rfl
  | undecoded decoded => simp only [ofFile, decoded]
  | undescribed decoded nothing =>
      have unread : (Json.parse _).bind ofJson? = none :=
        Option.bind_eq_none_iff.2 fun value parsed =>
          Option.eq_none_iff_forall_ne_some.2 fun c made => nothing value c parsed (describesIff.1 made)
      simp only [ofFile, decoded, unread]
  | described decoded parsed describes =>
      simp only [ofFile, decoded, parsed, Option.bind_some, describesIff.2 describes]

theorem loadOk : load file environment = .ok c ↔
    ∃ base, file.Reads (.ok base) ∧ base.applyOverrides environment = (.ok (), c) := by
  simp only [← readsIff, load]
  cases ofFile file with
  | error e => simp [bind, Except.bind]
  | ok base =>
      simp only [bind, Except.bind, Except.ok.injEq, exists_eq_left']
      generalize base.applyOverrides environment = result
      obtain ⟨_ | _, reached⟩ := result <;> simp

theorem loadError : load file environment = .error e ↔ file.Reads (.error e) ∨
    ∃ base, file.Reads (.ok base) ∧ (base.applyOverrides environment).1 = .error e := by
  simp only [← readsIff, load]
  cases ofFile file with
  | error e => simp [bind, Except.bind]
  | ok base =>
      simp only [bind, Except.bind, Except.ok.injEq, exists_eq_left', reduceCtorEq, false_or]
      generalize base.applyOverrides environment = result
      obtain ⟨_ | _, reached⟩ := result <;> simp

structure Layers (environment : Environment) (file : ConfigFile) : Prop where
  succeeds : ∀ c : Config, (c.applyOverrides environment).1 = .ok () ↔
    ∀ f : Flag, ∀ text, environment f.variableName = some text → ∃ value, Flag.Spells text value
  ends : ∀ c : Config, Ends environment Flag.all c (c.applyOverrides environment).2 (c.applyOverrides environment).1
  loaded : ∀ c, load file environment = .ok c ↔ ∃ base, file.Reads (.ok base) ∧
    (∀ f : Flag, f.Taken environment (base.flag f) (c.flag f)) ∧
    c.logDir = (environment logDirVariable).or base.logDir
  fails : ∀ e, load file environment = .error e ↔ file.Reads (.error e) ∨
    ∃ base, file.Reads (.ok base) ∧ (base.applyOverrides environment).1 = .error e
  refused : (∀ base, ¬ file.Reads (.ok base)) →
    ∃ e, (e = .file ∨ e = .json) ∧ ∀ other, load file other = .error e
  anyOrder : ∀ {fields others : List (Option String × Json)}, fields.Perm others →
    ofJson? (.object fields) = ofJson? (.object others)
  unknown : ∀ {fields : List (Option String × Json)} {name : String} {value : Json}, name ∉ fieldNames →
    ofJson? (.object ((some name, value) :: fields)) = ofJson? (.object fields)

theorem fileRefused (nothing : ∀ base, ¬ file.Reads (.ok base)) :
    ∃ e, (e = .file ∨ e = .json) ∧ ∀ other, load file other = .error e := by
  have reads := fileReads file
  generalize ofFile file = outcome at reads
  cases outcome with
  | ok base => exact absurd reads (nothing base)
  | error e =>
      refine ⟨e, ?_, fun other => loadError.2 (.inl reads)⟩
      cases reads with
      | missing | undecoded _ => exact .inl rfl
      | undescribed _ _ => exact .inr rfl

theorem layersApply (environment : Environment) (file : ConfigFile) : Layers environment file where
  succeeds _ := overridesSucceed
  ends := overridesEnd environment
  loaded _ := by simp only [loadOk, overridesWhole]
  fails _ := loadError
  refused := fileRefused
  anyOrder := fieldsReordered
  unknown := fieldUnknown

end Config
end MetadataIndex
