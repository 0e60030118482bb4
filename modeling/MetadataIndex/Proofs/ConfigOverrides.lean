import MetadataIndex.Config
import Mathlib.Data.List.TakeWhile

/-! Overriding a configuration from the environment. A flag is read from a text that is one of eight words
but for blanks at its ends and for capitals. The flags are taken in order: each that is given replaces its
field, and the first one that cannot be read stops the rest, so only the fields before it are replaced. -/
namespace MetadataIndex

namespace Text
variable {text word before after : List Char}

structure Trims (text word : List Char) : Prop where
  blanks : ∃ before after, text = before ++ (word ++ after) ∧ (∀ c ∈ before, isBlank c = true) ∧
    ∀ c ∈ after, isBlank c = true
  first : ∀ c, word.head? = some c → isBlank c = false
  last : ∀ c, word.getLast? = some c → isBlank c = false

theorem headAfterBlanks {c : Char} (head : (text.dropWhile isBlank).head? = some c) : isBlank c = false := by
  have shape := List.head?_dropWhile_not isBlank text
  rwa [head] at shape

theorem dropBlanks (blanks : ∀ c ∈ before, isBlank c = true) (solid : ∀ c, word.head? = some c → isBlank c = false)
    (rest : ∀ c ∈ after, isBlank c = true) :
    (before ++ (word ++ after)).dropWhile isBlank = if word = [] then [] else word ++ after := by
  rw [List.dropWhile_append_of_pos blanks]
  cases word with
  | nil => simpa using rest
  | cons c word =>
      have visible : ¬ isBlank c = true := Bool.eq_false_iff.1 (solid c rfl)
      rw [List.cons_append, List.dropWhile_cons_of_neg visible]
      simp

theorem trimmedBlanks (text : List Char) :
    trimmed text ++ ((text.dropWhile isBlank).reverse.takeWhile isBlank).reverse = text.dropWhile isBlank := by
  rw [trimmed, ← List.reverse_append, List.takeWhile_append_dropWhile, List.reverse_reverse]

theorem trimsTrimmed (text : List Char) : Trims text (trimmed text) where
  blanks := by
    refine ⟨text.takeWhile isBlank, ((text.dropWhile isBlank).reverse.takeWhile isBlank).reverse, ?_, ?_, ?_⟩
    · rw [trimmedBlanks, List.takeWhile_append_dropWhile]
    · exact fun c => List.mem_takeWhile_imp
    · exact fun c member => List.mem_takeWhile_imp (List.mem_reverse.1 member)
  first := by
    intro c head
    apply headAfterBlanks
    rw [← trimmedBlanks, List.head?_append, head, Option.some_or]
  last := by
    intro c last
    rw [trimmed, List.getLast?_reverse] at last
    exact headAfterBlanks last

theorem trimmedOfTrims (trims : Trims text word) : trimmed text = word := by
  obtain ⟨before, after, whole, leading, trailing⟩ := trims.blanks
  rw [trimmed, whole, dropBlanks leading trims.first trailing]
  split
  · next empty => rw [empty]; rfl
  · next filled =>
    have backwards : (after.reverse ++ (word.reverse ++ [])).dropWhile isBlank =
        if word.reverse = [] then [] else word.reverse ++ [] :=
      dropBlanks (fun c member => trailing c (List.mem_reverse.1 member))
        (fun c head => trims.last c (by rwa [List.head?_reverse] at head)) (by simp)
    rw [List.append_nil, if_neg (by simpa using filled)] at backwards
    rw [List.reverse_append, backwards, List.reverse_reverse]

theorem trimsIff : Trims text word ↔ trimmed text = word :=
  ⟨trimmedOfTrims, fun same => same ▸ trimsTrimmed text⟩

end Text

inductive Flag where
  | strict
  | parallelIngest
  | retainViews
  deriving DecidableEq, Repr

namespace Flag

def all : List Flag := [.strict, .parallelIngest, .retainViews]

def variableName : Flag → String
  | .strict => Config.strictVariable
  | .parallelIngest => Config.parallelIngestVariable
  | .retainViews => Config.retainViewsVariable

def words : Bool → List String
  | true => ["1", "true", "yes", "on"]
  | false => ["0", "false", "no", "off"]

def Spells (text : String) (value : Bool) : Prop :=
  ∃ word, Text.Trims text.toList word ∧ String.ofList (word.map Char.toLower) ∈ words value

theorem wordIff {word : String} {value : Bool} : Config.flag? word = some value ↔ word ∈ words value := by
  unfold Config.flag?
  cases value with
  | true =>
      split
      · next member => exact iff_of_true rfl member
      · next other =>
        refine iff_of_false ?_ other
        split <;> simp
  | false =>
      split
      · next member =>
        refine iff_of_false (by simp) ?_
        simp only [words, List.mem_cons, List.not_mem_nil, or_false] at member ⊢
        rcases member with rfl | rfl | rfl | rfl <;> decide
      · split
        · next member => exact iff_of_true rfl member
        · next other => exact iff_of_false (by simp) other

theorem spellsIff {text : String} {value : Bool} :
    Spells text value ↔ Config.flag? (Config.normalFlag text) = some value := by
  simp only [Spells, Text.trimsIff, wordIff, exists_eq_left', Config.normalFlag]

example : Spells " Yes\n" true := spellsIff.2 (by decide)

def Taken (environment : Environment) (f : Flag) (old value : Bool) : Prop :=
  environment f.variableName = none ∧ value = old ∨
    ∃ text, environment f.variableName = some text ∧ Spells text value

def Unread (environment : Environment) (f : Flag) (text : String) : Prop :=
  environment f.variableName = some text ∧ ∀ value, ¬ Spells text value

def complaint (f : Flag) (text : String) : String :=
  f.variableName ++ ": expected a boolean, got '" ++ Config.normalFlag text ++ "'"

variable {environment : Environment} {f g : Flag} {old value : Bool} {e : QueryError}

theorem takenIff : Config.flagFrom environment f.variableName old = .ok value ↔ f.Taken environment old value := by
  unfold Config.flagFrom Taken
  cases given : environment f.variableName with
  | none => simp [eq_comm]
  | some text =>
      simp only [spellsIff, reduceCtorEq, false_and, Option.some.injEq, exists_eq_left', false_or]
      cases read : Config.flag? (Config.normalFlag text) with
      | none => simp
      | some other => simp

theorem unreadIff : Config.flagFrom environment f.variableName old = .error e ↔
    ∃ text, f.Unread environment text ∧ e = .config (f.complaint text) := by
  unfold Config.flagFrom Unread
  cases given : environment f.variableName with
  | none => simp
  | some text =>
      simp only [spellsIff, Option.some.injEq, and_assoc, exists_eq_left']
      cases read : Config.flag? (Config.normalFlag text) with
      | none => simp [complaint, eq_comm]
      | some value => simp

theorem takenOnce {other : Bool} (one : f.Taken environment old value) (two : f.Taken environment old other) :
    value = other := by
  have same := (takenIff.2 one).symm.trans (takenIff.2 two)
  exact Except.ok.inj same

theorem unreadNotTaken {text : String} (unread : f.Unread environment text) : ¬ f.Taken environment old value := by
  intro taken
  have failed : Config.flagFrom environment f.variableName old = .error (.config (f.complaint text)) :=
    unreadIff.2 ⟨text, unread, rfl⟩
  cases (takenIff.2 taken).symm.trans failed

theorem memAll (f : Flag) : f ∈ all := by
  cases f <;> decide

end Flag

namespace Config
variable {environment : Environment} {c after : Config} {f g : Flag} {flags : List Flag} {value : Bool}

def flag (c : Config) : Flag → Bool
  | .strict => c.strict
  | .parallelIngest => c.parallelIngest
  | .retainViews => c.retainViews

def setFlag (c : Config) (value : Bool) : Flag → Config
  | .strict => { c with strict := value }
  | .parallelIngest => { c with parallelIngest := value }
  | .retainViews => { c with retainViews := value }

theorem flagSet : (c.setFlag value f).flag g = if f = g then value else c.flag g := by
  cases f <;> cases g <;> rfl

theorem logDirSet : (c.setFlag value f).logDir = c.logDir := by
  cases f <;> rfl

def takeFlags (environment : Environment) : List Flag → Config → Except QueryError Unit × Config
  | [], c => (.ok (), { c with logDir := (environment logDirVariable).or c.logDir })
  | f :: rest, c =>
      match flagFrom environment f.variableName (c.flag f) with
      | .error e => (.error e, c)
      | .ok value => takeFlags environment rest (c.setFlag value f)

theorem applyOverridesEq (environment : Environment) (c : Config) :
    c.applyOverrides environment = takeFlags environment Flag.all c := rfl

structure Takes (environment : Environment) (flags : List Flag) (c after : Config) : Prop where
  taken : ∀ f ∈ flags, f.Taken environment (c.flag f) (after.flag f)
  kept : ∀ f, f ∉ flags → after.flag f = c.flag f

theorem takesMore (fresh : f ∉ flags) (taken : f.Taken environment (c.flag f) value)
    (takes : Takes environment flags (c.setFlag value f) after) : Takes environment (f :: flags) c after where
  taken := by
    intro g member
    rcases List.mem_cons.1 member with rfl | later
    · rw [takes.kept g fresh, flagSet, if_pos rfl]
      exact taken
    · have apart : f ≠ g := fun same => fresh (same ▸ later)
      have next := takes.taken g later
      rwa [flagSet, if_neg apart] at next
  kept := by
    intro g absent
    rw [List.mem_cons, not_or] at absent
    rw [takes.kept g absent.2, flagSet, if_neg fun same => absent.1 same.symm]

inductive Ends (environment : Environment) (flags : List Flag) (c after : Config) : Except QueryError Unit → Prop where
  | whole (takes : Takes environment flags c after)
      (logDir : after.logDir = (environment logDirVariable).or c.logDir) : Ends environment flags c after (.ok ())
  | stopped {before rest : List Flag} {f : Flag} {text : String} (place : flags = before ++ f :: rest)
      (unread : f.Unread environment text) (takes : Takes environment before c after)
      (logDir : after.logDir = c.logDir) :
      Ends environment flags c after (.error (.config (f.complaint text)))

theorem endsMore {outcome : Except QueryError Unit} (fresh : f ∉ flags) (taken : f.Taken environment (c.flag f) value)
    (ends : Ends environment flags (c.setFlag value f) after outcome) :
    Ends environment (f :: flags) c after outcome := by
  cases ends with
  | whole takes logDir => exact .whole (takesMore fresh taken takes) (logDirSet (c := c) ▸ logDir)
  | stopped place unread takes logDir =>
      have freshBefore : f ∉ _ := fun member => fresh (place ▸ List.mem_append_left _ member)
      exact .stopped (congrArg (f :: ·) place) unread (takesMore freshBefore taken takes) (logDir.trans logDirSet)

theorem takeFlagsEnds (distinct : flags.Nodup) (c : Config) :
    Ends environment flags c (takeFlags environment flags c).2 (takeFlags environment flags c).1 := by
  induction flags generalizing c with
  | nil => exact .whole ⟨nofun, fun f _ => by cases f <;> rfl⟩ rfl
  | cons f rest ih =>
      obtain ⟨fresh, distinct⟩ := List.nodup_cons.1 distinct
      unfold takeFlags
      cases read : flagFrom environment f.variableName (c.flag f) with
      | error e =>
          obtain ⟨text, unread, rfl⟩ := Flag.unreadIff.1 read
          have untouched : Takes environment [] c c := ⟨nofun, fun _ _ => rfl⟩
          exact .stopped rfl unread untouched rfl
      | ok value => exact endsMore fresh (Flag.takenIff.1 read) (ih distinct _)

theorem overridesEnd (environment : Environment) (c : Config) :
    Ends environment Flag.all c (c.applyOverrides environment).2 (c.applyOverrides environment).1 := by
  rw [applyOverridesEq]
  exact takeFlagsEnds (by decide) c

theorem sameFields (flags : ∀ f, c.flag f = after.flag f) (logDir : c.logDir = after.logDir) : c = after := by
  obtain ⟨strict, parallelIngest, retainViews, directory⟩ := c
  obtain rfl : strict = after.strict := flags .strict
  obtain rfl : parallelIngest = after.parallelIngest := flags .parallelIngest
  obtain rfl : retainViews = after.retainViews := flags .retainViews
  obtain rfl : directory = after.logDir := logDir
  rfl

theorem overridesSucceed : (c.applyOverrides environment).1 = .ok () ↔
    ∀ f : Flag, ∀ text, environment f.variableName = some text → ∃ value, Flag.Spells text value := by
  have ends := overridesEnd environment c
  generalize c.applyOverrides environment = result at ends
  obtain ⟨outcome, reached⟩ := result
  cases ends with
  | whole takes _ =>
      refine iff_of_true rfl fun f text given => ?_
      rcases takes.taken f f.memAll with ⟨unset, _⟩ | ⟨text', given', spells⟩
      · cases unset.symm.trans given
      · obtain rfl := Option.some.inj (given.symm.trans given')
        exact ⟨_, spells⟩
  | stopped _ unread _ _ =>
      refine iff_of_false (by simp) fun readable => ?_
      obtain ⟨value, spells⟩ := readable _ _ unread.1
      exact unread.2 value spells

theorem overridesWhole : c.applyOverrides environment = (.ok (), after) ↔
    (∀ f : Flag, f.Taken environment (c.flag f) (after.flag f)) ∧
      after.logDir = (environment logDirVariable).or c.logDir := by
  have ends := overridesEnd environment c
  generalize c.applyOverrides environment = result at ends
  obtain ⟨outcome, reached⟩ := result
  cases ends with
  | whole takes logDir =>
      constructor
      · rintro ⟨⟩
        exact ⟨fun f => takes.taken f f.memAll, logDir⟩
      · intro ⟨taken, directory⟩
        have same : reached = after :=
          sameFields (fun f => Flag.takenOnce (takes.taken f f.memAll) (taken f)) (logDir.trans directory.symm)
        rw [same]
  | stopped _ unread _ _ => exact iff_of_false (by simp) fun ⟨taken, _⟩ => Flag.unreadNotTaken unread (taken _)

end Config
end MetadataIndex
