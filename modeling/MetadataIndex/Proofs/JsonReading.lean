import MetadataIndex.Json.Printer
import MetadataIndex.Json.Reader

/-! What is printed is read back, whatever the indent and whatever follows. A text is read back one
escape at a time; an array or an object by one loop over the parts after its first. Values that hold
numbers or texts without characters are left out: they are printed as they stand. -/
namespace MetadataIndex.Json

inductive Printable : Json → Prop where
  | null : Printable .null
  | bool (value : Bool) : Printable (.bool value)
  | text (value : String) : Printable (.text (some value))
  | array {items : List Json} (each : ∀ item ∈ items, Printable item) : Printable (.array items)
  | object {fields : List (Option String × Json)} (named : ∀ f ∈ fields, ∃ name, f.1 = some name)
      (each : ∀ f ∈ fields, Printable f.2) : Printable (.object fields)

/-! Texts -/

def pieceOf (c : Char) : Piece :=
  if 32 ≤ c.toNat ∨ c ∈ ['\x08', '\x0c', '\n', '\r', '\t'] then .char c else .unit c.toNat

theorem hexValueDigit : ∀ n < 16, hexValue (hexDigit n) = some n := by decide

theorem unitValueDigits {n : Nat} (small : n < 256) :
    unitValue '0' '0' (hexDigit (n / 16)) (hexDigit (n % 16)) = some n := by
  have zero : hexValue '0' = some 0 := by decide
  simp only [unitValue, zero, hexValueDigit (n / 16) (by omega), hexValueDigit (n % 16) (by omega), bind,
    Option.bind_some, Option.some.injEq]
  omega

def pushPiece (piece : Piece) (scanned : List Piece × List Char) : List Piece × List Char :=
  (piece :: scanned.1, scanned.2)

theorem scanPlain {c : Char} (rest : List Char) (quote : c ≠ '"') (backslash : c ≠ '\\') (printed : 32 ≤ c.toNat) :
    scanText (c :: rest) = (scanText rest).map (pushPiece (.char c)) := by
  have allowed : ¬ (decide (c = '\\') || decide (c.toNat < 32)) = true := by simp [backslash, printed]
  rw [scanText]
  · rw [if_neg allowed]
    cases scanText rest <;> rfl
  all_goals simp_all

theorem scanShort {c meant : Char} (rest : List Char) (known : shortEscape c = some meant) (plain : c ≠ 'u') :
    scanText ('\\' :: c :: rest) = (scanText rest).map (pushPiece (.char meant)) := by
  rw [scanText]
  · rw [known]
    cases scanText rest <;> rfl
  all_goals simp_all

theorem scanUnit {n : Nat} (rest : List Char) (small : n < 256) :
    scanText ('\\' :: 'u' :: '0' :: '0' :: hexDigit (n / 16) :: hexDigit (n % 16) :: rest) =
      (scanText rest).map (pushPiece (.unit n)) := by
  rw [scanText, unitValueDigits small]
  cases scanText rest <;> rfl

theorem scanEscape (c : Char) (rest : List Char) :
    scanText (escape c ++ rest) = (scanText rest).map (pushPiece (pieceOf c)) := by
  by_cases short : c ∈ ['"', '\\', '\x08', '\x0c', '\n', '\r', '\t']
  · simp only [List.mem_cons, List.not_mem_nil, or_false] at short
    rcases short with rfl | rfl | rfl | rfl | rfl | rfl | rfl <;> exact scanShort rest (by decide) (by decide)
  · simp only [List.mem_cons, List.not_mem_nil, or_false, not_or] at short
    obtain ⟨quote, backslash, b, f, n, r, t⟩ := short
    by_cases printed : 32 ≤ c.toNat
    · have piece : pieceOf c = .char c := if_pos (.inl printed)
      have written : escape c = [c] := by
        simp only [escape, quote, backslash, b, f, n, r, t, Nat.not_lt.2 printed, if_false]
      rw [piece, written]
      exact scanPlain rest quote backslash printed
    · have piece : pieceOf c = .unit c.toNat := by simp [pieceOf, printed, b, f, n, r, t]
      have written : escape c = ['\\', 'u', '0', '0', hexDigit (c.toNat / 16), hexDigit (c.toNat % 16)] := by
        simp only [escape, quote, backslash, b, f, n, r, t, Nat.lt_of_not_le printed, if_false, if_true]
      rw [piece, written]
      exact scanUnit rest (by omega)

theorem scanEscapes (text rest : List Char) :
    scanText (text.flatMap escape ++ '"' :: rest) = some (text.map pieceOf, rest) := by
  induction text with
  | nil => rw [List.flatMap_nil, List.nil_append, scanText, List.map_nil]
  | cons c text ih =>
      rw [List.flatMap_cons, List.append_assoc, scanEscape, ih]
      rfl

theorem joinPieceOf (text : List Char) : joinPieces (text.map pieceOf) = some text := by
  induction text with
  | nil => rfl
  | cons c text ih =>
      rw [List.map_cons, pieceOf]
      split
      · rw [joinPieces, ih]
        rfl
      · next control =>
        have low : c.toNat < 0xD800 := by omega
        rw [joinPieces.eq_def]
        simp only [low, decide_true, Bool.true_or, if_true, ih, Char.ofNat_toNat, Option.map_some]

theorem scanQuoted (value : String) (rest : List Char) :
    scanToken (quoted value.toList ++ rest) = some (.text (some value), rest) := by
  have whole : quoted value.toList ++ rest = '"' :: (value.toList.flatMap escape ++ '"' :: rest) := by
    simp [quoted]
  rw [whole, scanToken, scanEscapes]
  simp only [bind, Option.bind, joinPieceOf, Option.map_some, String.ofList_toList]

/-! Tokens taken one at a time -/

def scan (r : Reading) (input : List Char) : Option Reading := (tokens input).bind r.run

variable {r : Reading} {frames : List Frame} {rest : List Char} {token : Token} {c : Char} {e : Expect}

theorem scanGap (gap : isGap c = true) : scan r (c :: rest) = scan r rest := by
  rw [scan, tokens, if_pos gap]
  rfl

theorem scanNewline (depth : Nat) : scan r (newline depth ++ rest) = scan r rest := by
  rw [newline, List.cons_append, scanGap (by decide)]
  induction 2 * depth with
  | zero => rfl
  | succ n ih => rw [List.replicate_succ, List.cons_append, scanGap (by decide), ih]

theorem scanFirst {next : Reading} {input : List Char} (solid : isGap c = false)
    (first : scanToken (c :: input) = some (token, rest)) (taken : r.step token = some next) :
    scan r (c :: input) = scan next rest := by
  have whole : tokens (c :: input) = (tokens rest).map (token :: ·) := by
    rw [tokens, if_neg (by simp [solid])]
    split
    · next none => cases first.symm.trans none
    · next same =>
      cases first.symm.trans same
      rfl
  rw [scan, whole, scan]
  cases tokens rest with
  | none => rfl
  | some more =>
      rw [Option.map_some, Option.bind_some, Option.bind_some, Reading.run, taken]
      rfl

/-! A value is read where a value may stand, and the reading goes on behind it. -/

def Expect.takesValue : Expect → Bool
  | .value | .valueOrClose => true
  | _ => false

theorem stepValue (takes : e.takesValue = true) (opens : token ≠ .closeBracket) :
    (⟨e, frames⟩ : Reading).step token = Reading.start frames token := by
  cases e with
  | value => rfl
  | valueOrClose => cases token <;> first | rfl | exact absurd rfl opens
  | _ => cases takes

def ReadBack (v : Json) : Prop :=
  ∀ (depth : Nat) (e : Expect) (frames : List Frame) (rest : List Char), e.takesValue = true →
    scan ⟨e, frames⟩ (print depth v ++ rest) = scan (Reading.complete v frames) rest

theorem printItemsMap (depth : Nat) (items : List Json) : printItems depth items = items.map (print depth) := by
  induction items with
  | nil => rfl
  | cons item rest ih => rw [printItems, ih, List.map_cons]

def printField (depth : Nat) (field : Option String × Json) : List Char :=
  quoted (field.1.getD "").toList ++ [':', ' '] ++ print depth field.2

theorem printFieldsMap (depth : Nat) (fields : List (Option String × Json)) :
    printFields depth fields = fields.map (printField depth) := by
  induction fields with
  | nil => rfl
  | cons field rest ih => rw [printFields, ih, List.map_cons, printField]

theorem readText (value : String) : ReadBack (.text (some value)) := by
  intro depth e frames rest takes
  rw [print, Option.getD_some]
  exact scanFirst (by decide) (scanQuoted value rest) (stepValue takes (by simp))

theorem readNull : ReadBack .null := fun _ _ _ _ takes => scanFirst (by decide) rfl (stepValue takes (by simp))

theorem readBool (value : Bool) : ReadBack (.bool value) := by
  intro depth e frames rest takes
  cases value with
  | true => exact scanFirst (by decide) rfl (stepValue takes (by simp))
  | false => exact scanFirst (by decide) rfl (stepValue takes (by simp))

/-! Arrays and objects. After the first part, each step of the loop takes a comma and a part. -/

def tailParts (depth : Nat) (parts : List (List Char)) : List Char :=
  parts.flatMap fun part => ',' :: newline depth ++ part

theorem scanComma {next : Reading} (depth : Nat) (taken : r.step .comma = some next) :
    scan r (',' :: newline depth ++ rest) = scan next rest := by
  rw [List.cons_append]
  exact (scanFirst (by decide) rfl taken).trans (scanNewline depth)

theorem blockParts {opening closing : Char} (depth : Nat) (first : List Char) (parts : List (List Char)) :
    block opening closing depth (first :: parts) ++ rest =
      opening :: (newline (depth + 1) ++
        (first ++ (tailParts (depth + 1) parts ++ (newline depth ++ closing :: rest)))) := by
  simp [block, tailParts]

theorem readItems {items : List Json} (each : ∀ item ∈ items, ReadBack item) (depth : Nat) (done : List Json) :
    scan ⟨.commaOrClose, .items done :: frames⟩ (tailParts depth (items.map (print depth)) ++ rest) =
      scan ⟨.commaOrClose, .items (items.reverse ++ done) :: frames⟩ rest := by
  induction items generalizing done with
  | nil => rfl
  | cons item items ih =>
      rw [List.forall_mem_cons] at each
      rw [List.map_cons, tailParts, List.flatMap_cons, List.append_assoc, List.append_assoc, scanComma depth rfl]
      rw [each.1 depth .value _ _ rfl, Reading.complete, ← tailParts, ih each.2, List.reverse_cons,
        List.append_assoc]
      rfl

theorem readArray {items : List Json} (each : ∀ item ∈ items, ReadBack item) : ReadBack (.array items) := by
  intro depth e frames rest takes
  rw [print, printItemsMap]
  cases items with
  | nil =>
      refine (scanFirst (by decide) rfl (stepValue takes (by simp))).trans ?_
      exact scanFirst (by decide) rfl rfl
  | cons first items =>
      rw [List.forall_mem_cons] at each
      rw [List.map_cons, blockParts]
      refine (scanFirst (by decide) rfl (stepValue takes (by simp))).trans ?_
      rw [scanNewline, each.1 _ _ _ _ rfl, Reading.complete, readItems each.2, scanNewline]
      refine (scanFirst (by decide) rfl rfl).trans ?_
      simp

theorem readField {name : String} {value : Json} (back : ReadBack value) (depth : Nat)
    (done : List (Option String × Json)) (takes : e = .nameOrClose ∨ e = .name) :
    scan ⟨e, .fields done :: frames⟩ (printField depth (some name, value) ++ rest) =
      scan ⟨.commaOrClose, .fields ((some name, value) :: done) :: frames⟩ rest := by
  have named : (⟨e, .fields done :: frames⟩ : Reading).step (.text (some name)) =
      some ⟨.colon, .entry done (some name) :: frames⟩ := by
    rcases takes with rfl | rfl <;> rfl
  rw [printField, Option.getD_some, List.append_assoc, List.append_assoc]
  refine (scanFirst (by decide) (scanQuoted name _) named).trans ?_
  refine (scanFirst (by decide) rfl rfl).trans ?_
  refine (scanGap (by decide)).trans ?_
  exact back depth .value _ rest rfl

theorem readFields {fields : List (Option String × Json)} (named : ∀ f ∈ fields, ∃ name, f.1 = some name)
    (each : ∀ f ∈ fields, ReadBack f.2) (depth : Nat) (done : List (Option String × Json)) :
    scan ⟨.commaOrClose, .fields done :: frames⟩ (tailParts depth (fields.map (printField depth)) ++ rest) =
      scan ⟨.commaOrClose, .fields (fields.reverse ++ done) :: frames⟩ rest := by
  induction fields generalizing done with
  | nil => rfl
  | cons field fields ih =>
      rw [List.forall_mem_cons] at named each
      obtain ⟨⟨name, same⟩, others⟩ := named
      obtain ⟨_, value⟩ := field
      subst same
      rw [List.map_cons, tailParts, List.flatMap_cons, List.append_assoc, List.append_assoc, scanComma depth rfl]
      rw [readField each.1 depth done (.inr rfl), ← tailParts, ih others each.2, List.reverse_cons,
        List.append_assoc]
      rfl

theorem readObject {fields : List (Option String × Json)} (named : ∀ f ∈ fields, ∃ name, f.1 = some name)
    (each : ∀ f ∈ fields, ReadBack f.2) : ReadBack (.object fields) := by
  intro depth e frames rest takes
  rw [print, printFieldsMap]
  cases fields with
  | nil =>
      refine (scanFirst (by decide) rfl (stepValue takes (by simp))).trans ?_
      exact scanFirst (by decide) rfl rfl
  | cons first fields =>
      rw [List.forall_mem_cons] at named each
      obtain ⟨⟨name, same⟩, others⟩ := named
      obtain ⟨_, value⟩ := first
      subst same
      rw [List.map_cons, blockParts]
      refine (scanFirst (by decide) rfl (stepValue takes (by simp))).trans ?_
      rw [scanNewline, readField each.1 _ _ (.inl rfl), readFields others each.2, scanNewline]
      refine (scanFirst (by decide) rfl rfl).trans ?_
      simp

theorem readPrintable {v : Json} (printable : Printable v) : ReadBack v := by
  induction printable with
  | null => exact readNull
  | bool value => exact readBool value
  | text value => exact readText value
  | array _ ih => exact readArray ih
  | object named _ ih => exact readObject named ih

theorem parsePretty {v : Json} (printable : Printable v) : parse v.pretty = some v := by
  have read : scan ⟨.value, []⟩ (print 0 v ++ []) = scan (Reading.complete v []) [] :=
    readPrintable printable 0 .value [] [] rfl
  rw [List.append_nil, scan] at read
  rw [parse, pretty, String.toList_ofList]
  cases lexed : tokens (print 0 v) with
  | none => rw [lexed, scan, tokens] at read; cases read
  | some ts =>
      rw [lexed, Option.bind_some, scan, tokens] at read
      simp only [bind, Option.bind, ofTokens, read]
      rfl

end MetadataIndex.Json
