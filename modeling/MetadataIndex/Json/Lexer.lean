/-! Tokens of the strict data format. Blanks between tokens are space, tab, line feed and carriage
return; numbers have no leading zero; a text holds no raw control character. Unicode escapes are
read as units of sixteen bits, and a text is well formed when its surrogate units come in pairs. -/
namespace MetadataIndex.Json

inductive Token where
  | openBrace
  | closeBrace
  | openBracket
  | closeBracket
  | comma
  | colon
  | null
  | bool (value : Bool)
  | number (written : String)
  | text (value : Option String)
  deriving DecidableEq, Repr

inductive Piece where
  | char (c : Char)
  | unit (value : Nat)
  deriving DecidableEq, Repr

def hexValue (c : Char) : Option Nat :=
  if '0' ≤ c ∧ c ≤ '9' then some (c.toNat - 48)
  else if 'a' ≤ c ∧ c ≤ 'f' then some (c.toNat - 87)
  else if 'A' ≤ c ∧ c ≤ 'F' then some (c.toNat - 55)
  else none

def unitValue (a b c d : Char) : Option Nat := do
  let a ← hexValue a
  let b ← hexValue b
  let c ← hexValue c
  let d ← hexValue d
  some (((a * 16 + b) * 16 + c) * 16 + d)

def shortEscape (c : Char) : Option Char :=
  if c = '"' then some '"'
  else if c = '\\' then some '\\'
  else if c = '/' then some '/'
  else if c = 'b' then some '\x08'
  else if c = 'f' then some '\x0c'
  else if c = 'n' then some '\n'
  else if c = 'r' then some '\r'
  else if c = 't' then some '\t'
  else none

def scanText : List Char → Option (List Piece × List Char)
  | [] => none
  | '"' :: rest => some ([], rest)
  | '\\' :: 'u' :: a :: b :: c :: d :: rest => do
      let value ← unitValue a b c d
      let (pieces, rest) ← scanText rest
      some (.unit value :: pieces, rest)
  | '\\' :: c :: rest => do
      let c ← shortEscape c
      let (pieces, rest) ← scanText rest
      some (.char c :: pieces, rest)
  | c :: rest =>
      if c = '\\' || c.toNat < 32 then none
      else do
        let (pieces, rest) ← scanText rest
        some (.char c :: pieces, rest)

def joinPieces : List Piece → Option (List Char)
  | [] => some []
  | .char c :: rest => (joinPieces rest).map (c :: ·)
  | .unit high :: rest =>
      if high < 0xD800 || 0xE000 ≤ high then (joinPieces rest).map (Char.ofNat high :: ·)
      else
        match rest with
        | .unit low :: rest =>
            if high < 0xDC00 && 0xDC00 ≤ low && low < 0xE000 then
              (joinPieces rest).map (Char.ofNat (0x10000 + (high - 0xD800) * 1024 + (low - 0xDC00)) :: ·)
            else none
        | _ => none

def scanDigits : List Char → Option (List Char × List Char)
  | [] => none
  | c :: rest =>
      if c.isDigit then some (c :: rest.takeWhile Char.isDigit, rest.dropWhile Char.isDigit) else none

def scanWhole : List Char → Option (List Char × List Char)
  | [] => none
  | c :: rest =>
      if c = '0' then
        match rest with
        | d :: _ => if d.isDigit then none else some ([c], rest)
        | [] => some ([c], rest)
      else scanDigits (c :: rest)

def scanFraction : List Char → Option (List Char × List Char)
  | '.' :: rest => do
      let (digits, rest) ← scanDigits rest
      some ('.' :: digits, rest)
  | rest => some ([], rest)

def scanExponent : List Char → Option (List Char × List Char)
  | c :: rest =>
      if c = 'e' || c = 'E' then
        match rest with
        | s :: digits => do
            if s = '+' || s = '-' then
              let (digits, rest) ← scanDigits digits
              some (c :: s :: digits, rest)
            else
              let (digits, rest) ← scanDigits rest
              some (c :: digits, rest)
        | [] => none
      else some ([], c :: rest)
  | [] => some ([], [])

def scanSign : List Char → List Char × List Char
  | '-' :: rest => (['-'], rest)
  | rest => ([], rest)

def scanNumber (input : List Char) : Option (List Char × List Char) := do
  let (sign, rest) := scanSign input
  let (whole, rest) ← scanWhole rest
  let (fraction, rest) ← scanFraction rest
  let (exponent, rest) ← scanExponent rest
  some (sign ++ whole ++ fraction ++ exponent, rest)

def isGap (c : Char) : Bool := c = ' ' || c = '\t' || c = '\n' || c = '\r'

def scanToken : List Char → Option (Token × List Char)
  | '\x7b' :: rest => some (.openBrace, rest)
  | '\x7d' :: rest => some (.closeBrace, rest)
  | '[' :: rest => some (.openBracket, rest)
  | ']' :: rest => some (.closeBracket, rest)
  | ',' :: rest => some (.comma, rest)
  | ':' :: rest => some (.colon, rest)
  | 'n' :: 'u' :: 'l' :: 'l' :: rest => some (.null, rest)
  | 't' :: 'r' :: 'u' :: 'e' :: rest => some (.bool true, rest)
  | 'f' :: 'a' :: 'l' :: 's' :: 'e' :: rest => some (.bool false, rest)
  | '"' :: rest => do
      let (pieces, rest) ← scanText rest
      some (.text ((joinPieces pieces).map String.ofList), rest)
  | input => do
      let (written, rest) ← scanNumber input
      some (.number (String.ofList written), rest)

theorem scanTextShorter {input rest : List Char} {pieces : List Piece}
    (scanned : scanText input = some (pieces, rest)) : rest.length < input.length := by
  fun_induction scanText input generalizing pieces rest with
  | case1 => simp at scanned
  | case2 rest => cases scanned; simp
  | case3 a b c d rest ih =>
      simp only [bind, Option.bind_eq_some_iff, Option.some.injEq, Prod.mk.injEq] at scanned
      obtain ⟨_, _, ⟨_, _⟩, more, _, rfl⟩ := scanned
      have := ih more
      simp only [List.length_cons]
      omega
  | case4 c rest _ ih =>
      simp only [bind, Option.bind_eq_some_iff, Option.some.injEq, Prod.mk.injEq] at scanned
      obtain ⟨_, _, ⟨_, _⟩, more, _, rfl⟩ := scanned
      have := ih more
      simp only [List.length_cons]
      omega
  | case5 => simp at scanned
  | case6 c rest _ _ _ _ ih =>
      simp only [bind, Option.bind_eq_some_iff, Option.some.injEq, Prod.mk.injEq] at scanned
      obtain ⟨⟨_, _⟩, more, _, rfl⟩ := scanned
      have := ih more
      simp only [List.length_cons]
      omega

theorem scanDigitsAppend {input digits rest : List Char} (scanned : scanDigits input = some (digits, rest)) :
    input = digits ++ rest ∧ digits ≠ [] := by
  unfold scanDigits at scanned
  split at scanned
  · simp at scanned
  · split at scanned
    · cases scanned
      simp
    · simp at scanned

theorem scanWholeAppend {input whole rest : List Char} (scanned : scanWhole input = some (whole, rest)) :
    input = whole ++ rest ∧ whole ≠ [] := by
  unfold scanWhole at scanned
  split at scanned
  · simp at scanned
  · split at scanned
    · split at scanned
      · split at scanned
        · simp at scanned
        · cases scanned
          simp
      · cases scanned
        simp
    · exact scanDigitsAppend scanned

theorem scanFractionAppend {input fraction rest : List Char}
    (scanned : scanFraction input = some (fraction, rest)) : input = fraction ++ rest := by
  unfold scanFraction at scanned
  split at scanned
  · simp only [bind, Option.bind_eq_some_iff, Option.some.injEq, Prod.mk.injEq] at scanned
    obtain ⟨⟨_, _⟩, digits, rfl, rfl⟩ := scanned
    simp [scanDigitsAppend digits]
  · cases scanned
    rfl

theorem scanExponentAppend {input exponent rest : List Char}
    (scanned : scanExponent input = some (exponent, rest)) : input = exponent ++ rest := by
  unfold scanExponent at scanned
  split at scanned
  · split at scanned
    · split at scanned
      · split at scanned <;>
          · simp only [bind, Option.bind_eq_some_iff, Option.some.injEq, Prod.mk.injEq] at scanned
            obtain ⟨⟨_, _⟩, digits, rfl, rfl⟩ := scanned
            simp [scanDigitsAppend digits]
      · simp at scanned
    · cases scanned
      rfl
  · cases scanned
    rfl

theorem scanSignAppend (input : List Char) : input = (scanSign input).1 ++ (scanSign input).2 := by
  unfold scanSign
  split <;> rfl

theorem scanNumberAppend {input written rest : List Char}
    (scanned : scanNumber input = some (written, rest)) : input = written ++ rest ∧ written ≠ [] := by
  simp only [scanNumber, bind, Option.bind_eq_some_iff, Option.some.injEq, Prod.mk.injEq] at scanned
  obtain ⟨⟨_, _⟩, atWhole, ⟨_, _⟩, atFraction, ⟨_, _⟩, atExponent, rfl, rfl⟩ := scanned
  obtain ⟨whole, some_digit⟩ := scanWholeAppend atWhole
  have fraction := scanFractionAppend atFraction
  have exponent := scanExponentAppend atExponent
  simp only at whole fraction exponent
  constructor
  · conv => lhs; rw [scanSignAppend input, whole, fraction, exponent]
    simp
  · simp [some_digit]

theorem scanTokenShorter {input rest : List Char} {token : Token}
    (scanned : scanToken input = some (token, rest)) : rest.length < input.length := by
  unfold scanToken at scanned
  split at scanned
  case h_10 =>
    simp only [bind, Option.bind_eq_some_iff, Option.some.injEq, Prod.mk.injEq] at scanned
    obtain ⟨⟨_, _⟩, atText, _, rfl⟩ := scanned
    have := scanTextShorter atText
    simp only [List.length_cons]
    omega
  case h_11 =>
    simp only [bind, Option.bind_eq_some_iff, Option.some.injEq, Prod.mk.injEq] at scanned
    obtain ⟨⟨_, _⟩, atNumber, _, rfl⟩ := scanned
    obtain ⟨same, some_digit⟩ := scanNumberAppend atNumber
    rw [same, List.length_append]
    exact Nat.lt_add_of_pos_left (List.length_pos_iff.2 some_digit)
  all_goals
    simp only [Option.some.injEq, Prod.mk.injEq] at scanned
    obtain ⟨_, rfl⟩ := scanned
    simp only [List.length_cons]
    omega

def tokens : List Char → Option (List Token)
  | [] => some []
  | c :: rest =>
      if isGap c then tokens rest
      else
        match _scanned : scanToken (c :: rest) with
        | none => none
        | some (token, rest) => (tokens rest).map (token :: ·)
termination_by input => input.length
decreasing_by
  · simp
  · exact scanTokenShorter ‹_›

end MetadataIndex.Json
