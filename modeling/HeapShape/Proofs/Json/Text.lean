import HeapShape.Json.Parser
import HeapShape.Json.Printer

/-
  Reading back what was written.

  A document without fractions and half surrogate pairs is what its own text
  is read as. The parser is followed by its bound. At each level the text of
  a value, of items or of members may have anything behind it that no number
  goes on with, and that much is left.

  Main declarations:
    * `Json.isPlain`
    * `Json.number?_digits`
    * `Json.reads_within`
    * `Json.parse?_compact`
-/

-- Strings

namespace HeapShape

namespace Json

variable {c : Char}

/- A piece that stands for a character. -/
def Piece.Spells
    (p : Piece)
    (c : Char) : Prop :=
  p = .char c ∨ p = .unit c.toNat ∧ c.toNat < 0x20

/- A hexadecimal digit has its value. -/
theorem hexValue?_hexChar :
    ∀ n < 16, hexValue? (hexChar n) = some n := by
  decide

/- Two digits are enough for a control character. -/
theorem codeUnit?_hexChar
    {n : Nat}
    (hn : n < 0x20) :
    codeUnit? '0' '0' (hexChar (n / 16)) (hexChar (n % 16)) = some n := by
  have hHigh := hexValue?_hexChar (n / 16) (by omega)
  have hLow := hexValue?_hexChar (n % 16) (by omega)
  have hZero : hexValue? '0' = some 0 := by decide
  simp only [codeUnit?, hHigh, hLow, hZero, Option.bind_eq_bind, Option.bind_some, Option.pure_def,
    Option.some.injEq]
  omega

/- One written character is one piece. -/
theorem exists_piece
    (c : Char) :
    ∃ p : Piece, p.Spells c ∧ ∀ rest, pieces? (escape c ++ rest) =
        (pieces? rest).map fun r => (p :: r.1, r.2) := by
  unfold escape
  split
  case h_8 hQuote hSlash _ _ _ _ _ =>
    split
    case isTrue hControl =>
      refine ⟨.unit c.toNat, .inr ⟨rfl, hControl⟩, ?_⟩
      intro rest
      cases hRest : pieces? rest <;>
        simp [pieces?, codeUnit?_hexChar hControl, hRest]
    case isFalse hControl =>
      refine ⟨.char c, .inl rfl, fun rest => ?_⟩
      rw [List.singleton_append, pieces?]
      · rw [if_neg (not_or.mpr ⟨hControl, hSlash⟩)]
        cases pieces? rest <;> rfl
      · exact hQuote
      · exact fun _ _ _ _ _ hc _ => hSlash hc
      · exact fun _ _ hc _ => hSlash hc
  all_goals
    refine ⟨.char _, .inl rfl, fun rest => ?_⟩
    cases hRest : pieces? rest <;>
      simp [pieces?, shortEscape?, hRest]

/- A piece adds the character it stands for. -/
theorem Piece.Spells.joinPieces?_cons
    {p : Piece}
    (h : p.Spells c)
    (ps : List Piece) :
    joinPieces? (p :: ps) = (joinPieces? ps).map (c :: ·) := by
  rcases h with rfl | ⟨rfl, hControl⟩
  · rw [joinPieces?]
  · have hHigh : isHigh c.toNat = false := by
      simp [isHigh]
      omega
    have hLow : isLow c.toNat = false := by
      simp [isLow]
      omega
    rcases ps with _ | ⟨p | n, ps⟩ <;>
      simp [joinPieces?, hHigh, hLow, Char.ofNat_toNat]

/- The characters of a string, as they are written. -/
theorem exists_pieces
    (cs rest : List Char) :
    ∃ ps, pieces? ((cs.map escape).flatten ++ '"' :: rest) = some (ps, rest) ∧
      joinPieces? ps = some cs := by
  induction cs with
  | nil => exact ⟨[], rfl, rfl⟩
  | cons c cs ih =>
    rcases ih with ⟨ps, hPieces, hJoin⟩
    rcases exists_piece c with ⟨p, hSpells, hRead⟩
    refine ⟨p :: ps, ?_, ?_⟩
    · rw [List.map_cons, List.flatten_cons, List.append_assoc, hRead, hPieces, Option.map_some]
    · rw [hSpells.joinPieces?_cons, hJoin, Option.map_some]

/- A written string is read up to its closing quote. -/
theorem string?_escaped
    (s : String)
    (rest : List Char) :
    string? ((s.toList.map escape).flatten ++ '"' :: rest) = some (some s, rest) := by
  rcases exists_pieces s.toList rest with ⟨ps, hPieces, hJoin⟩
  simp [string?, hPieces, hJoin]

-- Numbers

variable {n : Nat} {rest : List Char}

/- A number that stands before this text ends there. -/
def Stops
    (rest : List Char) : Prop :=
  ∀ c ∈ rest.head?,
    c.isDigit = false ∧ c ≠ '.' ∧ c ≠ 'e' ∧ c ≠ 'E'

/- Digits end where a number ends. -/
theorem Stops.spanDigits_append
    (hRest : Stops rest)
    {ds : List Char}
    (hDigits : ∀ d ∈ ds, d.isDigit = true) :
    spanDigits (ds ++ rest) = (ds, rest) := by
  rw [spanDigits, List.takeWhile_append_of_pos hDigits, List.dropWhile_append_of_pos hDigits]
  cases rest with
  | nil => simp
  | cons c rest =>
    have hc := (hRest c rfl).1
    simp [hc]

/- Nothing behind such a number is a fraction. -/
theorem Stops.fraction?_eq
    (hRest : Stops rest) :
    fraction? rest = some ([], rest) := by
  unfold fraction?
  split
  · exact absurd rfl (hRest '.' rfl).2.1
  · rfl

/- Nothing behind such a number is an exponent. -/
theorem Stops.exponent?_eq
    (hRest : Stops rest) :
    exponent? rest = some (none, rest) := by
  cases rest with
  | nil => rfl
  | cons c rest =>
    have hc := (hRest c rfl).2.2
    simp [exponent?, hc]

/- A number has no superfluous zero in front. -/
theorem toDigits_head
    (n : Nat) :
    ∃ d ds, Nat.toDigits 10 n = d :: ds ∧ (d = '0' → ds = []) := by
  induction n using Nat.strongRecOn with
  | ind n ih =>
    by_cases hSmall : n < 10
    · exact ⟨_, [], Nat.toDigits_of_lt_base hSmall, fun _ => rfl⟩
    · rcases ih (n / 10) (by omega) with ⟨d, ds, hDigits, hZero⟩
      have hAll := Nat.toDigits_of_base_le (b := 10) (n := n) (by decide) (by omega)
      rw [hDigits, List.cons_append] at hAll
      refine ⟨d, _, hAll, fun hd => ?_⟩
      -- A lone zero would make the number less than ten.
      have hValue := Nat.ofDigitChars_ten_toDigits (n := n / 10)
      rw [hDigits, hd, hZero hd] at hValue
      have hNone : n / 10 = 0 := hValue.symm
      omega

variable {d : Char}

/- The digits of a number are digits. -/
theorem isDigit_of_toDigits
    (hd : d ∈ Nat.toDigits 10 n) :
    d.isDigit = true :=
  Nat.isDigit_of_mem_toDigits (by decide) (by decide) hd

/- A digit is no other character. -/
theorem ne_of_isDigit
    {c : Char}
    (hd : d.isDigit = true)
    (hc : c.isDigit = false) :
    d ≠ c := by
  rintro rfl
  rw [hd] at hc
  cases hc

/- The digits of a number are read as that number. -/
theorem number?_digits
    (hn : n < longBound)
    (hRest : Stops rest) :
    number? (Nat.toDigits 10 n ++ rest) = some (nat n, rest) := by
  have hSpan := hRest.spanDigits_append (fun d => isDigit_of_toDigits (n := n) (d := d))
  have hValue : decimal (Nat.toDigits 10 n) = n := Nat.ofDigitChars_ten_toDigits
  rcases toDigits_head n with ⟨d, ds, hDigits, hZero⟩
  have hMinus : d ≠ '-' :=
    ne_of_isDigit (isDigit_of_toDigits (n := n) (by rw [hDigits]; exact List.mem_cons_self)) rfl
  rw [hDigits] at hSpan hValue ⊢
  rcases ds with _ | ⟨e, ds⟩
  · simp_all [number?, hRest.fraction?_eq, hRest.exponent?_eq]
  · have hFirst : d ≠ '0' := fun hd => by cases hZero hd
    simp_all [number?, hRest.fraction?_eq, hRest.exponent?_eq]

-- Written Documents

mutual

/- A document whose numbers are all long words. -/
def isPlain : Json → Bool
| null => true
| bool _ => true
| nat n => n < longBound
| real _ => false
| str _ => true
| arr items => allPlain items
| obj members => membersPlain members
| garbled => false

/- A list of such documents. -/
def allPlain : List Json → Bool
| [] => true
| j :: rest => isPlain j && allPlain rest

/- Members with such documents. -/
def membersPlain : List (String × Json) → Bool
| [] => true
| (_, j) :: rest => isPlain j && membersPlain rest

end

variable {j : Json} {s : String} {c : Char}
  {cs rest : List Char}

@[simp]
theorem toList_quote
    (s : String) :
    (quote s).toList = '"' :: ((s.toList.map escape).flatten ++ ['"']) := by
  simp [quote]

/- A written number is the list of its digits. -/
@[simp]
theorem toList_compact_nat
    (n : Nat) :
    (compact (nat n)).toList = Nat.toDigits 10 n := by
  rw [compact, Nat.toString_eq_ofList_toDigits, String.toList_ofList]

/- Text that starts with a token is not skipped. -/
theorem skipSpace_cons
    (hc : isSpace c = false) :
    skipSpace (c :: cs) = c :: cs := by
  simp [skipSpace, hc]

/- A digit is not skipped. -/
theorem isSpace_of_isDigit
    (hc : c.isDigit = true) :
    isSpace c = false := by
  simp [isSpace, ne_of_isDigit hc (c := ' ') rfl, ne_of_isDigit hc (c := '\t') rfl,
    ne_of_isDigit hc (c := '\n') rfl,
    ne_of_isDigit hc (c := '\r') rfl]

/- How a document starts. -/
theorem exists_head
    (hj : j.isPlain = true) :
    ∃ c cs, (compact j).toList = c :: cs ∧ isSpace c = false ∧ c ≠ ']' := by
  cases j with
  | null => exact ⟨'n', _, rfl, rfl, by decide⟩
  | bool b =>
    cases b
    · exact ⟨'f', _, rfl, rfl, by decide⟩
    · exact ⟨'t', _, rfl, rfl, by decide⟩
  | nat n =>
    rcases toDigits_head n with ⟨d, ds, hDigits, _⟩
    have hd := isDigit_of_toDigits (n := n) (d := d) (by rw [hDigits]; exact List.mem_cons_self)
    refine ⟨d, ds, by rw [toList_compact_nat, hDigits], isSpace_of_isDigit hd, ne_of_isDigit hd rfl⟩
  | real b => cases hj
  | str s => exact ⟨'"', _, toList_quote s, rfl, by decide⟩
  | arr items => exact ⟨'[', _, by simp [compact]; rfl, rfl, by decide⟩
  | obj members => exact ⟨'\x7b', _, by simp [compact]; rfl, rfl, by decide⟩
  | garbled => cases hj

/- Items are set apart by commas. -/
theorem toList_compactItems_cons
    (j : Json)
    (items : List Json) :
    (compactItems (j :: items)).toList = (compact j).toList ++
        if items = [] then []
        else ',' :: (compactItems items).toList := by
  cases items <;> simp [compactItems]

/- Members are set apart by commas. -/
theorem toList_compactMembers_cons
    (m : String × Json)
    (members : List (String × Json)) :
    (compactMembers (m :: members)).toList =
      (quote m.1).toList ++ ':' :: (compact m.2).toList ++
        if members = [] then []
        else ',' :: (compactMembers members).toList := by
  cases members <;> simp [compactMembers]

end Json

end HeapShape

-- Reading Within A Bound

namespace HeapShape

namespace Json

variable {fuel : Nat}

/- Values are read back within a bound. -/
def ReadsValues
    (fuel : Nat) : Prop :=
  ∀ (j : Json) (rest : List Char),
    j.isPlain = true → Stops rest →
    2 * (compact j).toList.length ≤ fuel →
    value? fuel ((compact j).toList ++ rest) = some (j, rest)

/- Items are read back within a bound. -/
def ReadsItems
    (fuel : Nat) : Prop :=
  ∀ (items : List Json) (rest : List Char),
    items ≠ [] → allPlain items = true →
    2 * (compactItems items).toList.length < fuel →
    items? fuel ((compactItems items).toList ++ ']' :: rest) =
      some (items, rest)

/- Members are read back within a bound. -/
def ReadsMembers
    (fuel : Nat) : Prop :=
  ∀ (ms : List (String × Json)) (rest : List Char),
    ms ≠ [] → membersPlain ms = true →
    2 * (compactMembers ms).toList.length < fuel →
    members? fuel
        ((compactMembers ms).toList ++ '\x7d' :: rest) =
      some (ms.map fun m => (some m.1, m.2), rest)

/- Keys that are texts make an object. -/
theorem ofMembers_eq
    (ms : List (String × Json)) :
    ofMembers (ms.map fun m => (some m.1, m.2)) = obj ms := by
  have hKeys : (ms.map fun m => (some m.1, m.2)).mapM (fun m : Option String × Json =>
        m.1.map fun k => (k, m.2)) = some ms := by
    induction ms with
    | nil => rfl
    | cons m ms ih => simp [ih]
  unfold ofMembers
  simp [hKeys]

variable {c : Char} {cs : List Char}

/- An array with items. -/
theorem value?_arr
    (hSpace : isSpace c = false)
    (hOpen : c ≠ ']') :
    value? (fuel + 1) ('[' :: c :: cs) =
        (items? fuel (c :: cs)).map fun r => (arr r.1, r.2) := by
  have hSkip : skipSpace ('[' :: c :: cs) = '[' :: c :: cs := skipSpace_cons rfl
  cases hRead : items? fuel (c :: cs) <;>
    simp [value?, hSkip, skipSpace_cons hSpace, hOpen, hRead]

/- An object with members. -/
theorem value?_obj
    {cs : List Char} :
    value? (fuel + 1) ('\x7b' :: '"' :: cs) = (members? fuel ('"' :: cs)).map
        fun r => (ofMembers r.1, r.2) := by
  have hSkip : skipSpace ('\x7b' :: '"' :: cs) = '\x7b' :: '"' :: cs := skipSpace_cons rfl
  have hQuote : skipSpace ('"' :: cs) = '"' :: cs := skipSpace_cons rfl
  cases hRead : members? fuel ('"' :: cs) <;>
    simp [value?, hSkip, hQuote, hRead]

/- A digit starts a number. -/
theorem value?_digit
    {d : Char}
    (hd : d.isDigit = true) :
    value? (fuel + 1) (d :: cs) = number? (d :: cs) := by
  have hSkip : skipSpace (d :: cs) = d :: cs := skipSpace_cons (isSpace_of_isDigit hd)
  simp [value?, hSkip, ne_of_isDigit hd (c := '"') rfl, ne_of_isDigit hd (c := '[') rfl,
    ne_of_isDigit hd (c := '\x7b') rfl,
    ne_of_isDigit hd (c := 't') rfl,
    ne_of_isDigit hd (c := 'f') rfl,
    ne_of_isDigit hd (c := 'n') rfl]

/- A value is read back if its parts are. -/
theorem ReadsValues.succ
    (hItems : ReadsItems fuel)
    (hMembers : ReadsMembers fuel) :
    ReadsValues (fuel + 1) := by
  intro j rest hj hRest hFuel
  cases j with
  | null => simp [compact, value?, skipSpace_cons, isSpace, afterWord?]
  | bool b =>
    cases b <;>
      simp [compact, value?, skipSpace_cons, isSpace, afterWord?]
  | nat n =>
    have hn : n < longBound := by simpa [isPlain] using hj
    have hRead := number?_digits hn hRest
    rcases toDigits_head n with ⟨d, ds, hDigits, _⟩
    have hd := isDigit_of_toDigits (n := n) (d := d) (by rw [hDigits]; exact List.mem_cons_self)
    rw [toList_compact_nat]
    rw [hDigits, List.cons_append] at hRead ⊢
    rw [value?_digit hd, hRead]
  | real b => cases hj
  | str s => simp [compact, value?, skipSpace_cons, isSpace, string?_escaped]
  | arr items =>
    have hText : (compact (arr items)).toList ++ rest =
        '[' :: ((compactItems items).toList ++ ']' :: rest) := by
      simp [compact]
    have hLength := congrArg List.length hText
    rw [hText]
    rcases items with _ | ⟨j, items⟩
    · simp [compactItems, value?, skipSpace_cons, isSpace]
    · have hPlain : allPlain (j :: items) = true := hj
      have hRead := hItems (j :: items) rest (List.cons_ne_nil _ _) hPlain
        (by simp at hLength; omega)
      rcases exists_head (j := j) (by simp [allPlain] at hPlain; exact hPlain.1) with
        ⟨c, cs, hHead, hSpace, hOpen⟩
      rw [toList_compactItems_cons, hHead] at hRead ⊢
      rw [List.cons_append, List.cons_append] at hRead ⊢
      rw [value?_arr hSpace hOpen, hRead, Option.map_some]
  | obj members =>
    have hText : (compact (obj members)).toList ++ rest =
        '\x7b' :: ((compactMembers members).toList ++ '\x7d' :: rest) := by
      simp [compact]
    have hLength := congrArg List.length hText
    rw [hText]
    rcases members with _ | ⟨m, members⟩
    · simp [compactMembers, value?, skipSpace_cons, isSpace]
    · have hRead := hMembers (m :: members) rest (List.cons_ne_nil _ _) hj
        (by simp at hLength; omega)
      rw [toList_compactMembers_cons, toList_quote] at hRead ⊢
      simp only [List.cons_append] at hRead ⊢
      rw [value?_obj, hRead, Option.map_some, ofMembers_eq]
  | garbled => cases hj

/- Text after a token ends a number. -/
theorem stops_cons
    {rest : List Char}
    (hc : c = ',' ∨ c = ']' ∨ c = '\x7d') :
    Stops (c :: rest) := by
  rintro _ ⟨⟩
  rcases hc with rfl | rfl | rfl <;> decide

/- Items are read back if the first and the others are. -/
theorem ReadsItems.succ
    (hValues : ReadsValues fuel)
    (hItems : ReadsItems fuel) :
    ReadsItems (fuel + 1) := by
  intro items rest hSome hPlain hFuel
  rcases items with _ | ⟨j, items⟩
  · exact absurd rfl hSome
  rw [allPlain, Bool.and_eq_true] at hPlain
  rw [toList_compactItems_cons] at hFuel ⊢
  by_cases hLast : items = []
  · subst hLast
    have hRead := hValues j (']' :: rest) hPlain.1 (stops_cons (by simp)) (by simp at hFuel; omega)
    simp [items?, hRead, skipSpace_cons, isSpace]
  · rw [if_neg hLast] at hFuel ⊢
    have hRead := hValues j (',' :: ((compactItems items).toList ++ ']' :: rest))
      hPlain.1 (stops_cons (by simp))
      (by simp at hFuel; omega)
    have hOthers := hItems items rest hLast hPlain.2 (by simp at hFuel; omega)
    simp [items?, hRead, hOthers, skipSpace_cons, isSpace]

/- Members are read back if the first and the others are. -/
theorem ReadsMembers.succ
    (hValues : ReadsValues fuel)
    (hMembers : ReadsMembers fuel) :
    ReadsMembers (fuel + 1) := by
  intro ms rest hSome hPlain hFuel
  rcases ms with _ | ⟨⟨k, j⟩, ms⟩
  · exact absurd rfl hSome
  rw [membersPlain, Bool.and_eq_true] at hPlain
  rw [toList_compactMembers_cons, toList_quote] at hFuel ⊢
  by_cases hLast : ms = []
  · subst hLast
    have hRead := hValues j ('\x7d' :: rest) hPlain.1
      (stops_cons (by simp)) (by simp at hFuel; omega)
    simp [members?, string?_escaped, hRead, skipSpace_cons, isSpace]
  · rw [if_neg hLast] at hFuel ⊢
    have hRead := hValues j (',' :: ((compactMembers ms).toList ++ '\x7d' :: rest))
      hPlain.1 (stops_cons (by simp))
      (by simp at hFuel; omega)
    have hOthers := hMembers ms rest hLast hPlain.2 (by simp at hFuel; omega)
    simp [members?, string?_escaped, hRead, hOthers, skipSpace_cons, isSpace]

/- Every bound that covers a text is enough to read it. -/
theorem reads_within
    (fuel : Nat) :
    ReadsValues fuel ∧ ReadsItems fuel ∧ ReadsMembers fuel := by
  induction fuel with
  | zero =>
    refine ⟨fun j rest hj _ hFuel => ?_, fun _ _ _ _ hFuel => absurd hFuel (Nat.not_lt_zero _),
      fun _ _ _ _ hFuel => absurd hFuel (Nat.not_lt_zero _)⟩
    rcases exists_head hj with ⟨c, cs, hHead, _⟩
    rw [hHead, List.length_cons] at hFuel
    omega
  | succ fuel ih =>
    rcases ih with ⟨hValues, hItems, hMembers⟩
    exact ⟨.succ hItems hMembers, .succ hValues hItems, .succ hValues hMembers⟩

/- A plain document is what its text is read as. -/
theorem parse?_compact
    {j : Json}
    (hj : j.isPlain = true) :
    parse? j.compact = some j := by
  have hStops : Stops [] := by
    rintro _ ⟨⟩
  have hRead := (reads_within (2 * j.compact.toList.length + 2)).1 j [] hj hStops (by omega)
  rw [List.append_nil] at hRead
  simp [parse?, hRead, skipSpace]

end Json

end HeapShape
