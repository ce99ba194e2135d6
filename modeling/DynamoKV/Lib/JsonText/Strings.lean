import DynamoKV.Lib.Percent

-- String literals of JSON texts as Python's `json` module writes and reads them.
namespace JsonText

def quote : Char :=
  '\"'

def backslash : Char :=
  '\\'

-- The parts of a literal between its quotes: characters and code units from `\u` escapes.
inductive Piece
  | char (c : Char)
  | unit (n : Nat)

def isHighSurrogate (n : Nat) : Bool :=
  0xd800 ≤ n && n < 0xdc00

def isLowSurrogate (n : Nat) : Bool :=
  0xdc00 ≤ n && n < 0xe000

section Write

def escapeUnit (n : Nat) : List Char :=
  [backslash, 'u', Nat.digitChar (n / 4096), Nat.digitChar (n / 256 % 16),
    Nat.digitChar (n / 16 % 16), Nat.digitChar (n % 16)]

-- Two-character escapes, by the second character.
def escapes : List (Char × Char) :=
  [(backslash, backslash), (quote, quote), ('\x08', 'b'), ('\x0c', 'f'), ('\n', 'n'), ('\r', 'r'),
    ('\t', 't')]

def isPrintable (c : Char) : Bool :=
  ' ' ≤ c && c ≤ '~'

-- With `ensure_ascii`, all but printable ASCII characters are escaped.
def escapeChar (c : Char) : List Char :=
  match escapes.lookup c with
  | some e => [backslash, e]
  | none   =>
    if isPrintable c then [c]
    else if c.toNat < 0x10000 then escapeUnit c.toNat
    else
      let n := c.toNat - 0x10000
      escapeUnit (0xd800 + n / 1024) ++ escapeUnit (0xdc00 + n % 1024)

def writeString (s : List Char) : List Char :=
  quote :: s.flatMap escapeChar ++ [quote]

end Write

section Read

-- `BACKSLASH`
def unescapes : List (Char × Char) :=
  [(quote, quote), (backslash, backslash), ('/', '/'), ('b', '\x08'), ('f', '\x0c'), ('n', '\n'),
    ('r', '\r'), ('t', '\t')]

def hexUnit (ds : List Char) : Option Nat :=
  if ds.all Percent.isHexDigit then some <| ds.foldl (fun n d => 16 * n + Percent.hexValue d) 0
  else none

-- The pieces up to the closing quote, and the text after it. Control characters are not allowed.
def scanPieces : List Char → Option (List Piece × List Char)
  | []     => none
  | c :: s =>
    if c = quote then some ([], s)
    else if c = backslash then
      match s with
      | []     => none
      | e :: s =>
        if e = 'u' then
          match s with
          | d₁ :: d₂ :: d₃ :: d₄ :: s => do
            let n ← hexUnit [d₁, d₂, d₃, d₄]
            let (ps, s) ← scanPieces s
            return (.unit n :: ps, s)
          | _ => none
        else do
          let c ← unescapes.lookup e
          let (ps, s) ← scanPieces s
          return (.char c :: ps, s)
    else if c < ' ' then none
    else do
      let (ps, s) ← scanPieces s
      return (.char c :: ps, s)

-- Two surrogates in a row are one character. Others are none.
def joinPieces : List Piece → Option (List Char)
  | []                          => some []
  | .char c :: ps               => (joinPieces ps).map (c :: ·)
  | .unit n :: .unit m :: ps    =>
    if isHighSurrogate n && isLowSurrogate m then
      (joinPieces ps).map (Char.ofNat (0x10000 + (n - 0xd800) * 1024 + (m - 0xdc00)) :: ·)
    else if n.isValidChar then (joinPieces (.unit m :: ps)).map (Char.ofNat n :: ·)
    else none
  | .unit n :: ps               =>
    if n.isValidChar then (joinPieces ps).map (Char.ofNat n :: ·) else none

-- The string that ends with the next quote, and the text after it.
def scanString (s : List Char) : Option (List Char × List Char) := do
  let (ps, s) ← scanPieces s
  return (← joinPieces ps, s)

end Read

section RoundTrip

-- The pieces in which a character is written.
def pieces (c : Char) : List Piece :=
  if (escapes.lookup c).isSome || isPrintable c then [.char c]
  else if c.toNat < 0x10000 then [.unit c.toNat]
  else
    let n := c.toNat - 0x10000
    [.unit (0xd800 + n / 1024), .unit (0xdc00 + n % 1024)]

theorem isHexDigit_digitChar : ∀ n < 16, Percent.isHexDigit (Nat.digitChar n) := by
  decide

theorem hexValue_digitChar : ∀ n < 16, Percent.hexValue (Nat.digitChar n) = n := by
  decide

theorem hexUnit_digitChar (h₁ : a < 16) (h₂ : b < 16) (h₃ : c < 16) (h₄ : d < 16) :
    hexUnit [Nat.digitChar a, Nat.digitChar b, Nat.digitChar c, Nat.digitChar d] =
      some (4096 * a + 256 * b + 16 * c + d) := by
  simp only [hexUnit, List.all_cons, List.all_nil, isHexDigit_digitChar _ h₁,
    isHexDigit_digitChar _ h₂, isHexDigit_digitChar _ h₃, isHexDigit_digitChar _ h₄, Bool.and_self,
    if_true, List.foldl_cons, List.foldl_nil, hexValue_digitChar _ h₁, hexValue_digitChar _ h₂,
    hexValue_digitChar _ h₃, hexValue_digitChar _ h₄, Option.some.injEq]
  omega

theorem scanPieces_escapeUnit (hn : n < 0x10000) (s : List Char) :
    scanPieces (escapeUnit n ++ s) = (scanPieces s).map fun x => (.unit n :: x.1, x.2) := by
  have hu := hexUnit_digitChar (a := n / 4096) (b := n / 256 % 16) (c := n / 16 % 16) (d := n % 16)
    (by omega) (by omega) (by omega) (by omega)
  have he : 4096 * (n / 4096) + 256 * (n / 256 % 16) + 16 * (n / 16 % 16) + n % 16 = n := by omega
  rw [he] at hu
  simp only [escapeUnit, List.cons_append, List.nil_append]
  rw [scanPieces.eq_def (backslash :: _)]
  dsimp only
  rw [if_neg (by decide), if_pos rfl, if_pos rfl, hu]
  cases scanPieces s <;> rfl

theorem lt_of_char (c : Char) : c.toNat < 0x110000 := by
  have hv : c.toNat.isValidChar := c.valid
  rcases hv with h | h <;> omega

theorem mem_of_lookup {l : List (Char × Char)} (h : l.lookup c = some e) : (c, e) ∈ l := by
  obtain ⟨l₁, l₂, rfl, _⟩ := List.lookup_eq_some_iff.mp h
  simp

theorem scanPieces_of_printable (hp : isPrintable c) (hq : c ≠ quote) (hb : c ≠ backslash)
    (s : List Char) : scanPieces (c :: s) = (scanPieces s).map fun x => (.char c :: x.1, x.2) := by
  have hc : ¬c < ' ' := not_lt.mpr <| of_decide_eq_true <| (Bool.and_eq_true_iff.mp hp).left
  rw [scanPieces.eq_def (c :: s)]
  dsimp only
  rw [if_neg hq, if_neg hb, if_neg hc]
  cases scanPieces s <;> rfl

theorem scanPieces_escapeChar (c : Char) (s : List Char) :
    scanPieces (escapeChar c ++ s) = (scanPieces s).map fun x => (pieces c ++ x.1, x.2) := by
  unfold escapeChar pieces
  cases he : escapes.lookup c
  case some e =>
    have hm := mem_of_lookup he
    simp only [escapes, List.mem_cons, Prod.mk.injEq, List.not_mem_nil, or_false] at hm
    rcases hm with ⟨rfl, rfl⟩ | ⟨rfl, rfl⟩ | ⟨rfl, rfl⟩ | ⟨rfl, rfl⟩ | ⟨rfl, rfl⟩ | ⟨rfl, rfl⟩ |
      ⟨rfl, rfl⟩ <;>
    · simp only [List.cons_append, List.nil_append, Option.isSome_some, Bool.true_or, if_true]
      rw [scanPieces.eq_def (backslash :: _)]
      dsimp only
      rw [if_neg (by decide), if_pos rfl, if_neg (by decide)]
      cases scanPieces s <;> rfl
  case none =>
    simp only [Option.isSome_none, Bool.false_or]
    split
    case isTrue hp =>
      refine scanPieces_of_printable hp ?_ ?_ s <;>
      · rintro rfl
        exact absurd he (by decide)
    case isFalse =>
      split
      case isTrue hn  => exact scanPieces_escapeUnit hn s
      case isFalse hn =>
        have hc : c.toNat < 0x110000 := lt_of_char c
        rw [List.append_assoc, scanPieces_escapeUnit (by omega), scanPieces_escapeUnit (by omega),
          Option.map_map]
        rfl

theorem joinPieces_unit (hn : n.isValidChar) (ps : List Piece) :
    joinPieces (.unit n :: ps) = (joinPieces ps).map (Char.ofNat n :: ·) := by
  have hh : isHighSurrogate n = false := by
    simp only [isHighSurrogate, Bool.and_eq_false_imp, decide_eq_true_eq, decide_eq_false_iff_not]
    rcases hn with hn | hn <;> omega
  match ps with
  | []           => simp [joinPieces, hn]
  | .char _ :: _ => simp [joinPieces, hn]
  | .unit _ :: _ => simp [joinPieces, hn, hh]

theorem joinPieces_pieces (c : Char) (ps : List Piece) :
    joinPieces (pieces c ++ ps) = (joinPieces ps).map (c :: ·) := by
  unfold pieces
  split
  case isTrue  => rfl
  case isFalse =>
    split
    case isTrue =>
      have hv : c.toNat.isValidChar := c.valid
      simp [joinPieces_unit hv, Char.ofNat_toNat]
    case isFalse hn =>
      have hc : c.toNat < 0x110000 := lt_of_char c
      have hh : isHighSurrogate (0xd800 + (c.toNat - 0x10000) / 1024) := by
        simp only [isHighSurrogate, Bool.and_eq_true, decide_eq_true_eq]
        omega
      have hl : isLowSurrogate (0xdc00 + (c.toNat - 0x10000) % 1024) := by
        simp only [isLowSurrogate, Bool.and_eq_true, decide_eq_true_eq]
        omega
      simp only [List.cons_append, List.nil_append, joinPieces, hh, hl, Bool.and_self, if_true]
      have he : 0x10000 + (0xd800 + (c.toNat - 0x10000) / 1024 - 0xd800) * 1024 +
          (0xdc00 + (c.toNat - 0x10000) % 1024 - 0xdc00) = c.toNat := by omega
      rw [he, Char.ofNat_toNat]

theorem scanPieces_flatMap (cs s : List Char) :
    scanPieces (cs.flatMap escapeChar ++ quote :: s) = some (cs.flatMap pieces, s) := by
  induction cs
  case nil =>
    rw [List.flatMap_nil, List.nil_append, scanPieces.eq_def]
    exact if_pos rfl
  case cons c cs hi =>
    rw [List.flatMap_cons, List.append_assoc, scanPieces_escapeChar, hi]
    rfl

theorem joinPieces_flatMap (cs : List Char) : joinPieces (cs.flatMap pieces) = some cs := by
  induction cs
  case nil           => rfl
  case cons c cs hi =>
    rw [List.flatMap_cons, joinPieces_pieces, hi]
    rfl

-- What was written between the quotes is read from there.
theorem scanString_writeString (cs s : List Char) :
    scanString (cs.flatMap escapeChar ++ quote :: s) = some (cs, s) := by
  simp [scanString, scanPieces_flatMap, joinPieces_flatMap]

end RoundTrip

section Printable

theorem isPrintable_digitChar : ∀ n < 16, isPrintable (Nat.digitChar n) := by
  decide

theorem isPrintable_escapeUnit (hn : n < 0x10000) : ∀ c ∈ escapeUnit n, isPrintable c := by
  simp only [escapeUnit, List.forall_mem_cons, List.not_mem_nil, false_imp_iff, implies_true,
    and_true]
  exact ⟨by decide, by decide, isPrintable_digitChar _ (by omega),
    isPrintable_digitChar _ (by omega), isPrintable_digitChar _ (by omega),
    isPrintable_digitChar _ (by omega)⟩

theorem isPrintable_escapeChar (c : Char) : ∀ d ∈ escapeChar c, isPrintable d := by
  have hc : c.toNat < 0x110000 := lt_of_char c
  unfold escapeChar
  cases he : escapes.lookup c
  case some e =>
    have h : ∀ p ∈ escapes, isPrintable p.2 := by decide
    simpa using ⟨by decide, h _ <| mem_of_lookup he⟩
  case none =>
    dsimp only
    split
    case isTrue hp => simpa using hp
    case isFalse =>
      split
      case isTrue hn  => exact isPrintable_escapeUnit hn
      case isFalse hn =>
        intro d hd
        rcases List.mem_append.mp hd with hd | hd
        · exact isPrintable_escapeUnit (by omega) d hd
        · exact isPrintable_escapeUnit (by omega) d hd

theorem isPrintable_writeString (cs : List Char) : ∀ c ∈ writeString cs, isPrintable c := by
  intro c hc
  simp only [writeString, List.cons_append, List.mem_cons, List.mem_append, List.mem_flatMap,
    List.not_mem_nil, or_false] at hc
  rcases hc with rfl | ⟨d, _, hd⟩ | rfl
  · decide
  · exact isPrintable_escapeChar d c hd
  · decide

end Printable
end JsonText
