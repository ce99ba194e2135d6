import DynamoKV.Lib.JsonText.Strings

-- JSON values and their texts as Python's `json` module writes and reads them.
namespace JsonText

-- Objects list their members in the order of the dict.
inductive Value (F : Type)
  | null
  | bool (b : Bool)
  | int (n : Int)
  | float (x : F)
  | str (s : String)
  | arr (vs : List (Value F))
  | obj (ms : List (String × Value F))

def isToken (c : Char) : Bool :=
  c.isAlphanum || c = '+' || c = '-' || c = '.'

def isSpace (c : Char) : Bool :=
  c = ' ' || c = '\t' || c = '\n' || c = '\r'

section Tokens

def writeInt (n : Int) : List Char :=
  if n < 0 then '-' :: Nat.toDigits 10 n.natAbs else Nat.toDigits 10 n.natAbs

-- No leading zeros are allowed.
def readNat (ds : List Char) : Option Nat :=
  if ds ≠ [] ∧ ds.all Char.isDigit ∧ (ds.head? = some '0' → ds.length = 1) then
    some <| Nat.ofDigitChars 10 ds 0
  else none

def readInt (t : List Char) : Option Int :=
  if t.head? = some '-' then (readNat t.tail).map (-Int.ofNat ·)
  else (readNat t).map Int.ofNat

-- The representation of floating-point numbers, and how it is read.
structure Floats (F : Type) where
  repr : F → List Char
  read : List Char → Option F

-- Numbers are not written like integers, and are read as they were written.
structure Floats.Lawful (fl : Floats F) : Prop where
  read_repr : ∀ x, fl.read (fl.repr x) = some x
  ne_nil    : ∀ x, fl.repr x ≠ []
  token     : ∀ x, ∀ c ∈ fl.repr x, isToken c
  not_int   : ∀ x, readInt (fl.repr x) = none
  not_word  : ∀ x, fl.repr x ∉ ["null".toList, "true".toList, "false".toList]

end Tokens

section Write

variable (fl : Floats F)

mutual

def dump : Value F → List Char
  | .null   => "null".toList
  | .bool b => if b then "true".toList else "false".toList
  | .int n  => writeInt n
  | .float x => fl.repr x
  | .str s  => writeString s.toList
  | .arr vs => '[' :: dumpElements vs ++ [']']
  | .obj ms => '{' :: dumpMembers ms ++ ['}']

def dumpElements : List (Value F) → List Char
  | []           => []
  | [v]          => dump v
  | v :: w :: vs => dump v ++ ',' :: ' ' :: dumpElements (w :: vs)

def dumpMembers : List (String × Value F) → List Char
  | []                => []
  | [(k, v)]          => writeString k.toList ++ ':' :: ' ' :: dump v
  | (k, v) :: m :: ms =>
    writeString k.toList ++ ':' :: ' ' :: dump v ++ ',' :: ' ' :: dumpMembers (m :: ms)

end
end Write

section Read

-- `dict` of a list of pairs, in which a key keeps its place when its value is replaced.
def setItem (d : List (String × β)) (m : String × β) : List (String × β) :=
  if m.1 ∈ d.map Prod.fst then d.map fun e => if e.1 = m.1 then m else e else d ++ [m]

def dictOf (ms : List (String × β)) : List (String × β) :=
  ms.foldl setItem []

def skipSpace (s : List Char) : List Char :=
  s.dropWhile isSpace

variable (fl : Floats F)

def readToken (t : List Char) : Option (Value F) :=
  if t = "null".toList then some .null
  else if t = "true".toList then some <| .bool true
  else if t = "false".toList then some <| .bool false
  else match readInt t with
    | some n => some <| .int n
    | none   => (fl.read t).map .float

-- Each function returns what it has read and the rest of the text. The first argument bounds the
-- depth of the recursion.
mutual

def scanOnce : Nat → List Char → Option (Value F × List Char)
  | 0, _          => none
  | _ + 1, []     => none
  | n + 1, c :: s =>
    if c = quote then (scanString s).map fun x => (.str <| String.ofList x.1, x.2)
    else if c = '[' then
      match skipSpace s with
      | ']' :: s => some (.arr [], s)
      | s        => (scanElements n s).map fun x => (.arr x.1, x.2)
    else if c = '{' then
      match skipSpace s with
      | '}' :: s => some (.obj [], s)
      | s        => (scanMembers n s).map fun x => (.obj <| dictOf x.1, x.2)
    else (readToken fl <| (c :: s).takeWhile isToken).map fun v => (v, (c :: s).dropWhile isToken)

-- The elements up to the closing bracket.
def scanElements : Nat → List Char → Option (List (Value F) × List Char)
  | 0, _     => none
  | n + 1, s => do
    let (v, s) ← scanOnce n s
    match skipSpace s with
    | ']' :: s => return ([v], s)
    | ',' :: s =>
      let (vs, s) ← scanElements n (skipSpace s)
      return (v :: vs, s)
    | _        => none

-- The members up to the closing brace.
def scanMembers : Nat → List Char → Option (List (String × Value F) × List Char)
  | 0, _          => none
  | _ + 1, []     => none
  | n + 1, c :: s => do
    guard (c = quote)
    let (k, s) ← scanString s
    match skipSpace s with
    | ':' :: s =>
      let (v, s) ← scanOnce n (skipSpace s)
      match skipSpace s with
      | '}' :: s => return ([(String.ofList k, v)], s)
      | ',' :: s =>
        let (ms, s) ← scanMembers n (skipSpace s)
        return ((String.ofList k, v) :: ms, s)
      | _        => none
    | _        => none

end

-- The whole text has to be one value.
def parse (s : List Char) : Option (Value F) := do
  let (v, s) ← scanOnce fl (s.length + 1) (skipSpace s)
  guard (skipSpace s = [])
  return v

end Read

-- Objects have no key twice, as they are dicts.
mutual

def Value.valid : Value F → Bool
  | .arr vs => allValid vs
  | .obj ms => decide (ms.map Prod.fst).Nodup && membersValid ms
  | _       => true

def allValid : List (Value F) → Bool
  | []      => true
  | v :: vs => v.valid && allValid vs

def membersValid : List (String × Value F) → Bool
  | []           => true
  | (_, v) :: ms => v.valid && membersValid ms

end

section Digits

theorem head?_toDigits_ne_zero (n : Nat) (hn : 0 < n) : (Nat.toDigits 10 n).head? ≠ some '0' := by
  induction n using Nat.strong_induction_on
  case _ n hi =>
    by_cases h : n < 10
    case pos =>
      have hd : ∀ n < 10, 0 < n → Nat.digitChar n ≠ '0' := by decide
      rw [Nat.toDigits_of_lt_base h]
      simpa using hd n h hn
    case neg =>
      rw [Nat.toDigits_of_base_le (by norm_num) (by omega), List.head?_append_of_ne_nil]
      · exact hi _ (by omega) (by omega)
      · exact Nat.toDigits_ne_nil

theorem readNat_toDigits (n : Nat) : readNat (Nat.toDigits 10 n) = some n := by
  rw [readNat, if_pos, Nat.ofDigitChars_ten_toDigits]
  refine ⟨Nat.toDigits_ne_nil, List.all_eq_true.mpr fun c hc => ?_, fun h => ?_⟩
  · exact Nat.isDigit_of_mem_toDigits (by norm_num) le_rfl hc
  · have hn : n = 0 := by
      by_contra hn
      exact head?_toDigits_ne_zero n (Nat.pos_of_ne_zero hn) h
    rw [hn, Nat.toDigits_zero]
    rfl

theorem head?_toDigits_ne_minus (n : Nat) : (Nat.toDigits 10 n).head? ≠ some '-' := by
  intro h
  have hd := Nat.isDigit_of_mem_toDigits (by norm_num) le_rfl <| List.mem_of_head? h
  simp at hd

theorem readInt_writeInt (n : Int) : readInt (writeInt n) = some n := by
  unfold writeInt readInt
  split
  case isTrue hn =>
    rw [if_pos List.head?_cons, List.tail_cons, readNat_toDigits, Option.map_some]
    exact congrArg some (by simp only [Int.ofNat_eq_natCast]; omega)
  case isFalse hn =>
    rw [if_neg (head?_toDigits_ne_minus _), readNat_toDigits, Option.map_some]
    exact congrArg some (by simp only [Int.ofNat_eq_natCast]; omega)

theorem isToken_of_isDigit (h : c.isDigit) : isToken c := by
  simp [isToken, Char.isAlphanum, h]

theorem isToken_writeInt (n : Int) : ∀ c ∈ writeInt n, isToken c := by
  have hd : ∀ c ∈ Nat.toDigits 10 n.natAbs, isToken c := fun c hc =>
    isToken_of_isDigit <| Nat.isDigit_of_mem_toDigits (by norm_num) le_rfl hc
  unfold writeInt
  split
  case isTrue  => exact List.forall_mem_cons.mpr ⟨by decide, hd⟩
  case isFalse => exact hd

theorem writeInt_ne_nil (n : Int) : writeInt n ≠ [] := by
  unfold writeInt
  split
  case isTrue  => exact List.cons_ne_nil _ _
  case isFalse => exact Nat.toDigits_ne_nil

theorem writeInt_not_word (n : Int) :
    writeInt n ∉ ["null".toList, "true".toList, "false".toList] := by
  intro h
  have hr := readInt_writeInt n
  simp only [List.mem_cons, List.not_mem_nil, or_false] at h
  have words : ∀ t ∈ ["null".toList, "true".toList, "false".toList], readInt t = none := by decide
  rcases h with h | h | h <;>
  · rw [h, words _ (by decide)] at hr
    contradiction

end Digits

section DecidableEq

variable [DecidableEq F]

mutual

def Value.beq : Value F → Value F → Bool
  | .null, .null       => true
  | .bool a, .bool b   => a = b
  | .int a, .int b     => a = b
  | .float a, .float b => a = b
  | .str a, .str b     => a = b
  | .arr a, .arr b     => elementsBeq a b
  | .obj a, .obj b     => membersBeq a b
  | _, _               => false

def elementsBeq : List (Value F) → List (Value F) → Bool
  | [], []           => true
  | v :: vs, w :: ws => v.beq w && elementsBeq vs ws
  | _, _             => false

def membersBeq : List (String × Value F) → List (String × Value F) → Bool
  | [], []                     => true
  | (j, v) :: vs, (k, w) :: ws => decide (j = k) && v.beq w && membersBeq vs ws
  | _, _                       => false

end

mutual

theorem beq_iff : ∀ v w : Value F, v.beq w ↔ v = w
  | .arr vs, w => by
    cases w <;> simp [Value.beq, elementsBeq_iff vs]
  | .obj ms, w => by
    cases w <;> simp [Value.beq, membersBeq_iff ms]
  | .null, w | .bool _, w | .int _, w | .float _, w | .str _, w => by
    cases w <;> simp [Value.beq]

theorem elementsBeq_iff : ∀ vs ws : List (Value F), elementsBeq vs ws ↔ vs = ws
  | [], ws      => by cases ws <;> simp [elementsBeq]
  | v :: vs, ws => by
    cases ws <;> simp [elementsBeq, beq_iff v, elementsBeq_iff vs]

theorem membersBeq_iff : ∀ vs ws : List (String × Value F), membersBeq vs ws ↔ vs = ws
  | [], ws           => by cases ws <;> simp [membersBeq]
  | (j, v) :: vs, ws => by
    rcases ws with _ | ⟨⟨k, w⟩, ws⟩ <;> simp [membersBeq, beq_iff v, membersBeq_iff vs]

end

instance : DecidableEq (Value F) :=
  fun v w => decidable_of_iff _ (beq_iff v w)

end DecidableEq
end JsonText
