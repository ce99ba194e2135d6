import DynamoKV.Lib.Utf8
import Mathlib.Data.List.Basic
import Mathlib.Data.Char
import Mathlib.Tactic

-- Percent-encoded URL paths: what a sender makes of a string, and what a receiver reads from it.
namespace Percent

def isHexDigit (c : Char) : Bool :=
  ('0' ≤ c && c ≤ '9') || ('a' ≤ c && c ≤ 'f') || ('A' ≤ c && c ≤ 'F')

def hexValue (c : Char) : Nat :=
  if c ≤ '9' then c.toNat - '0'.toNat
  else if c ≤ 'F' then c.toNat - 'A'.toNat + 10
  else c.toNat - 'a'.toNat + 10

def hexDigit (n : Nat) : Char :=
  Char.ofNat <| if n < 10 then '0'.toNat + n else 'A'.toNat + n - 10

inductive Token
  | char (c : Char)
  | escape (c₁ c₂ : Char)

-- Splits a string into its `%XX` escapes and the characters between them.
def tokens : List Char → List Token
  | c :: c₁ :: c₂ :: cs =>
    if c = '%' ∧ isHexDigit c₁ ∧ isHexDigit c₂ then .escape c₁ c₂ :: tokens cs
    else .char c :: tokens (c₁ :: c₂ :: cs)
  | c :: cs => .char c :: tokens cs
  | []      => []

-- The characters which a sender leaves as they are.
structure SafeSet where
  safe          : Char → Bool
  ascii         : safe c → c.toNat < 128
  not_percent   : safe '%' = false

def SafeSet.lowercase : SafeSet where
  safe c      := c = '/' || 'a' ≤ c && c ≤ 'z'
  ascii h     := by
    simp only [Bool.or_eq_true, Bool.and_eq_true, decide_eq_true_eq] at h
    rcases h with rfl | ⟨_, h⟩
    · decide
    · exact Nat.lt_of_le_of_lt h (by decide)
  not_percent := by decide

def escapeByte (b : UInt8) : List Char :=
  ['%', hexDigit (b.toNat / 16), hexDigit (b.toNat % 16)]

-- Existing escapes are sent as they are.
def Token.encode (s : SafeSet) : Token → List Char
  | escape c₁ c₂ => ['%', c₁, c₂]
  | char c       => if s.safe c then [c] else (String.utf8EncodeChar c).flatMap escapeByte

def Token.bytes : Token → List UInt8
  | escape c₁ c₂ => [UInt8.ofNat (16 * hexValue c₁ + hexValue c₂)]
  | char c       => String.utf8EncodeChar c

def encode (s : SafeSet) (path : List Char) : List Char :=
  (tokens path).flatMap (·.encode s)

-- Percent-decoding, with the remaining characters read as their bytes.
def decode (path : List Char) : List UInt8 :=
  (tokens path).flatMap Token.bytes

def hasEscape : List Char → Bool
  | c :: c₁ :: c₂ :: cs =>
    (c = '%' ∧ isHexDigit c₁ ∧ isHexDigit c₂) || hasEscape (c₁ :: c₂ :: cs)
  | _ => false

section Tokens

theorem tokens_escape (h₁ : isHexDigit c₁) (h₂ : isHexDigit c₂) (cs : List Char) :
    tokens ('%' :: c₁ :: c₂ :: cs) = .escape c₁ c₂ :: tokens cs := by
  simp [tokens, h₁, h₂]

theorem tokens_of_ne_percent (h : c ≠ '%') (cs : List Char) :
    tokens (c :: cs) = .char c :: tokens cs := by
  match cs with
  | [] | [_] => rfl
  | _ :: _ :: _ => simp [tokens, h]

theorem tokens_append_of_not_mem_percent (h : '%' ∉ pre) (cs : List Char) :
    tokens (pre ++ cs) = pre.map .char ++ tokens cs := by
  induction pre
  case nil => rfl
  case cons c pre hi =>
    simp only [List.mem_cons, not_or] at h
    rw [List.cons_append, tokens_of_ne_percent (Ne.symm h.left), hi h.right]
    rfl

theorem tokens_of_not_hasEscape (h : ¬hasEscape cs) : tokens cs = cs.map .char := by
  induction cs
  case nil => rfl
  case cons c cs hi =>
    match cs with
    | [] | [_] => rfl
    | c₁ :: c₂ :: cs' =>
      simp only [hasEscape, Bool.or_eq_true, decide_eq_true_eq, not_or] at h
      simp only [tokens, if_neg h.left]
      rw [hi h.right]
      rfl

end Tokens

section Decode

theorem isHexDigit_hexDigit : ∀ n < 16, isHexDigit (hexDigit n) := by decide

theorem hexValue_hexDigit : ∀ n < 16, hexValue (hexDigit n) = n := by decide

theorem tokens_escapeByte_append (b : UInt8) (cs : List Char) :
    tokens (escapeByte b ++ cs) =
      .escape (hexDigit (b.toNat / 16)) (hexDigit (b.toNat % 16)) :: tokens cs := by
  have hb := b.toNat_lt
  apply tokens_escape <;> apply isHexDigit_hexDigit <;> omega

theorem bytes_escape_hexDigit (b : UInt8) :
    (Token.escape (hexDigit (b.toNat / 16)) (hexDigit (b.toNat % 16))).bytes = [b] := by
  have hb := b.toNat_lt
  have hn : 16 * (b.toNat / 16) + b.toNat % 16 = b.toNat := Nat.div_add_mod ..
  simp only [Token.bytes]
  rw [hexValue_hexDigit _ (by omega), hexValue_hexDigit _ (by omega), hn, UInt8.ofNat_toNat]

theorem decode_flatMap_escapeByte (bs : List UInt8) (cs : List Char) :
    decode (bs.flatMap escapeByte ++ cs) = bs ++ decode cs := by
  induction bs
  case nil => rfl
  case cons b bs hi =>
    rw [List.flatMap_cons, List.append_assoc, decode, tokens_escapeByte_append, List.flatMap_cons,
      bytes_escape_hexDigit]
    exact congrArg _ hi

-- Valid escapes are those which `tokens` yields.
def Token.Valid : Token → Prop
  | escape c₁ c₂ => isHexDigit c₁ ∧ isHexDigit c₂
  | char _       => True

theorem valid_of_mem_tokens (h : t ∈ tokens cs) : t.Valid := by
  fun_induction tokens cs
  case case1 hc hi => exact (List.mem_cons.mp h).elim (· ▸ hc.right) hi
  case case2 hi    => exact (List.mem_cons.mp h).elim (· ▸ trivial) hi
  case case3 hi    => exact (List.mem_cons.mp h).elim (· ▸ trivial) hi
  case case4       => simp at h

theorem decode_encode_append (s : SafeSet) {t : Token} (ht : t.Valid) (cs : List Char) :
    decode (t.encode s ++ cs) = t.bytes ++ decode cs := by
  cases t
  case escape c₁ c₂ =>
    have h : tokens ('%' :: c₁ :: c₂ :: cs) = _ := tokens_escape ht.left ht.right cs
    simp [decode, Token.encode, h]
  case char c =>
    simp only [Token.encode]
    split
    case isFalse => exact decode_flatMap_escapeByte ..
    case isTrue h =>
      have hc : c ≠ '%' := fun hc => by simp [hc, s.not_percent] at h
      rw [decode, List.singleton_append, tokens_of_ne_percent hc]
      rfl

-- The receiver reads the bytes of what the sender was given, with each escape read as a byte.
theorem decode_encode (s : SafeSet) (path : List Char) : decode (encode s path) = decode path := by
  have h : ∀ ts : List Token, (∀ t ∈ ts, t.Valid) →
      decode (ts.flatMap (·.encode s)) = ts.flatMap Token.bytes := by
    intro ts
    induction ts
    case nil => exact fun _ => rfl
    case cons t ts hi =>
      intro hv
      rw [List.flatMap_cons, decode_encode_append s (hv t (by simp)), List.flatMap_cons]
      exact congrArg _ <| hi fun t ht => hv t (List.mem_cons_of_mem _ ht)
  exact h _ fun _ => valid_of_mem_tokens

theorem decode_append_of_not_mem_percent (h : '%' ∉ pre) (cs : List Char) :
    decode (pre ++ cs) = Utf8.encode pre ++ decode cs := by
  rw [decode, tokens_append_of_not_mem_percent h, List.flatMap_append, List.flatMap_map]
  rfl

theorem decode_of_not_hasEscape (h : ¬hasEscape cs) : decode cs = Utf8.encode cs := by
  rw [decode, tokens_of_not_hasEscape h, List.flatMap_map]
  rfl

end Decode

section Count

theorem isAscii_of_isHexDigit (h : isHexDigit c) : Utf8.isAscii c := by
  have h₁ : '9'.toNat < 128 := by decide
  have h₂ : 'f'.toNat < 128 := by decide
  have h₃ : 'F'.toNat < 128 := by decide
  simp only [isHexDigit, Bool.or_eq_true, Bool.and_eq_true, decide_eq_true_eq, Char.le_def,
    UInt32.le_iff_toNat_le] at h
  simp only [Utf8.isAscii, decide_eq_true_eq, Char.toNat] at *
  omega

theorem countP_bytes_escape (c₁ c₂ : Char) :
    (Token.escape c₁ c₂).bytes.countP Utf8.isAsciiByte ≤ 1 :=
  List.countP_le_length

-- An escape is written with three ASCII characters, and stands for at most one.
theorem countP_decode_add_le (cs : List Char) :
    (decode cs).countP Utf8.isAsciiByte + (if hasEscape cs then 2 else 0) ≤
      cs.countP Utf8.isAscii := by
  unfold decode
  fun_induction tokens cs
  case case1 c c₁ c₂ cs hc hi =>
    have h₁ := countP_bytes_escape c₁ c₂
    have h₀ : Utf8.isAscii c := hc.left ▸ by decide
    rw [List.flatMap_cons, List.countP_append, List.countP_cons_of_pos h₀,
      List.countP_cons_of_pos (isAscii_of_isHexDigit hc.right.left),
      List.countP_cons_of_pos (isAscii_of_isHexDigit hc.right.right)]
    split_ifs at hi ⊢ <;> omega
  case case2 c c₁ c₂ cs hc hi =>
    have he : hasEscape (c :: c₁ :: c₂ :: cs) = hasEscape (c₁ :: c₂ :: cs) := by
      simp [hasEscape, hc]
    rw [he, List.flatMap_cons, List.countP_append, Token.bytes, Utf8.countP_encodeChar,
      List.countP_cons (l := c₁ :: c₂ :: cs)]
    omega
  case case3 c cs hcs hi =>
    have he : hasEscape (c :: cs) = hasEscape cs := by
      cases cs <;> simp_all [hasEscape]
    rw [he, List.flatMap_cons, List.countP_append, Token.bytes, Utf8.countP_encodeChar,
      List.countP_cons (l := cs)]
    omega
  case case4 => simp [hasEscape]

end Count
end Percent
