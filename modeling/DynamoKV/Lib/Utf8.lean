import Mathlib.Data.List.Basic
import Mathlib.Tactic

-- Decoding of UTF-8 in which every maximal ill-formed sequence of bytes is replaced by U+FFFD.
namespace Utf8

def decodeChar? (bytes : List UInt8) : Option Char :=
  bytes.toByteArray.utf8DecodeChar? 0

def replacement : Char :=
  '\uFFFD'

-- Whether a character may start with the bytes `b₁` and `b₂` and continue after them.
def startsLonger (b₁ b₂ : UInt8) : Bool :=
  if b₁ = 0xe0 then 0xa0 ≤ b₂ && b₂ ≤ 0xbf
  else if b₁ = 0xed then 0x80 ≤ b₂ && b₂ ≤ 0x9f
  else if b₁ = 0xf0 then 0x90 ≤ b₂ && b₂ ≤ 0xbf
  else if b₁ = 0xf4 then 0x80 ≤ b₂ && b₂ ≤ 0x8f
  else 0xe1 ≤ b₁ && b₁ ≤ 0xf3 && 0x80 ≤ b₂ && b₂ ≤ 0xbf

-- How many bytes after the first belong to the ill-formed sequence at the start of `bytes`.
def illFormed : List UInt8 → Nat
  | b₁ :: b₂ :: b₃ :: _ =>
    if startsLonger b₁ b₂ then
      if 0xf0 ≤ b₁ ∧ 0x80 ≤ b₃ ∧ b₃ ≤ 0xbf then 2 else 1
    else 0
  | [b₁, b₂] => if startsLonger b₁ b₂ then 1 else 0
  | _        => 0

-- The first `skip` bytes are part of the character decoded last.
def decodeFrom (skip : Nat) : List UInt8 → List Char
  | []          => []
  | byte :: bytes =>
    match skip with
    | skip + 1 => decodeFrom skip bytes
    | 0        =>
      match decodeChar? (byte :: bytes) with
      | some c => c :: decodeFrom (c.utf8Size - 1) bytes
      | none   => replacement :: decodeFrom (illFormed (byte :: bytes)) bytes

def decode (bytes : List UInt8) : List Char :=
  decodeFrom 0 bytes

def encode (cs : List Char) : List UInt8 :=
  cs.flatMap String.utf8EncodeChar

def isAscii (c : Char) : Bool :=
  c.toNat < 128

def isAsciiByte (b : UInt8) : Bool :=
  b < 128

theorem decodeFrom_append (pre bytes : List UInt8) :
    decodeFrom pre.length (pre ++ bytes) = decode bytes := by
  induction pre
  case nil        => rfl
  case cons _ _ h => exact h

theorem decodeFrom_eq_drop (skip : Nat) (bytes : List UInt8) :
    decodeFrom skip bytes = decode (bytes.drop skip) := by
  induction bytes generalizing skip
  case nil => simp [decode, decodeFrom]
  case cons b bytes hi =>
    cases skip
    case zero      => rfl
    case succ skip => exact hi skip

theorem decodeChar?_encodeChar_append (c : Char) (bytes : List UInt8) :
    decodeChar? (String.utf8EncodeChar c ++ bytes) = some c := by
  rw [decodeChar?, List.toByteArray_append]
  exact ByteArray.utf8DecodeChar?_utf8EncodeChar_append

theorem take_eq_of_decodeChar?_eq_some (h : decodeChar? bytes = some c) :
    bytes.take c.utf8Size = String.utf8EncodeChar c := by
  have he : bytes.toByteArray.extract 0 c.utf8Size = (bytes.take c.utf8Size).toByteArray := by
    ext1
    simp [ByteArray.data_extract]
  have hc := String.toByteArray_utf8EncodeChar_of_utf8DecodeChar?_eq_some h
  exact (List.toByteArray_inj.mp <| hc.trans he).symm

theorem decode_encodeChar_append (c : Char) (bytes : List UInt8) :
    decode (String.utf8EncodeChar c ++ bytes) = c :: decode bytes := by
  have h := decodeChar?_encodeChar_append c bytes
  have hl := String.length_utf8EncodeChar c
  cases he : String.utf8EncodeChar c
  case nil => exact absurd he String.utf8EncodeChar_ne_nil
  case cons b bs =>
    rw [he] at h hl
    rw [List.length_cons] at hl
    rw [List.cons_append] at h ⊢
    rw [decode, decodeFrom]
    simp only [h]
    rw [← hl, Nat.add_sub_cancel, decodeFrom_append]

theorem decode_encode_append (cs : List Char) (bytes : List UInt8) :
    decode (encode cs ++ bytes) = cs ++ decode bytes := by
  induction cs
  case nil => rfl
  case cons c cs hi =>
    rw [encode, List.flatMap_cons, List.append_assoc, decode_encodeChar_append]
    exact congrArg _ hi

theorem decode_encode (cs : List Char) : decode (encode cs) = cs := by
  simpa [decode, decodeFrom] using decode_encode_append cs []

theorem isAsciiByte_ofNat (h : n < 256) : isAsciiByte (UInt8.ofNat n) = decide (n < 128) := by
  have hn : (UInt8.ofNat n).toNat = n := by simp [Nat.mod_eq_of_lt h]
  simp [isAsciiByte, UInt8.lt_iff_toNat_lt, hn]

theorem countP_encodeChar (c : Char) :
    (String.utf8EncodeChar c).countP isAsciiByte = if isAscii c then 1 else 0 := by
  have hc : c.val.toNat = c.toNat := rfl
  simp only [String.utf8EncodeChar, isAscii, hc, decide_eq_true_eq]
  repeat' split
  all_goals
    simp (disch := omega) only [List.countP_cons, List.countP_nil, isAsciiByte_ofNat,
      decide_eq_true_eq]
    repeat' split
    all_goals omega

-- Decoding does not make up ASCII characters.
theorem countP_decode_le (bytes : List UInt8) :
    (decode bytes).countP isAscii ≤ bytes.countP isAsciiByte := by
  generalize hn : bytes.length = n
  induction n using Nat.strongRecOn generalizing bytes
  case ind n hi =>
    match bytes with
    | [] => simp [decode, decodeFrom]
    | b :: bs =>
      cases hd : decodeChar? (b :: bs)
      case some c =>
        have ht := take_eq_of_decodeChar?_eq_some hd
        have he : b :: bs = String.utf8EncodeChar c ++ (b :: bs).drop c.utf8Size := by
          rw [← ht, List.take_append_drop]
        have hlt : ((b :: bs).drop c.utf8Size).length < n := by
          have := c.utf8Size_pos
          simp only [List.length_drop, List.length_cons] at hn ⊢
          omega
        have := hi _ hlt _ rfl
        rw [he, decode_encodeChar_append, List.countP_append, countP_encodeChar, List.countP_cons]
        omega
      case none =>
        have hr : ¬isAscii replacement := by decide
        have hlt : (bs.drop (illFormed (b :: bs))).length < n := by
          simp only [List.length_drop, List.length_cons] at hn ⊢
          omega
        have := hi _ hlt _ rfl
        have hle := (List.drop_sublist (illFormed (b :: bs)) bs).countP_le (p := isAsciiByte)
        rw [decode, decodeFrom]
        simp only [hd]
        rw [decodeFrom_eq_drop, List.countP_cons_of_neg hr, List.countP_cons]
        omega

end Utf8
