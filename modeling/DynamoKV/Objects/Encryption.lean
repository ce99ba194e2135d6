import DynamoKV.Objects.Backend

namespace DynamoKV

structure Base64 where
  encode : List UInt8 → String
  decode : String → Option (List UInt8)

-- Decryption raises an exception for what was not encrypted like that.
structure AESGCM (K : Type) where
  encrypt : K → (nonce data : List UInt8) → (associatedData : Option (List UInt8)) → List UInt8
  decrypt : K → (nonce data : List UInt8) → (associatedData : Option (List UInt8)) →
    Option (List UInt8)

-- The libraries which `EncryptedStorage` relies on.
structure Libraries (J K : Type) where
  json   : Json J
  base64 : Base64
  aesgcm : AESGCM K

structure Libraries.Lawful (lib : Libraries J K) : Prop where
  json    : lib.json.Lawful
  decode  : ∀ bytes, lib.base64.decode (lib.base64.encode bytes) = some bytes
  decrypt : ∀ key (nonce : Nonce) data associatedData,
    lib.aesgcm.decrypt key nonce.bytes (lib.aesgcm.encrypt key nonce.bytes data associatedData)
      associatedData = some data

namespace Libraries

variable {J K σ : Type} (lib : Libraries J K)

def plaintext (value : J) : List UInt8 :=
  Utf8.encode (lib.json.dumps value).toList

def ciphertext (key : K) (nonce : Nonce) (value : J) : List UInt8 :=
  lib.aesgcm.encrypt key nonce.bytes (lib.plaintext value) none

-- The envelope which `put` stores.
def encryptValue (key : K) (nonce : Nonce) (value : J) : J :=
  lib.json.envelope (lib.base64.encode nonce.bytes)
    (lib.base64.encode <| lib.ciphertext key nonce value)

-- The nonce and the ciphertext in an envelope.
def unpack (envelope : J) : Option (List UInt8 × List UInt8) := do
  let nonce ← lib.base64.decode (← lib.json.nonce envelope)
  let ciphertext ← lib.base64.decode (← lib.json.ciphertext envelope)
  return (nonce, ciphertext)

def decryptValue (key : K) (envelope : J) : Option J := do
  let (nonce, ciphertext) ← lib.unpack envelope
  let plaintext ← lib.aesgcm.decrypt key nonce ciphertext none
  lib.json.loadsBytes plaintext

end Libraries

def EncryptedStorage [DecidableEq J] (lib : Libraries J K) (inner : StorageBackend J σ) (key : K) :
    StorageBackend J σ where
  empty           := inner.empty
  get s k         := do
    let envelope ← inner.get s k
    if envelope = lib.json.null then return lib.json.null
    lib.decryptValue key envelope
  put nonce s k v := inner.put nonce s k (lib.encryptValue key nonce v)
  delete s k      := inner.delete s k
  exists' s k     := inner.exists' s k

section Lawful

variable {J K σ : Type} {lib : Libraries J K} (l : lib.Lawful)
include l

theorem Libraries.Lawful.unpack (key : K) (nonce : Nonce) (value : J) :
    lib.unpack (lib.encryptValue key nonce value) =
      some (nonce.bytes, lib.ciphertext key nonce value) := by
  simp [Libraries.unpack, encryptValue, l.json.nonce_envelope, l.json.ciphertext_envelope, l.decode]

theorem Libraries.Lawful.decryptValue (key : K) (nonce : Nonce) (value : J) :
    lib.decryptValue key (lib.encryptValue key nonce value) = some value := by
  simp [Libraries.decryptValue, l.unpack, ciphertext, plaintext, l.decrypt, l.json.loadsBytes_dumps]

theorem Libraries.Lawful.encryptValue_ne_null (key : K) (nonce : Nonce) (value : J) :
    lib.encryptValue key nonce value ≠ lib.json.null :=
  l.json.envelope_ne_null _ _

theorem StorageBackend.Lawful.encrypted [DecidableEq J] {inner : StorageBackend J σ}
    (h : inner.Lawful lib.json) (key : K) : (EncryptedStorage lib inner key).Lawful lib.json where
  get_put_self        := by
    simp [EncryptedStorage, h.get_put_self, l.encryptValue_ne_null, l.decryptValue]
  get_put_of_ne       := by simp +contextual [EncryptedStorage, h.get_put_of_ne]
  get_delete_of_ne    := by simp +contextual [EncryptedStorage, h.get_delete_of_ne]
  get_of_not_exists   := by simp +contextual [EncryptedStorage, h.get_of_not_exists]
  exists_empty        := h.exists_empty
  exists_put_self _ _ _ _  := h.exists_put_self ..
  exists_put_of_ne _ _ _ _ := h.exists_put_of_ne _ _ _ _
  exists_delete       := h.exists_delete
  exists_delete_of_ne := h.exists_delete_of_ne
  delete_fst          := h.delete_fst

end Lawful

section StandIn

-- Stand-ins for the libraries, as an example. Texts are preceded by their lengths, and ciphertexts
-- by their nonces.
def standInDumps : Option (String × String) → String
  | none        => "null"
  | some (n, c) => String.ofList <| List.replicate n.length '(' ++ ')' :: (n.toList ++ c.toList)

def standInLoads (text : String) : Option (Option (String × String)) :=
  if text = "null" then some none
  else
    let length := (text.toList.takeWhile (· = '(')).length
    let rest   := text.toList.drop (length + 1)
    some <| some (String.ofList (rest.take length), String.ofList (rest.drop length))

def standIn : Libraries (Option (String × String)) Unit where
  json := {
    null           := none
    dumps          := standInDumps
    loads          := standInLoads
    loadsBytes b   := standInLoads <| String.ofList <| Utf8.decode b
    envelope n c   := some (n, c)
    nonce          := Option.map Prod.fst
    ciphertext     := Option.map Prod.snd
  }
  base64 := {
    encode bytes := String.ofList <| bytes.map fun b => Char.ofNat b.toNat
    decode text  := some <| text.toList.map fun c => UInt8.ofNat c.toNat
  }
  aesgcm := {
    encrypt _ nonce data _ := nonce ++ data
    decrypt _ nonce data _ :=
      if data.take nonce.length = nonce then some <| data.drop nonce.length else none
  }

def standInDraws (i : Nat) : Nonce :=
  ⟨List.replicate 12 (.ofNat i), List.length_replicate⟩

theorem standInLoads_standInDumps (v : Option (String × String)) :
    standInLoads (standInDumps v) = some v := by
  cases v
  case none        => rfl
  case some v =>
    obtain ⟨n, c⟩ := v
    have hn : standInDumps (some (n, c)) ≠ "null" := by
      intro h
      have h := congrArg (fun s => s.toList.head?) h
      cases hl : n.length <;> simp [standInDumps, hl, List.replicate_succ] at h
    have ht : (standInDumps (some (n, c))).toList.takeWhile (· = '(') =
        List.replicate n.length '(' := by
      rw [standInDumps, String.toList_ofList, List.takeWhile_append_of_pos (by simp)]
      simp
    have hl : n.toList.length = n.length := String.length_toList
    rw [standInLoads, if_neg hn, ht]
    simp [standInDumps, ← hl, List.drop_append]

theorem lawful_standIn : standIn.Lawful where
  json := {
    loads_dumps         := standInLoads_standInDumps
    loadsBytes_dumps v  := by
      simp [standIn, Utf8.decode_encode, standInLoads_standInDumps]
    nonce_envelope _ _      := rfl
    ciphertext_envelope _ _ := rfl
    envelope_ne_null _ _    := by simp [standIn]
  }
  decode bytes := by
    have h : ∀ b : UInt8, UInt8.ofNat (Char.ofNat b.toNat).toNat = b := by
      intro b
      have hb : b.toNat.isValidChar := .inl <| b.toNat_lt.trans (by decide)
      have hn : (Char.ofNat b.toNat).toNat = b.toNat := by
        rw [Char.ofNat, dif_pos hb]
        rfl
      rw [hn, UInt8.ofNat_toNat]
    simp [standIn, Function.comp_def, h]
  decrypt _ _ _ _ := by simp [standIn]

end StandIn

theorem backends_observationally_equal [DecidableEq J] {lib : Libraries J K} (l : lib.Lawful)
    (key key' : K) (d₁ d₂ d₃ d₄ : Nat → Nonce) (calls : List (StorageCall J)) :
    let memory := MemoryStorage lib.json
    let sqlite := SqliteStorage lib.json
    sqlite.results d₂ sqlite.empty 0 calls = memory.results d₁ memory.empty 0 calls ∧
    (EncryptedStorage lib memory key).results d₃ memory.empty 0 calls =
      memory.results d₁ memory.empty 0 calls ∧
    (EncryptedStorage lib sqlite key').results d₄ sqlite.empty 0 calls =
      memory.results d₁ memory.empty 0 calls := by
  have hm := StorageBackend.lawful_memory lib.json
  have hs := StorageBackend.lawful_sqlite l.json
  have h := hm.results d₁ d₁ calls
  refine ⟨?_, ?_, ?_⟩
  · exact (hs.results d₂ d₁ calls).trans h.symm
  · exact ((hm.encrypted l key).results d₃ d₁ calls).trans h.symm
  · exact ((hs.encrypted l key').results d₄ d₁ calls).trans h.symm

theorem backends_observationally_equal_null :
    (EncryptedStorage standIn (SqliteStorage standIn.json) ()).results standInDraws .empty 0
      [.put "k" none, .get "k", .delete "k", .get "k"] =
      (MemoryStorage standIn.json).results standInDraws .empty 0
        [.put "k" none, .get "k", .delete "k", .get "k"] :=
  (backends_observationally_equal lawful_standIn () () standInDraws standInDraws standInDraws
    standInDraws _).right.right

end DynamoKV
