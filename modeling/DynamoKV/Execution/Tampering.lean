import DynamoKV.Lib.Transition
import DynamoKV.Objects.Encryption

-- The encrypted stores of a node, whose rows an attacker without the key may rewrite.
namespace DynamoKV.Tampering

inductive StoreName
  | data
  | hints
deriving DecidableEq

-- What was encrypted, and for which row.
structure Sealed (J : Type) where
  store : StoreName
  key   : Key
  value : J
  nonce : Nonce

structure State (J σ : Type) where
  stores : StoreName → σ
  log    : List (Sealed J)

inductive Label (J σ : Type)
  | call (store : StoreName) (call : StorageCall J) (nonce : Nonce)
  | tamper (store : StoreName) (rows : σ)

variable {J K σ : Type}

-- The calls of `put` encrypt.
def sealing (store : StoreName) (nonce : Nonce) : StorageCall J → List (Sealed J)
  | .put key value                    => [⟨store, key, value, nonce⟩]
  | .get _ | .delete _ | .exists' _   => []

-- Both stores are encrypted under one key.
def system [DecidableEq J] (lib : Libraries J K) (inner : StorageBackend J σ) (secret : K) :
    TransitionSystem (State J σ) (Label J σ) where
  init s := s = ⟨fun _ => inner.empty, []⟩
  step s
    | .call store call nonce =>
      let rows := (EncryptedStorage lib inner secret).perform nonce (s.stores store) call |>.2
      some ⟨Function.update s.stores store rows, s.log ++ sealing store nonce call⟩
    | .tamper store rows     => some { s with stores := Function.update s.stores store rows }

-- The envelope in a row, as `get` finds it.
def Envelope (lib : Libraries J K) (inner : StorageBackend J σ) (rows : σ) (key : Key)
    (nonce ciphertext : List UInt8) : Prop :=
  ∃ envelope, inner.get rows key = some envelope ∧ envelope ≠ lib.json.null ∧
    lib.unpack envelope = some (nonce, ciphertext)

-- What can be decrypted was encrypted.
def Genuine (lib : Libraries J K) (inner : StorageBackend J σ) (secret : K) (log : List (Sealed J))
    (rows : σ) : Prop :=
  ∀ key nonce ciphertext, Envelope lib inner rows key nonce ciphertext →
    (lib.aesgcm.decrypt secret nonce ciphertext none).isSome →
    ∃ e ∈ log, e.nonce.bytes = nonce ∧ lib.ciphertext secret e.nonce e.value = ciphertext

-- The attacker does not have the key: rewritten rows with new envelopes cannot be decrypted.
def Ideal (lib : Libraries J K) (inner : StorageBackend J σ) (secret : K) (s : State J σ) :
    Label J σ → Prop
  | .call _ _ _    => True
  | .tamper _ rows => Genuine lib inner secret s.log rows

def PutUnder (log : List (Sealed J)) (store : StoreName) (key : Key) (value : J) : Prop :=
  ∃ e ∈ log, e.store = store ∧ e.key = key ∧ e.value = value

-- Getting a key raises an exception, returns None, or returns a value that was put under it.
def Bound [DecidableEq J] (lib : Libraries J K) (inner : StorageBackend J σ) (secret : K)
    (s : State J σ) (store : StoreName) (key : Key) : Prop :=
  ∀ value, (EncryptedStorage lib inner secret).get (s.stores store) key = some value →
    value = lib.json.null ∨ PutUnder s.log store key value

-- The row does not hold an envelope which was made of a value that was never put there.
def NotMoved (lib : Libraries J K) (inner : StorageBackend J σ) (secret : K) (s : State J σ)
    (store : StoreName) (key : Key) : Prop :=
  ∀ e ∈ s.log, Envelope lib inner (s.stores store) key e.nonce.bytes
    (lib.ciphertext secret e.nonce e.value) →
    e.value = lib.json.null ∨ PutUnder s.log store key e.value

section Genuine

variable {lib : Libraries J K} {inner : StorageBackend J σ} {secret : K} {s : State J σ}
  {log : List (Sealed J)} {rows : σ}

theorem Genuine.append (h : Genuine lib inner secret log rows) (log' : List (Sealed J)) :
    Genuine lib inner secret (log ++ log') rows := by
  intro key nonce ciphertext he hd
  have ⟨e, hm, h⟩ := h key nonce ciphertext he hd
  exact ⟨e, List.mem_append_left _ hm, h⟩

variable (l : lib.Lawful) (hi : inner.Lawful lib.json)

include hi in
theorem genuine_empty : Genuine lib inner secret log inner.empty := by
  intro key nonce ciphertext ⟨envelope, hg, hn, _⟩
  rw [hi.get_of_not_exists _ _ <| hi.exists_empty key] at hg
  exact absurd (Option.some.inj hg).symm hn

include hi in
-- Copying rows needs no key.
theorem Genuine.copy (h : Genuine lib inner secret log rows) (nonce : Nonce)
    (hg : inner.get rows key = some envelope) (key' : Key) :
    Genuine lib inner secret log (inner.put nonce rows key' envelope) := by
  intro key₂ nonce' ciphertext ⟨envelope', hg', hn, hu⟩ hd
  by_cases hk : key₂ = key'
  case pos =>
    subst hk
    cases Option.some.inj <| hg'.symm.trans <| hi.get_put_self ..
    exact h key nonce' ciphertext ⟨envelope, hg, hn, hu⟩ hd
  case neg =>
    rw [hi.get_put_of_ne nonce rows key' envelope key₂ hk] at hg'
    exact h key₂ nonce' ciphertext ⟨envelope', hg', hn, hu⟩ hd

variable [DecidableEq J]

include l hi in
theorem Genuine.perform (h : Genuine lib inner secret log rows) (store : StoreName) (nonce : Nonce)
    (call : StorageCall J) :
    Genuine lib inner secret (log ++ sealing store nonce call)
      ((EncryptedStorage lib inner secret).perform nonce rows call).2 := by
  cases call
  case get key     => exact h.append _
  case exists' key => exact h.append _
  case delete key =>
    intro key' nonce' ciphertext ⟨envelope, hg, hn, hu⟩ hd
    by_cases hk : key' = key
    case pos =>
      subst hk
      have hg' := hi.get_of_not_exists _ _ <| hi.exists_delete rows key'
      exact absurd (Option.some.inj <| hg.symm.trans hg') hn
    case neg =>
      have hg' := (hi.get_delete_of_ne rows key key' hk).symm.trans hg
      exact h.append _ key' nonce' ciphertext ⟨envelope, hg', hn, hu⟩ hd
  case put key value =>
    intro key' nonce' ciphertext ⟨envelope, hg, hn, hu⟩ hd
    by_cases hk : key' = key
    case pos =>
      subst hk
      have hg' := hi.get_put_self nonce rows key' <| lib.encryptValue secret nonce value
      cases Option.some.inj <| hg'.symm.trans hg
      have ⟨hn, hc⟩ := Prod.mk.inj <| Option.some.inj <| (l.unpack ..).symm.trans hu
      exact ⟨⟨store, key', value, nonce⟩, by simp [sealing], hn, hc⟩
    case neg =>
      have hg' := (hi.get_put_of_ne nonce rows key _ key' hk).symm.trans hg
      exact h.append _ key' nonce' ciphertext ⟨envelope, hg', hn, hu⟩ hd

include l hi in
-- Everything in the stores which can be decrypted was encrypted, whatever the attacker does.
theorem genuine_of_reachable (r : (system lib inner secret).Reachable (Ideal lib inner secret) s)
    (store : StoreName) : Genuine lib inner secret s.log (s.stores store) := by
  refine r.invariant (I := fun s => ∀ store, Genuine lib inner secret s.log (s.stores store))
    (fun s hs store => ?_) (fun s label s' _ hp h hs store => ?_) store
  case refine_1 => exact hs ▸ genuine_empty hi
  case refine_2 =>
    cases label
    case call store' call nonce =>
      cases Option.some.inj h
      by_cases hst : store = store'
      case pos => simpa [hst] using (hs store').perform l hi store' nonce call
      case neg => simpa [hst] using (hs store).append _
    case tamper store' rows =>
      cases Option.some.inj h
      by_cases hst : store = store'
      case pos => simpa [hst, Ideal] using hp
      case neg => simpa [hst] using hs store

end Genuine

section Get

variable [DecidableEq J] {lib : Libraries J K} {inner : StorageBackend J σ} {secret : K} {rows : σ}

-- What `get` returns was decrypted, unless it is None.
theorem get_eq_some (h : (EncryptedStorage lib inner secret).get rows key = some value)
    (hn : value ≠ lib.json.null) : ∃ nonce ciphertext plaintext,
      Envelope lib inner rows key nonce ciphertext ∧
      lib.aesgcm.decrypt secret nonce ciphertext none = some plaintext ∧
      lib.json.loadsBytes plaintext = some value := by
  have ⟨envelope, hg, h⟩ := Option.bind_eq_some_iff.mp h
  by_cases he : envelope = lib.json.null
  case pos =>
    rw [if_pos he] at h
    exact absurd (Option.some.inj h).symm hn
  case neg =>
    rw [if_neg he] at h
    have ⟨(nonce, ciphertext), hu, h⟩ := Option.bind_eq_some_iff.mp h
    have ⟨plaintext, hd, hl⟩ := Option.bind_eq_some_iff.mp h
    exact ⟨nonce, ciphertext, plaintext, ⟨envelope, hg, he, hu⟩, hd, hl⟩

theorem get_of_envelope (l : lib.Lawful) {nonce : Nonce} {value : J}
    (h : Envelope lib inner rows key nonce.bytes (lib.ciphertext secret nonce value)) :
    (EncryptedStorage lib inner secret).get rows key = some value := by
  have ⟨envelope, hg, hn, hu⟩ := h
  simp [EncryptedStorage, hg, hn, Libraries.decryptValue, hu, Libraries.ciphertext, l.decrypt,
    Libraries.plaintext, l.json.loadsBytes_dumps]

end Get

theorem bound_iff_notMoved [DecidableEq J] {lib : Libraries J K} (l : lib.Lawful)
    {inner : StorageBackend J σ} (hi : inner.Lawful lib.json) {secret : K} {s : State J σ}
    (r : (system lib inner secret).Reachable (Ideal lib inner secret) s) (store : StoreName)
    (key : Key) : Bound lib inner secret s store key ↔ NotMoved lib inner secret s store key := by
  constructor
  case mp  => exact fun h e _ he => h _ <| get_of_envelope l he
  case mpr =>
    intro h value hg
    by_contra hc
    push Not at hc
    have ⟨nonce, ciphertext, plaintext, he, hd, hl⟩ := get_eq_some hg hc.left
    have ⟨e, hm, hn, hc'⟩ := genuine_of_reachable l hi r store key nonce ciphertext he (hd ▸ rfl)
    subst hn hc'
    have hv := get_of_envelope l he
    cases Option.some.inj <| hg.symm.trans hv
    exact (h e hm he).elim hc.left hc.right

-- A value is put under "a", and then its row is copied to "b".
def putRow : State (Option (String × String)) (Storage String) where
  stores := Function.update (fun _ => .empty) .data <|
    (SqliteStorage standIn.json).put (standInDraws 0) .empty "a"
      (standIn.encryptValue () (standInDraws 0) (some ("", "")))
  log    := [⟨.data, "a", some ("", ""), standInDraws 0⟩]

def copiedRow : State (Option (String × String)) (Storage String) where
  stores := Function.update putRow.stores .data <| (SqliteStorage standIn.json).put (standInDraws 0)
    (putRow.stores .data) "b" (standIn.encryptValue () (standInDraws 0) (some ("", "")))
  log    := putRow.log

theorem reachable_copiedRow : (system standIn (SqliteStorage standIn.json) ()).Reachable
    (Ideal standIn (SqliteStorage standIn.json) ()) copiedRow := by
  have hi := StorageBackend.lawful_sqlite lawful_standIn.json
  have r : (system standIn (SqliteStorage standIn.json) ()).Reachable
      (Ideal standIn (SqliteStorage standIn.json) ()) putRow :=
    .step (l := .call .data (.put "a" (some ("", ""))) (standInDraws 0)) (.initial rfl) trivial rfl
  refine r.step (l := .tamper .data _) ?_ rfl
  have hg : (SqliteStorage standIn.json).get (putRow.stores .data) "a" =
      some (standIn.encryptValue () (standInDraws 0) (some ("", ""))) :=
    hi.get_put_self (standInDraws 0) .empty "a" _
  exact (genuine_of_reachable lawful_standIn hi r .data).copy hi _ hg _

theorem not_bound : ¬∀ s, (system standIn (SqliteStorage standIn.json) ()).Reachable
    (Ideal standIn (SqliteStorage standIn.json) ()) s →
    ∀ store key, Bound standIn (SqliteStorage standIn.json) () s store key := by
  intro h
  have hi := StorageBackend.lawful_sqlite lawful_standIn.json
  have hg : (EncryptedStorage standIn (SqliteStorage standIn.json) ()).get
      (copiedRow.stores .data) "b" = some (some ("", "")) :=
    (hi.encrypted lawful_standIn ()).get_put_self (standInDraws 0) (putRow.stores .data) "b" _
  have hb := h _ reachable_copiedRow .data "b" _ hg
  simp [standIn, PutUnder, copiedRow, putRow] at hb

theorem bound_iff_notMoved_copiedRow :
    Bound standIn (SqliteStorage standIn.json) () copiedRow .data "a" ↔
      NotMoved standIn (SqliteStorage standIn.json) () copiedRow .data "a" :=
  bound_iff_notMoved lawful_standIn (StorageBackend.lawful_sqlite lawful_standIn.json)
    reachable_copiedRow .data "a"

end DynamoKV.Tampering
