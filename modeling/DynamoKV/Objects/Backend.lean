import DynamoKV.Lib.Utf8
import DynamoKV.Objects.Storage

namespace DynamoKV

-- What the storage backends use of the `json` module. `J` are the JSON values as Python has them,
-- of which null is None. Reading a value may raise an exception.
structure Json (J : Type) where
  null       : J
  dumps      : J → String
  loads      : String → Option J
  loadsBytes : List UInt8 → Option J
  envelope   : (nonce ciphertext : String) → J
  nonce      : J → Option String
  ciphertext : J → Option String

structure Json.Lawful (json : Json J) : Prop where
  loads_dumps         : ∀ v, json.loads (json.dumps v) = some v
  loadsBytes_dumps    : ∀ v, json.loadsBytes (Utf8.encode (json.dumps v).toList) = some v
  nonce_envelope      : ∀ n c, json.nonce (json.envelope n c) = some n
  ciphertext_envelope : ∀ n c, json.ciphertext (json.envelope n c) = some c
  envelope_ne_null    : ∀ n c, json.envelope n c ≠ json.null

-- The bytes which `os.urandom` returns for a nonce.
structure Nonce where
  bytes : List UInt8
  size  : bytes.length = 12

-- The protocol of all backends. Getting a value may raise an exception, and a missing one is None.
structure StorageBackend (J σ : Type) where
  empty   : σ
  get     : σ → Key → Option J
  put     : Nonce → σ → Key → J → σ
  delete  : σ → Key → Bool × σ
  exists' : σ → Key → Bool

inductive StorageCall (J : Type)
  | get (key : Key)
  | put (key : Key) (value : J)
  | delete (key : Key)
  | exists' (key : Key)

inductive StorageResult (J : Type)
  | value (value : Option J)
  | done
  | existed (existed : Bool)

namespace StorageBackend

variable {J σ : Type}

def perform (b : StorageBackend J σ) (nonce : Nonce) (s : σ) :
    StorageCall J → StorageResult J × σ
  | .get key       => (.value <| b.get s key, s)
  | .put key value => (.done, b.put nonce s key value)
  | .delete key    => let (existed, s') := b.delete s key; (.existed existed, s')
  | .exists' key   => (.existed <| b.exists' s key, s)

-- The results of a sequence of calls, where `draws` are the nonces that are drawn.
def results (b : StorageBackend J σ) (draws : Nat → Nonce) (s : σ) (i : Nat) :
    List (StorageCall J) → List (StorageResult J)
  | []            => []
  | call :: calls =>
    let (result, s') := b.perform (draws i) s call
    result :: b.results draws s' (i + 1) calls

end StorageBackend

def MemoryStorage (json : Json J) : StorageBackend J (Storage J) where
  empty           := .empty
  get s key       := some <| (s.get key).getD json.null
  put _ s key v   := s.put key v
  delete s key    := s.delete key
  exists' s key   := s.exists' key

-- The table of key and text, of which an upsert replaces the text of a key.
def SqliteStorage (json : Json J) : StorageBackend J (Storage String) where
  empty           := .empty
  get s key       := match s.get key with
    | some text => json.loads text
    | none      => some json.null
  put _ s key v   := s.put key (json.dumps v)
  delete s key    := s.delete key
  exists' s key   := (s.get key).isSome

namespace StorageBackend

variable {J σ : Type} {json : Json J} {b : StorageBackend J σ}

-- What backends have in common: what a call does to the value of a key, and to nothing else.
structure Lawful (json : Json J) (b : StorageBackend J σ) : Prop where
  get_put_self        : ∀ d s k v, b.get (b.put d s k v) k = some v
  get_put_of_ne       : ∀ d s k v k', k' ≠ k → b.get (b.put d s k v) k' = b.get s k'
  get_delete_of_ne    : ∀ s k k', k' ≠ k → b.get (b.delete s k).2 k' = b.get s k'
  get_of_not_exists   : ∀ s k, b.exists' s k = false → b.get s k = some json.null
  exists_empty        : ∀ k, b.exists' b.empty k = false
  exists_put_self     : ∀ d s k v, b.exists' (b.put d s k v) k = true
  exists_put_of_ne    : ∀ d s k v k', k' ≠ k → b.exists' (b.put d s k v) k' = b.exists' s k'
  exists_delete       : ∀ s k, b.exists' (b.delete s k).2 k = false
  exists_delete_of_ne : ∀ s k k', k' ≠ k → b.exists' (b.delete s k).2 k' = b.exists' s k'
  delete_fst          : ∀ s k, (b.delete s k).1 = b.exists' s k

theorem lawful_memory (json : Json J) : (MemoryStorage json).Lawful json where
  get_put_self        := by simp [MemoryStorage]
  get_put_of_ne       := by simp +contextual [MemoryStorage, Storage.get_put_of_ne]
  get_delete_of_ne    := by simp +contextual [MemoryStorage, Storage.get_delete_of_ne]
  get_of_not_exists   := by simp +contextual [MemoryStorage, Storage.exists'_eq]
  exists_empty        := by simp [MemoryStorage, Storage.exists'_eq]
  exists_put_self     := by simp [MemoryStorage, Storage.exists'_eq]
  exists_put_of_ne    := by
    simp +contextual [MemoryStorage, Storage.exists'_eq, Storage.get_put_of_ne]
  exists_delete       := by simp [MemoryStorage, Storage.exists'_eq]
  exists_delete_of_ne := by
    simp +contextual [MemoryStorage, Storage.exists'_eq, Storage.get_delete_of_ne]
  delete_fst          := by simp [MemoryStorage, Storage.exists'_eq, Storage.delete_fst]

theorem lawful_sqlite (hj : json.Lawful) : (SqliteStorage json).Lawful json where
  get_put_self        := by simp [SqliteStorage, hj.loads_dumps]
  get_put_of_ne       := by simp +contextual [SqliteStorage, Storage.get_put_of_ne]
  get_delete_of_ne    := by simp +contextual [SqliteStorage, Storage.get_delete_of_ne]
  get_of_not_exists   := by simp +contextual [SqliteStorage]
  exists_empty        := by simp [SqliteStorage]
  exists_put_self     := by simp [SqliteStorage]
  exists_put_of_ne    := by simp +contextual [SqliteStorage, Storage.get_put_of_ne]
  exists_delete       := by simp [SqliteStorage]
  exists_delete_of_ne := by simp +contextual [SqliteStorage, Storage.get_delete_of_ne]
  delete_fst          := by simp [SqliteStorage, Storage.delete_fst]

-- What a backend is for: it is a partial map from keys to values.
def PartialMap (json : Json J) : StorageBackend J (Key → Option J) where
  empty _        := none
  get m key      := some <| (m key).getD json.null
  put _ m key v  := Function.update m key (some v)
  delete m key   := ((m key).isSome, Function.update m key none)
  exists' m key  := (m key).isSome

-- The contents of a backend look like a map.
structure Represents (json : Json J) (b : StorageBackend J σ) (s : σ) (m : Key → Option J) :
    Prop where
  get     : ∀ k, b.get s k = some ((m k).getD json.null)
  exists' : ∀ k, b.exists' s k = (m k).isSome

section Represents

variable (l : b.Lawful json)
include l

theorem represents_empty : b.Represents json b.empty (PartialMap json).empty where
  get k     := l.get_of_not_exists _ _ <| l.exists_empty k
  exists' k := l.exists_empty k

theorem Represents.put (r : b.Represents json s m) (d d' : Nonce) (k : Key) (v : J) :
    b.Represents json (b.put d s k v) ((PartialMap json).put d' m k v) where
  get k' := by
    by_cases hk : k' = k
    case pos => simp [hk, PartialMap, l.get_put_self]
    case neg => simp [hk, PartialMap, l.get_put_of_ne, r.get]
  exists' k' := by
    by_cases hk : k' = k
    case pos => simp [hk, PartialMap, l.exists_put_self]
    case neg => simp [hk, PartialMap, l.exists_put_of_ne, r.exists']

theorem Represents.delete (r : b.Represents json s m) (k : Key) :
    b.Represents json (b.delete s k).2 ((PartialMap json).delete m k).2 where
  get k' := by
    by_cases hk : k' = k
    case pos => simp [hk, PartialMap, l.get_of_not_exists _ _ (l.exists_delete s k)]
    case neg => simp [hk, PartialMap, l.get_delete_of_ne, r.get]
  exists' k' := by
    by_cases hk : k' = k
    case pos => simp [hk, PartialMap, l.exists_delete]
    case neg => simp [hk, PartialMap, l.exists_delete_of_ne, r.exists']

theorem Represents.perform (r : b.Represents json s m) (d d' : Nonce) (call : StorageCall J) :
    (b.perform d s call).1 = ((PartialMap json).perform d' m call).1 ∧
    b.Represents json (b.perform d s call).2 ((PartialMap json).perform d' m call).2 := by
  cases call
  case get k    => exact ⟨congrArg _ <| r.get k, r⟩
  case put k v  => exact ⟨rfl, r.put l d d' k v⟩
  case delete k =>
    exact ⟨congrArg _ <| (l.delete_fst s k).trans <| r.exists' k, r.delete l k⟩
  case exists' k => exact ⟨congrArg _ <| r.exists' k, r⟩

-- The results are those of the map, whichever nonces are drawn.
theorem Represents.results (r : b.Represents json s m) (draws draws' : Nat → Nonce) (i : Nat)
    (calls : List (StorageCall J)) :
    b.results draws s i calls = (PartialMap json).results draws' m i calls := by
  induction calls generalizing s m i
  case nil => rfl
  case cons call calls hi =>
    have ⟨h, r'⟩ := r.perform l (draws i) (draws' i) call
    simp only [StorageBackend.results, h, hi r']

theorem Lawful.results (draws draws' : Nat → Nonce) (calls : List (StorageCall J)) :
    b.results draws b.empty 0 calls =
      (PartialMap json).results draws' (PartialMap json).empty 0 calls :=
  (represents_empty l).results l draws draws' 0 calls

end Represents
end StorageBackend
end DynamoKV
