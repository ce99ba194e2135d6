import DynamoKV.Objects.Document
import DynamoKV.Objects.Node
import DynamoKV.Execution.Audit

-- Nodes whose storages are on disk, and which may be restarted at any time.
namespace DynamoKV.Persistence

open StorageBackend

variable {F K : Type}

inductive Call (F : Type)
  | getLocal (key : Key)
  | putLocal (key : Key) (version : Version (Document F))
  | deleteLocal (key : Key)
  | existsLocal (key : Key)
  | addHint (targetNodeId : NodeId) (key : Key) (version : Version (Document F))
  | clearKey (targetNodeId : NodeId) (key : Key)
  | pendingFor (targetNodeId : NodeId)
  | hasPending (targetNodeId : NodeId)
  | restart

inductive Result (F : Type)
  | versions (versions : List (Version (Document F)))
  | pending (pending : List (Key × List (Version (Document F))))
  | existed (existed : Bool)
  | done

-- A node as it is thought of, which does not notice restarts.
def perform (n : Node (Document F)) : Call F → Result F × Node (Document F)
  | .getLocal key           => (.versions <| n.getLocal key, n)
  | .putLocal key version   => (.done, n.putLocal key version)
  | .deleteLocal key        => let (existed, n') := n.deleteLocal key; (.existed existed, n')
  | .existsLocal key        => (.existed <| n.existsLocal key, n)
  | .addHint t key version  => (.done, n.addHint t key version)
  | .clearKey t key         => (.done, n.clearHints t key)
  | .pendingFor t           => (.pending <| n.hintStore.pendingFor t, n)
  | .hasPending t           => (.existed <| n.hintStore.hasPending t, n)
  | .restart                => (.done, n)

def results (n : Node (Document F)) : List (Call F) → List (Result F)
  | []            => []
  | call :: calls => let (result, n') := perform n call; result :: results n' calls

def versionsJson : Audit.VersionsJson (Document F) where
  toJson vs  := siblingsDocument <| vs.map Version.toDict
  fromJson d := (siblingsOf? d).map (·.map Version.fromDict)

section Hints

variable {σ : Type} [DecidableEq F] (b : StorageBackend (Document F) σ) (nonce : Nonce) (s : σ)

def load (targetNodeId : NodeId) : Option (HintBlob (Document F)) := do
  let raw ← b.get s targetNodeId
  if raw = .null then return ∅ else blobOf? raw

def save (targetNodeId : NodeId) (blob : HintBlob (Document F)) : σ :=
  b.put nonce s targetNodeId <| blobDocument blob

def add (targetNodeId : NodeId) (key : Key) (version : Version (Document F)) : Option σ := do
  let blob ← load b s targetNodeId
  let existing := ((blob.lookup key).getD []).map Version.fromDict
  let merged   := reconcile existing version
  return save b nonce s targetNodeId <| blob.insert key (merged.map Version.toDict)

def pendingFor (targetNodeId : NodeId) : Option (List (Key × List (Version (Document F)))) := do
  let blob ← load b s targetNodeId
  return blob.entries.map fun e => (e.1, e.2.map Version.fromDict)

def clearKey (targetNodeId : NodeId) (key : Key) : Option σ := do
  let blob ← load b s targetNodeId
  if key ∈ blob then
    let blob := blob.erase key
    if blob.keys = [] then return (b.delete s targetNodeId).2
    else return save b nonce s targetNodeId blob
  else return s

end Hints

-- The files of a node, and the keys with which the running process encrypts its two storages.
structure Process (K : Type) where
  rows     : Storage String
  hintRows : Storage String
  keyFile  : Option K
  key      : K
  hintKey  : K

def loadOrCreateEncryptionKey (generated : K) (keyFile : Option K) : K × Option K :=
  match keyFile with
  | some key => (key, some key)
  | none     => (generated, some generated)

-- The storages are built one after the other, each with the key in the file by then.
def boot (generated generated' : K) (rows hintRows : Storage String) (keyFile : Option K) :
    Process K :=
  let (key, keyFile)     := loadOrCreateEncryptionKey generated keyFile
  let (hintKey, keyFile) := loadOrCreateEncryptionKey generated' keyFile
  ⟨rows, hintRows, keyFile, key, hintKey⟩

-- What is drawn at random at one point of a run.
structure Draw (K : Type) where
  nonce      : Nonce
  generated  : K
  generated' : K

section Process

variable [DecidableEq F] (lib : Libraries (Document F) K)

def backend (key : K) : StorageBackend (Document F) (Storage String) :=
  EncryptedStorage lib (SqliteStorage lib.json) key

namespace Process

variable (p : Process K)

def restart (draw : Draw K) : Process K :=
  boot draw.generated draw.generated' p.rows p.hintRows p.keyFile

def storage : StorageBackend (Document F) (Storage String) :=
  backend lib p.key

def hintStorage : StorageBackend (Document F) (Storage String) :=
  backend lib p.hintKey

-- There is no result if an exception is raised.
def perform (draw : Draw K) : Call F → Option (Result F × Process K)
  | .getLocal key          => do
    let versions ← Audit.getLocal lib.json versionsJson (p.storage lib) p.rows key
    return (.versions versions, p)
  | .putLocal key version  => do
    let rows ← Audit.putLocal lib.json versionsJson (p.storage lib) draw.nonce p.rows key version
    return (.done, { p with rows })
  | .deleteLocal key       =>
    let (existed, rows) := (p.storage lib).delete p.rows key
    some (.existed existed, { p with rows })
  | .existsLocal key       => some (.existed <| (p.storage lib).exists' p.rows key, p)
  | .addHint t key version => do
    let hintRows ← add (p.hintStorage lib) draw.nonce p.hintRows t key version
    return (.done, { p with hintRows })
  | .clearKey t key        => do
    let hintRows ← clearKey (p.hintStorage lib) draw.nonce p.hintRows t key
    return (.done, { p with hintRows })
  | .pendingFor t          => do
    let pending ← pendingFor (p.hintStorage lib) p.hintRows t
    return (.pending pending, p)
  | .hasPending t          => some (.existed <| (p.hintStorage lib).exists' p.hintRows t, p)
  | .restart               => some (.done, p.restart draw)

def results (draws : Nat → Draw K) (time : Nat) (p : Process K) :
    List (Call F) → Option (List (Result F))
  | []            => some []
  | call :: calls => do
    let (result, p') ← p.perform lib (draws time) call
    return result :: (← results draws (time + 1) p' calls)

end Process
end Process

-- The values of a storage are on disk in their JSON form.
def Stores (json : Json J) (b : StorageBackend J σ) (encode : β → J) (s : σ) (st : Storage β) :
    Prop :=
  b.Represents json s fun key => (st.get key).map encode

namespace Stores

variable {J σ β : Type} {json : Json J} {b : StorageBackend J σ} {encode : β → J} {s : σ}
  {st : Storage β} (l : b.Lawful json) (r : Stores json b encode s st)
include l

theorem empty : Stores json b encode b.empty .empty :=
  represents_empty l

include r

theorem put (nonce : Nonce) (key : Key) (x : β) :
    Stores json b encode (b.put nonce s key <| encode x) (st.put key x) := by
  have h : (fun k => ((st.put key x).get k).map encode) =
      Function.update (fun k => (st.get k).map encode) key (some <| encode x) := by
    funext k
    by_cases hk : k = key
    case pos => simp [hk]
    case neg => simp [hk, Storage.get_put_of_ne]
  unfold Stores
  rw [h]
  exact Represents.put l r nonce nonce key (encode x)

theorem delete (key : Key) : (b.delete s key).1 = (st.delete key).1 ∧
    Stores json b encode (b.delete s key).2 (st.delete key).2 := by
  have h : (fun k => ((st.delete key).2.get k).map encode) =
      Function.update (fun k => (st.get k).map encode) key none := by
    funext k
    by_cases hk : k = key
    case pos => simp [hk]
    case neg => simp [hk, Storage.get_delete_of_ne]
  unfold Stores
  rw [h, l.delete_fst, r.exists', Storage.delete_fst, Option.isSome_map]
  exact ⟨rfl, Represents.delete l r key⟩

omit l

theorem exists' (key : Key) : b.exists' s key = st.exists' key := by
  rw [Represents.exists' r, Storage.exists'_eq, Option.isSome_map]

end Stores

section Persists

variable [DecidableEq F] {json : Json (Document F)} {σ : Type} {b : StorageBackend (Document F) σ}
  {s : σ} {hs : HintStore (Document F)} {n : Node (Document F)}

theorem getLocal_eq (hn : json.null = .null) (r : Stores json b siblingsDocument s n.storage)
    (key : Key) : Audit.getLocal json versionsJson b s key = some (n.getLocal key) := by
  have hg := r.get key
  unfold Audit.getLocal Node.getLocal
  rw [hg, hn]
  cases n.storage.get key
  case none    => rfl
  case some vs => simp [versionsJson, siblingsDocument_ne_null, siblingsOf?_siblingsDocument]

theorem load_eq (hn : json.null = .null) (r : Stores json b blobDocument s hs.storage)
    (t : NodeId) : load b s t = some (hs.load t) := by
  have hg := r.get t
  unfold load HintStore.load
  rw [hg, hn]
  cases hs.storage.get t
  case none      => rfl
  case some blob => simp [blobDocument_ne_null, blobOf?_blobDocument]

theorem putLocal_eq (hn : json.null = .null) (l : b.Lawful json)
    (r : Stores json b siblingsDocument s n.storage) (nonce : Nonce) (key : Key)
    (version : Version (Document F)) : ∃ s',
      Audit.putLocal json versionsJson b nonce s key version = some s' ∧
      Stores json b siblingsDocument s' (n.putLocal key version).storage := by
  refine ⟨_, ?_, r.put l nonce key ((reconcile (n.getLocal key) version).map Version.toDict)⟩
  rw [Audit.putLocal, getLocal_eq hn r]
  rfl

theorem add_eq (hn : json.null = .null) (l : b.Lawful json)
    (r : Stores json b blobDocument s hs.storage) (nonce : Nonce) (t : NodeId) (key : Key)
    (version : Version (Document F)) : ∃ s', add b nonce s t key version = some s' ∧
      Stores json b blobDocument s' (hs.add t key version).storage := by
  refine ⟨_, ?_, r.put l nonce t _⟩
  simp [add, load_eq hn r, save]

theorem clearKey_eq (hn : json.null = .null) (l : b.Lawful json)
    (r : Stores json b blobDocument s hs.storage) (nonce : Nonce) (t : NodeId) (key : Key) :
    ∃ s', clearKey b nonce s t key = some s' ∧
      Stores json b blobDocument s' (hs.clearKey t key).storage := by
  simp only [clearKey, load_eq hn r, HintStore.clearKey, Option.bind_eq_bind, Option.bind_some]
  split
  case isFalse => exact ⟨s, rfl, r⟩
  case isTrue  =>
    split
    case isTrue  => exact ⟨_, rfl, (r.delete l t).right⟩
    case isFalse => exact ⟨_, rfl, r.put l nonce t _⟩

end Persists

section Process

variable [DecidableEq F] {lib : Libraries (Document F) K} {p : Process K} {n : Node (Document F)}

-- The files of a node stand for its contents, and both storages are encrypted with the key on file.
structure Persists (lib : Libraries (Document F) K) (p : Process K) (n : Node (Document F)) :
    Prop where
  keyFile  : p.keyFile = some p.key
  hintKey  : p.hintKey = p.key
  rows     : Stores lib.json (p.storage lib) siblingsDocument p.rows n.storage
  hintRows : Stores lib.json (p.hintStorage lib) blobDocument p.hintRows n.hintStore.storage

theorem lawful_backend (l : lib.Lawful) (key : K) : (backend lib key).Lawful lib.json :=
  (lawful_sqlite l.json).encrypted l key

theorem Persists.boot (l : lib.Lawful) (generated generated' : K) :
    Persists lib (boot generated generated' .empty .empty none) .empty where
  keyFile  := rfl
  hintKey  := rfl
  rows     := .empty <| lawful_backend l _
  hintRows := .empty <| lawful_backend l _

theorem Persists.restart (h : Persists lib p n) (draw : Draw K) :
    p.restart draw = p := by
  obtain ⟨rows, hintRows, keyFile, key, hintKey⟩ := p
  obtain ⟨hk, hh, _, _⟩ := h
  dsimp only at hk hh
  subst hk hh
  rfl

-- Every call returns what it should, and is on disk when it does.
theorem Persists.perform (l : lib.Lawful) (hn : lib.json.null = .null) (h : Persists lib p n)
    (draw : Draw K) (call : Call F) : ∃ p',
      p.perform lib draw call = some ((perform n call).1, p') ∧
      Persists lib p' (perform n call).2 := by
  have lr : (p.storage lib).Lawful lib.json := lawful_backend l p.key
  have lh : (p.hintStorage lib).Lawful lib.json := lawful_backend l p.hintKey
  cases call
  case getLocal key =>
    exact ⟨p, by simp [Process.perform, Persistence.perform, getLocal_eq hn h.rows], h⟩
  case putLocal key version =>
    obtain ⟨s', hs, hr⟩ := putLocal_eq hn lr h.rows draw.nonce key version
    refine ⟨{ p with rows := s' }, ?_, ⟨h.keyFile, h.hintKey, hr, h.hintRows⟩⟩
    simp only [Process.perform]
    rw [hs]
    rfl
  case deleteLocal key =>
    obtain ⟨he, hr⟩ := h.rows.delete lr key
    refine ⟨{ p with rows := ((p.storage lib).delete p.rows key).2 }, ?_,
      ⟨h.keyFile, h.hintKey, hr, h.hintRows⟩⟩
    simp only [Process.perform, Persistence.perform, Node.deleteLocal, he]
  case existsLocal key =>
    refine ⟨p, ?_, h⟩
    simp only [Process.perform, Persistence.perform, Node.existsLocal, h.rows.exists' key]
  case addHint t key version =>
    obtain ⟨s', hs, hr⟩ := add_eq hn lh h.hintRows draw.nonce t key version
    refine ⟨{ p with hintRows := s' }, ?_, ⟨h.keyFile, h.hintKey, h.rows, hr⟩⟩
    simp only [Process.perform]
    rw [hs]
    rfl
  case clearKey t key =>
    obtain ⟨s', hs, hr⟩ := clearKey_eq hn lh h.hintRows draw.nonce t key
    refine ⟨{ p with hintRows := s' }, ?_, ⟨h.keyFile, h.hintKey, h.rows, hr⟩⟩
    simp only [Process.perform]
    rw [hs]
    rfl
  case pendingFor t =>
    refine ⟨p, ?_, h⟩
    simp [Process.perform, Persistence.perform, pendingFor, load_eq hn h.hintRows,
      HintStore.pendingFor]
  case hasPending t =>
    refine ⟨p, ?_, h⟩
    simp only [Process.perform, Persistence.perform, HintStore.hasPending, h.hintRows.exists' t]
  case restart => exact ⟨p, by rw [Process.perform, h.restart draw]; rfl, h⟩

theorem Persists.results (l : lib.Lawful) (hn : lib.json.null = .null) (h : Persists lib p n)
    (draws : Nat → Draw K) (time : Nat) (calls : List (Call F)) :
    p.results lib draws time calls = some (results n calls) := by
  induction calls generalizing p n time
  case nil => rfl
  case cons call calls hi =>
    obtain ⟨p', hp, h'⟩ := h.perform l hn (draws time) call
    simp [Process.results, hp, hi h' (time + 1), Persistence.results]

end Process

def libraries (fl : JsonText.Floats F) (base64 : Base64) (aesgcm : AESGCM K) :
    Libraries (Document F) K :=
  ⟨pythonJson fl, base64, aesgcm⟩

-- A node with encrypted storages on disk behaves like one that never stops, from its first start
-- on.
theorem results_survive_restarts [DecidableEq F] {fl : JsonText.Floats F} {base64 : Base64}
    {aesgcm : AESGCM K} (lawful : fl.Lawful)
    (decode : ∀ bytes, base64.decode (base64.encode bytes) = some bytes)
    (decrypt : ∀ key (nonce : Nonce) data associatedData,
      aesgcm.decrypt key nonce.bytes (aesgcm.encrypt key nonce.bytes data associatedData)
        associatedData = some data)
    (generated generated' : K) (draws : Nat → Draw K) (calls : List (Call F)) :
    (boot generated generated' .empty .empty none).results (libraries fl base64 aesgcm) draws 0
      calls = some (results .empty calls) := by
  have l : (libraries fl base64 aesgcm).Lawful := ⟨lawful_pythonJson lawful, decode, decrypt⟩
  exact (Persists.boot l generated generated').results l rfl draws 0 calls

section Example

def noFloats : JsonText.Floats Empty where
  repr   := Empty.elim
  read _ := none

theorem lawful_noFloats : noFloats.Lawful where
  read_repr x := x.elim
  ne_nil x    := x.elim
  token x     := x.elim
  not_int x   := x.elim
  not_word x  := x.elim

def version (value : String) (nodeId : NodeId) : Version (Document Empty) :=
  ⟨.string value, ⟨.singleton nodeId 1⟩⟩

-- Siblings and a hint are written before and between restarts.
def callsWithRestarts : List (Call Empty) :=
  [.putLocal "k" (version "x\n" "a"), .addHint "c" "k" (version "x\n" "a"), .restart,
    .putLocal "k" (version "y" "b"), .restart, .getLocal "k", .hasPending "c", .clearKey "c" "k",
    .restart, .hasPending "c"]

theorem results_survive_restarts_hint : (boot () () .empty .empty none).results
      (libraries noFloats standIn.base64 standIn.aesgcm) (fun i => ⟨standInDraws i, (), ()⟩) 0
      callsWithRestarts =
    some [.done, .done, .done, .done, .done, .versions [version "x\n" "a", version "y" "b"],
      .existed true, .done, .done, .existed false] :=
  results_survive_restarts lawful_noFloats lawful_standIn.decode lawful_standIn.decrypt () () _ _

end Example
end DynamoKV.Persistence
