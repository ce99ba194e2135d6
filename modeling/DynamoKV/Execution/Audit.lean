import DynamoKV.Lib.Log
import DynamoKV.Objects.Auth
import DynamoKV.Objects.Encryption
import DynamoKV.Objects.Version

-- The audit log of an app with `AuditLogMiddleware`, over the requests in the order in which they
-- complete.
namespace DynamoKV.Audit

-- How the dependencies and the handler of a request end.
inductive Ending
  | response (statusCode : Nat)
  | httpException (statusCode : Nat)
  | exception
deriving DecidableEq

-- `clientId` is what the auth dependency has stashed, and `key` is the path parameter of that name.
structure HttpRequest where
  method   : String
  path     : String
  key      : Option Key
  clientId : Option String
  sourceIp : Option String

structure Entry where
  timestamp  : Nat
  clientId   : String
  sourceIp   : Option String
  method     : String
  path       : String
  key        : Option Key
  ns         : Option String
  statusCode : Nat
  outcome    : String

-- A request that has completed.
structure Exchange where
  request   : HttpRequest
  ending    : Ending
  timestamp : Nat

-- Only an HTTPException is made a response before `call_next` returns. Others are raised again.
def callNext : Ending → Option Nat
  | .response statusCode | .httpException statusCode => some statusCode
  | .exception                                       => none

def writeEntry (request : HttpRequest) (statusCode timestamp : Nat) : Entry where
  timestamp  := timestamp
  clientId   := request.clientId.getD "anonymous"
  sourceIp   := request.sourceIp
  method     := request.method
  path       := request.path
  key        := request.key
  ns         := request.key.map namespaceForKey
  statusCode := statusCode
  outcome    := if statusCode < 400 then "allowed" else "denied"

-- The status of the response, if there is one, and the new log.
def dispatch (log : List Entry) (x : Exchange) : Option Nat × List Entry :=
  match callNext x.ending with
  | none            => (none, log)
  | some statusCode => (some statusCode, log ++ [writeEntry x.request statusCode x.timestamp])

def run (log : List Entry) (xs : List Exchange) : List Entry :=
  xs.foldl (fun log x => (dispatch log x).2) log

structure EntryFor (x : Exchange) (e : Entry) : Prop where
  method : e.method = x.request.method
  path   : e.path = x.request.path
  key    : e.key = x.request.key

-- The log has gained one entry for each request.
def Audited (log : List Entry) (xs : List Exchange) : Prop :=
  ∃ entries, run log xs = log ++ entries ∧ List.Forall₂ EntryFor xs entries

section Run

variable {log : List Entry} {x : Exchange} {xs : List Exchange}

def Exchange.entry (x : Exchange) : Option Entry :=
  (callNext x.ending).map (writeEntry x.request · x.timestamp)

theorem Exchange.entryFor {e : Entry} (h : x.entry = some e) : EntryFor x e := by
  obtain ⟨statusCode, -, rfl⟩ := Option.map_eq_some_iff.mp h
  exact ⟨rfl, rfl, rfl⟩

theorem Exchange.isSome_entry : x.entry.isSome ↔ x.ending ≠ .exception := by
  unfold entry
  cases x.ending <;> simp [callNext]

theorem dispatch_snd : (dispatch log x).2 = log ++ x.entry.toList := by
  unfold dispatch Exchange.entry
  cases h : callNext x.ending <;> simp

theorem run_eq : run log xs = log ++ xs.filterMap Exchange.entry := by
  induction xs generalizing log
  case nil          => simp [run]
  case cons x xs hi =>
    rw [run, List.foldl_cons, ← run, hi, dispatch_snd, List.append_assoc]
    cases h : x.entry <;> simp [h]

theorem Audited.no_exception (h : Audited log xs) : ∀ x ∈ xs, x.ending ≠ .exception := by
  obtain ⟨entries, he, h⟩ := h
  rw [run_eq, List.append_cancel_left_eq] at he
  subst he
  simp only [← Exchange.isSome_entry]
  exact List.filterMap_length_eq_length.mp h.length_eq.symm

theorem Audited.of_no_exception (h : ∀ x ∈ xs, x.ending ≠ .exception) : Audited log xs := by
  refine ⟨_, run_eq, ?_⟩
  have hs : ∀ x ∈ xs, x.entry.isSome := fun x hx => Exchange.isSome_entry.mpr <| h x hx
  exact (Log.forall₂_filterMap hs).imp fun _ _ => Exchange.entryFor

end Run

-- An exception leaves `dispatch` before the entry is written, so just then one is missing.
theorem audited_iff_no_exception (log : List Entry) (xs : List Exchange) :
    Audited log xs ↔ ∀ x ∈ xs, x.ending ≠ .exception :=
  ⟨Audited.no_exception, Audited.of_no_exception⟩

-- How sibling lists are stored as JSON. Reading anything else raises an exception.
structure VersionsJson (J : Type) where
  toJson   : List (Version J) → J
  fromJson : J → Option (List (Version J))

structure VersionsJson.Lawful (vj : VersionsJson J) : Prop where
  fromJson_toJson : ∀ vs, vj.fromJson (vj.toJson vs) = some vs

-- The routes under `/internal/keys`. There is no version in a body that was not validated.
inductive InternalRequest (J : Type)
  | put (key : Key) (body : Option (Version J))
  | get (key : Key)
  | delete (key : Key)

namespace InternalRequest

def method : InternalRequest J → String
  | put _ _  => "PUT"
  | get _    => "GET"
  | delete _ => "DELETE"

def key : InternalRequest J → Key
  | put key _ | get key | delete key => key

-- There is no client id, as these routes do not have the auth dependency. The path is that of a key
-- which a URL has as it is.
def toHttp (q : InternalRequest J) (sourceIp : Option String) : HttpRequest where
  method   := q.method
  path     := "/internal/keys/" ++ q.key
  key      := q.key
  clientId := none
  sourceIp := sourceIp

end InternalRequest

section Internal

variable {J σ : Type} [DecidableEq J] (json : Json J) (vj : VersionsJson J) (b : StorageBackend J σ)

def getLocal (s : σ) (key : Key) : Option (List (Version J)) := do
  let raw ← b.get s key
  if raw = json.null then return [] else vj.fromJson raw

def putLocal (nonce : Nonce) (s : σ) (key : Key) (version : Version J) : Option σ := do
  let merged := reconcile (← getLocal json vj b s key) version
  return b.put nonce s key <| vj.toJson merged

def handle (nonce : Nonce) (s : σ) : InternalRequest J → Ending × σ
  | .put _ none           => (.response 422, s)
  | .put key (some version) =>
    match putLocal json vj b nonce s key version with
    | none    => (.exception, s)
    | some s' => (.response 200, s')
  | .get key              =>
    match getLocal json vj b s key with
    | none          => (.exception, s)
    | some []       => (.httpException 404, s)
    | some (_ :: _) => (.response 200, s)
  | .delete key           =>
    let (deleted, s') := b.delete s key
    (if deleted then .response 200 else .httpException 404, s')

-- What completes when requests from one peer are handled one after another, with the nonces that
-- are drawn.
def exchanges (sourceIp : Option String) (draws : Nat → Nonce) (s : σ) (time : Nat) :
    List (InternalRequest J) → List Exchange
  | []      => []
  | q :: qs =>
    let (ending, s') := handle json vj b (draws time) s q
    ⟨q.toHttp sourceIp, ending, time⟩ :: exchanges sourceIp draws s' (time + 1) qs

-- Every row can be read.
def Readable (s : σ) : Prop :=
  ∀ key, (getLocal json vj b s key).isSome

variable {json vj b} {s : σ}

theorem readable_empty (l : b.Lawful json) : Readable json vj b b.empty := by
  intro key
  simp [getLocal, l.get_of_not_exists _ _ (l.exists_empty key)]

theorem Readable.put (l : b.Lawful json) (lv : vj.Lawful) (h : Readable json vj b s)
    (nonce : Nonce) (key : Key) (vs : List (Version J)) :
    Readable json vj b (b.put nonce s key <| vj.toJson vs) := by
  intro key'
  by_cases hk : key' = key
  case neg => simpa [getLocal, l.get_put_of_ne _ _ _ _ _ hk] using h key'
  case pos =>
    subst hk
    simp only [getLocal, l.get_put_self, Option.bind_eq_bind, Option.bind_some, lv.fromJson_toJson]
    split <;> rfl

theorem Readable.delete (l : b.Lawful json) (h : Readable json vj b s) (key : Key) :
    Readable json vj b (b.delete s key).2 := by
  intro key'
  by_cases hk : key' = key
  case neg => simpa [getLocal, l.get_delete_of_ne _ _ _ hk] using h key'
  case pos =>
    subst hk
    simp [getLocal, l.get_of_not_exists _ _ (l.exists_delete s key')]

theorem Readable.handle (l : b.Lawful json) (lv : vj.Lawful) (h : Readable json vj b s)
    (nonce : Nonce) (q : InternalRequest J) :
    (handle json vj b nonce s q).1 ≠ .exception ∧
    Readable json vj b (handle json vj b nonce s q).2 := by
  match q with
  | .put _ none => exact ⟨by simp [Audit.handle], h⟩
  | .put key (some version) =>
    obtain ⟨vs, hv⟩ := Option.isSome_iff_exists.mp <| h key
    simp only [Audit.handle, putLocal, hv]
    exact ⟨by simp, h.put l lv nonce key _⟩
  | .get key =>
    obtain ⟨vs, hv⟩ := Option.isSome_iff_exists.mp <| h key
    simp only [Audit.handle, hv]
    cases vs <;> exact ⟨by simp, h⟩
  | .delete key =>
    refine ⟨?_, h.delete l key⟩
    simp only [Audit.handle]
    split <;> simp

-- As long as nobody else writes to the rows, all internal requests are audited.
theorem audited_exchanges (l : b.Lawful json) (lv : vj.Lawful) (sourceIp : Option String)
    (draws : Nat → Nonce) (log : List Entry) (qs : List (InternalRequest J)) :
    Audited log (exchanges json vj b sourceIp draws b.empty 0 qs) := by
  apply Audited.of_no_exception
  suffices h : ∀ s time, Readable json vj b s →
      ∀ x ∈ exchanges json vj b sourceIp draws s time qs, x.ending ≠ .exception from
    h _ _ <| readable_empty l
  induction qs
  case nil => simp [exchanges]
  case cons q qs hi =>
    intro s time h x hx
    obtain ⟨he, h'⟩ := h.handle l lv (draws time) q
    cases List.mem_cons.mp hx
    case inl hx => exact hx ▸ he
    case inr hx => exact hi _ _ h' x hx

end Internal

section StandIn

-- The envelope in the row of a key was rewritten, so that it cannot be decrypted.
def tampered : Storage String :=
  Storage.empty.put "k" <| standInDumps <| some ("n", "c")

-- No version list can be read from a row which cannot be decrypted, so there are none here.
def noVersions : VersionsJson (Option (String × String)) where
  toJson _   := none
  fromJson _ := none

theorem not_audited : ¬Audited [] (exchanges standIn.json noVersions
    (EncryptedStorage standIn (SqliteStorage standIn.json) ()) none standInDraws tampered 0
    [.get "k"]) := by
  intro h
  exact h.no_exception _ List.mem_cons_self rfl

end StandIn
end DynamoKV.Audit
