import DynamoKV.Execution.Persistence
import DynamoKV.Execution.Step
import DynamoKV.Objects.Wire

-- The cluster as it is deployed. Nodes are processes with encrypted files, which may be restarted,
-- and they ask each other by HTTP.
namespace DynamoKV.Deployment

open Persistence

variable {F K : Type}

structure Stack (F K : Type) where
  lib  : Libraries (Document F) K
  http : HttpJson (Document F)

structure Stack.Lawful (st : Stack F K) : Prop where
  lib  : st.lib.Lawful
  null : st.lib.json.null = .null
  http : st.http.Lawful

def stack (fl : JsonText.Floats F) (base64 : Base64) (aesgcm : AESGCM K)
    (http : HttpJson (Document F)) : Stack F K :=
  ⟨libraries fl base64 aesgcm, http⟩

-- Requests to the internal routes. There is no key if the server finds no route.
inductive HttpRequest
  | putKey (key : Option Key) (body : List UInt8)
  | getKey (key : Option Key)
  | deleteKey (key : Option Key)
  | putHint (key : Option Key) (body : List UInt8)

structure HttpResponse where
  statusCode : Nat
  body       : List UInt8

def versions? : Result F → Option (List (Version (Document F)))
  | .versions versions => some versions
  | _                  => none

def pending? : Result F → Option (List (Key × List (Version (Document F))))
  | .pending pending => some pending
  | _                => none

def existed? : Result F → Option Bool
  | .existed existed => some existed
  | _                => none

section Serve

variable [DecidableEq F] (st : Stack F K) (draw : Draw K) (p : Process K)

-- The part of a node's code which uses its storages. It raises an exception if they do.
def ask {β : Type} (call : Call F) (get : Result F → Option β) : Option (β × Process K) := do
  let (result, p') ← p.perform st.lib draw call
  return (← get result, p')

def respond (statusCode : Nat) (body : Document F) : HttpResponse :=
  ⟨statusCode, st.http.encode body⟩

def notFound (key : Key) : HttpResponse :=
  respond st 404 <| Wire.detail <| "key '" ++ key ++ "' not found"

def noRoute : HttpResponse :=
  respond st 404 <| Wire.detail "Not Found"

-- Nobody reads the body of the response to a request which is not valid.
def unprocessable : HttpResponse :=
  ⟨422, []⟩

def putKeyLocal (key : Key) (body : List UInt8) : Option (HttpResponse × Process K) :=
  match (st.http.decode body).bind Wire.readPut with
  | none         => some (unprocessable, p)
  | some version => do
    let (_, p') ← ask st draw p (.putLocal key version) some
    return (respond st 200 <| Wire.keyValueResponse key version, p')

def getKeyLocal (key : Key) : Option (HttpResponse × Process K) := do
  let (versions, p') ← ask st draw p (.getLocal key) versions?
  return (if versions.isEmpty then notFound st key
    else respond st 200 <| Wire.versionsResponse key versions, p')

def deleteKeyLocal (key : Key) : Option (HttpResponse × Process K) := do
  let (deleted, p') ← ask st draw p (.deleteLocal key) existed?
  return (if deleted then respond st 200 <| Wire.deleteResponse key true else notFound st key, p')

def putHint (key : Key) (body : List UInt8) : Option (HttpResponse × Process K) :=
  match (st.http.decode body).bind Wire.readHint with
  | none                   => some (unprocessable, p)
  | some (target, version) => do
    let (_, p') ← ask st draw p (.addHint target key version) some
    return (respond st 200 Wire.hintResponse, p')

def serve : HttpRequest → Option (HttpResponse × Process K)
  | .putKey (some key) body  => putKeyLocal st draw p key body
  | .getKey (some key)       => getKeyLocal st draw p key
  | .deleteKey (some key)    => deleteKeyLocal st draw p key
  | .putHint (some key) body => putHint st draw p key body
  | .putKey none _ | .getKey none | .deleteKey none | .putHint none _ => some (noRoute st, p)

end Serve

-- What the requesting node makes of the response. There is no result if it raises an exception.
namespace HttpResponse

variable (st : Stack F K) (resp : HttpResponse)

def versions : Option (List (Version (Document F))) :=
  if resp.statusCode = 200 then (st.http.decode resp.body).bind Wire.readVersions
  else if resp.statusCode = 404 then some []
  else none

def deleted : Option Bool :=
  if resp.statusCode = 200 ∨ resp.statusCode = 404 then some (resp.statusCode = 200) else none

end HttpResponse

-- Requests in flight, and what a coordinator's executor has to do on the node itself.
inductive Message (F : Type)
  | putLocal (op : Nat) (coord : NodeId) (key : Key) (version : Version (Document F))
  | deleteLocal (op : Nat) (coord : NodeId) (key : Key)
  | put (op : Nat) (dest : NodeId) (key : Option Key) (body : List UInt8)
  | delete (op : Nat) (dest : NodeId) (key : Option Key)
  | hint (dest : NodeId) (key : Option Key) (body : List UInt8)
  | flush (holder dest : NodeId) (hintKey : Key) (key : Option Key) (body : List UInt8)
  | flushed (holder target : NodeId) (hintKey : Key)

-- Nobody knows the draws in advance.
structure State (F K : Type) where
  nodes   : NodeId → Process K
  ops     : List (Op (Document F))
  deletes : List (DeleteOp (Document F))
  net     : List (Message F)
  time    : Nat
  draws   : Nat → Draw K

-- A node may be restarted at any time. Its coordinators take no more steps then, or they might go
-- on, which allows for more runs.
inductive Label (F : Type)
  | cluster (label : DynamoKV.Label (Document F))
  | restart (nodeId : NodeId)

def Label.cluster? : Label F → Option (DynamoKV.Label (Document F))
  | .cluster label => some label
  | .restart _     => none

namespace State

variable (cfg : Config) (st : Stack F K) (s : State F K)

def onNode {β : Type} (r : NodeId) (f : Draw K → Process K → Option (β × Process K)) :
    Option (β × State F K) := do
  let (b, p) ← f (s.draws 0) (s.nodes r)
  return (b, { s with nodes := Function.update s.nodes r p, draws := fun i => s.draws (i + 1) })

def modifyOp (i : Nat) (f : Op (Document F) → Op (Document F)) : State F K :=
  { s with ops := s.ops.modify i f }

def modifyDelete (i : Nat) (f : DeleteOp (Document F) → DeleteOp (Document F)) : State F K :=
  { s with deletes := s.deletes.modify i f }

def send (messages : List (Message F)) : State F K :=
  { s with net := s.net ++ messages }

-- What a coordinator does in its memory.
def inMemory (f : DynamoKV.State (Document F) → Option (DynamoKV.State (Document F))) :
    Option (State F K) :=
  (f ⟨∅, s.ops, s.deletes, [], s.time⟩).map fun c =>
    { s with ops := c.ops, deletes := c.deletes, time := c.time }

def lose (m : Nat) : Option (State F K) := do
  guard (m < s.net.length)
  return { s with net := s.net.eraseIdx m }

variable [DecidableEq F]

def answer (coord r : NodeId) (key : Key) : Option (List (Version (Document F)) × State F K) :=
  if r = coord then s.onNode r fun draw p => ask st draw p (.getLocal key) versions?
  else do
    let (resp, s') ← s.onNode r fun draw p =>
      serve st draw p <| .getKey <| receive cfg.safe internalKeys key
    return (← resp.versions st, s')

def read (i : Nat) (r : NodeId) : Option (State F K) := do
  let op ← s.ops[i]?
  guard (r ∈ op.prefs)
  let (versions, s') ← s.answer cfg st op.coord r op.key
  return s'.modifyOp i (·.handleRead r versions)

-- It is assumed here, in `sendWrites` and in `flush` that requests can be built, so that there are
-- no exceptions but those of the storages.
def deliverHint (coord holder target : NodeId) (key : Key) (version : Version (Document F)) :
    Option (State F K) :=
  if holder = coord then
    (s.onNode coord fun draw p => ask st draw p (.addHint target key version) some).map Prod.snd
  else some <| s.send [.hint holder (receive cfg.safe internalHints key)
    (st.http.encode <| Wire.hintRequest target version)]

def sendHints (op : Op (Document F)) (w : Write (Document F)) (presumedDown : List NodeId) :
    Option (State F K) :=
  match w.hintHolder with
  | none        => some s
  | some holder => presumedDown.foldlM (fun s' target =>
      s'.deliverHint cfg st op.coord holder target op.key w.version) s

def sendWrites (i : Nat) (op : Op (Document F)) (w : Write (Document F))
    (presumedDown : List NodeId) : Option (State F K) := do
  let hinted ← s.sendHints cfg st op w presumedDown
  return hinted.modifyOp i ({ · with write := some w }) |>.send <| w.call.prefs.map fun dest =>
    if dest = op.coord then .putLocal i dest op.key w.version
    else .put i dest (receive cfg.safe internalKeys op.key)
      (st.http.encode <| Wire.putRequest w.version)

def putWrite (i : Nat) (down : List NodeId) : Option (State F K) := do
  let op ← s.ops[i]?
  guard (op.write.isNone ∧ op.ReadFinished cfg ∧ op.coord ∉ down)
  match op.request, op.mergedRead cfg with
  | .get, _                => none
  | .put _, .error e       => some <| s.modifyOp i (·.conclude s.time <| .error e)
  | .put value, .ok merged =>
    s.sendWrites cfg st i op (op.startWrite cfg down merged value) (op.prefs.filter (· ∈ down))

def writeDone (i : Nat) (r : NodeId) (ok : Bool) : Option (State F K) := do
  let op ← s.ops[i]?
  let w ← op.write
  guard (w.call.Completes r ok)
  let completed := s.modifyOp i (·.completeWrite r ok)
  match w.hintHolder with
  | none        => some completed
  | some holder =>
    if ok = false ∧ r ≠ holder then
      completed.deliverHint cfg st op.coord holder r op.key w.version
    else some completed

omit [DecidableEq F] in
def invokeDelete (coord : NodeId) (key : Key) : Option (State F K) := do
  let prefs ← cfg.preferenceList key
  let delete := DeleteOp.submit coord key s.time prefs
  return { s with deletes := s.deletes ++ [delete] } |>.send <| prefs.map fun dest =>
    if dest = coord then .deleteLocal s.deletes.length dest key
    else .delete s.deletes.length dest <| receive cfg.safe internalKeys key

def handle : Message F → Option (State F K)
  | .putLocal i coord key version => do
    let (_, s') ← s.onNode coord fun draw p => ask st draw p (.putLocal key version) some
    return s'.modifyOp i (·.handleWrite coord)
  | .deleteLocal i coord key => do
    let (existed, s') ← s.onNode coord fun draw p =>
      ask st draw p (.deleteLocal key) existed?
    return s'.modifyDelete i (·.handle coord existed)
  | .put i dest key body => do
    let (resp, s') ← s.onNode dest fun draw p => serve st draw p <| .putKey key body
    return if resp.statusCode = 200 then s'.modifyOp i (·.handleWrite dest) else s'
  | .delete i dest key => do
    let (resp, s') ← s.onNode dest fun draw p => serve st draw p <| .deleteKey key
    return resp.deleted.elim s' fun existed => s'.modifyDelete i (·.handle dest existed)
  | .hint dest key body =>
    (s.onNode dest fun draw p => serve st draw p <| .putHint key body).map Prod.snd
  | .flush holder dest hintKey key body => do
    let (resp, s') ← s.onNode dest fun draw p => serve st draw p <| .putKey key body
    return if resp.statusCode = 200 then s'.send [.flushed holder dest hintKey] else s'
  | .flushed holder target hintKey =>
    (s.onNode holder fun draw p => ask st draw p (.clearKey target hintKey) some).map Prod.snd

def deliver (m : Nat) (again : Bool) : Option (State F K) := do
  let message ← s.net[m]?
  let rest := if again then s.net else s.net.eraseIdx m
  { s with net := rest }.handle st message

def flush (holder target : NodeId) : Option (State F K) := do
  guard (target ∈ cfg.clusterNodes ∧ target ≠ holder)
  let (pending, s') ← s.onNode holder fun draw p =>
    ask st draw p (.pendingFor target) pending?
  return s'.send <| pending.flatMap fun (key, versions) => versions.map fun version =>
    .flush holder target key (receive cfg.safe internalKeys key)
      (st.http.encode <| Wire.putRequest version)

def next : DynamoKV.Label (Document F) → Option (State F K)
  | .invoke c key request => s.inMemory (·.invoke cfg c key request)
  | .read i r             => s.read cfg st i r
  | .readDone i r ok      => s.inMemory (·.readDone i r ok)
  | .getReturn i          => s.inMemory (·.getReturn cfg i)
  | .putWrite i down      => s.putWrite cfg st i down
  | .writeDone i r ok     => s.writeDone cfg st i r ok
  | .putReturn i          => s.inMemory (·.putReturn cfg i)
  | .invokeDelete c key   => s.invokeDelete cfg c key
  | .deleteDone i r ok    => s.inMemory (·.deleteDone i r ok)
  | .deleteReturn i       => s.inMemory (·.deleteReturn cfg i)
  | .deliver m again      => s.deliver st m again
  | .lose m               => s.lose m
  | .flush holder target  => s.flush cfg st holder target

def step : Label F → Option (State F K)
  | .cluster l => (s.next cfg st l).map fun s' => { s' with time := s'.time + 1 }
  | .restart r => (s.onNode r fun draw p => some ((), p.restart draw)).map Prod.snd

end State

-- All nodes are started with empty files.
structure Started (s : State F K) : Prop where
  nodes   : ∀ r, ∃ generated generated', s.nodes r = boot generated generated' .empty .empty none
  ops     : s.ops = []
  deletes : s.deletes = []
  net     : s.net = []
  time    : s.time = 0

def system [DecidableEq F] (cfg : Config) (st : Stack F K) :
    TransitionSystem (State F K) (Label F) where
  init     := Started
  step s l := s.step cfg st l

end DynamoKV.Deployment
