import DynamoKV.Execution.State
import DynamoKV.Lib.Transition

-- The steps of a cluster. One request handled by a replica is one step, and so is each stretch of a
-- coordinator's code between two points where it waits for replies. Neither `put_local` being two
-- steps nor requests which cannot be built are modelled here, but in `Threads`.
namespace DynamoKV

inductive Label (α : Type)
  | invoke (coord : NodeId) (key : Key) (request : Request α)
  | read (op : Nat) (replica : NodeId)
  | readDone (op : Nat) (replica : NodeId) (ok : Bool)
  | getReturn (op : Nat)
  | putWrite (op : Nat) (down : List NodeId)
  | writeDone (op : Nat) (replica : NodeId) (ok : Bool)
  | putReturn (op : Nat)
  | invokeDelete (coord : NodeId) (key : Key)
  | deleteDone (delete : Nat) (replica : NodeId) (ok : Bool)
  | deleteReturn (delete : Nat)
  | deliver (message : Nat) (again : Bool)
  | lose (message : Nat)
  | flush (holder target : NodeId)

variable {α : Type} (cfg : Config)

namespace State

variable (s : State α)

-- A client request arrives at a coordinator, which submits the quorum read.
def invoke (coord : NodeId) (key : Key) (request : Request α) : Option (State α) := do
  let prefs ← cfg.preferenceList key
  return s.addOp <| .submit coord key request s.time prefs

-- What `op` of `_get_op` yields at a replica. A reply of 404 is an empty list.
def answer (coord replica : NodeId) (key : Key) : List (Version α) :=
  match cfg.address internalKeys coord replica key with
  | some key => (s.node replica).getLocal key
  | none     => []

def read (i : Nat) (r : NodeId) : Option (State α) := do
  let op ← s.ops[i]?
  guard (r ∈ op.prefs)
  return s.modifyOp i (·.handleRead r <| s.answer cfg op.coord r op.key)

def readDone (i : Nat) (r : NodeId) (ok : Bool) : Option (State α) := do
  let op ← s.ops[i]?
  guard (op.read.Completes r ok)
  return s.modifyOp i (·.completeRead r ok)

def getReturn (i : Nat) : Option (State α) := do
  let op ← s.ops[i]?
  guard (¬op.request.isPut ∧ op.ReadFinished cfg)
  return s.modifyOp i (·.conclude s.time <| op.mergedRead cfg >>= getResponse op.key)

-- Hints for the nodes in `presumedDown`, and the replica writes to all other preferred nodes. That
-- the hints can be sent is what `Threads.State.Raises` is about.
def sendWrites (i : Nat) (op : Op α) (w : Write α) (presumedDown : List NodeId) : State α :=
  let hinted := match w.hintHolder with
    | none        => s
    | some holder =>
      presumedDown.foldl (·.deliverHint cfg op.coord holder · op.key w.version) s
  hinted.modifyOp i ({ · with write := some w }) |>.send <| w.call.prefs.map
    fun dest => .put i dest (cfg.address internalKeys op.coord dest op.key) w.version

-- `down` are the nodes which the coordinator believes to be down. It never is one of them.
def putWrite (i : Nat) (down : List NodeId) : Option (State α) := do
  let op ← s.ops[i]?
  guard (op.write.isNone ∧ op.ReadFinished cfg ∧ op.coord ∉ down)
  match op.request, op.mergedRead cfg with
  | .get, _                => none
  | .put _, .error e       => some <| s.modifyOp i (·.conclude s.time <| .error e)
  | .put value, .ok merged =>
    some <| s.sendWrites cfg i op (op.startWrite cfg down merged value)
      (op.prefs.filter (· ∈ down))

-- A failed write leaves a hint with the holder before its future raises.
def writeDone (i : Nat) (r : NodeId) (ok : Bool) : Option (State α) := do
  let op ← s.ops[i]?
  let w ← op.write
  guard (w.call.Completes r ok)
  let completed := s.modifyOp i (·.completeWrite r ok)
  return match w.hintHolder with
    | none        => completed
    | some holder =>
      if ok = false ∧ r ≠ holder then
        completed.deliverHint cfg op.coord holder r op.key w.version
      else completed

def putReturn (i : Nat) : Option (State α) := do
  let op ← s.ops[i]?
  let w ← op.write
  guard (op.WriteFinished cfg w)
  return s.modifyOp i (·.conclude s.time <| op.writeResponse cfg w)

def invokeDelete (coord : NodeId) (key : Key) : Option (State α) := do
  let prefs ← cfg.preferenceList key
  return s.addDelete (.submit coord key s.time prefs) |>.send <| prefs.map
    fun dest => .delete s.deletes.length dest (cfg.address internalKeys coord dest key)

def deleteDone (i : Nat) (r : NodeId) (ok : Bool) : Option (State α) := do
  let d ← s.deletes[i]?
  guard (d.call.Completes r ok)
  return s.modifyDelete i (·.complete r ok)

def deleteReturn (i : Nat) : Option (State α) := do
  let d ← s.deletes[i]?
  guard (d.Finished cfg)
  return s.modifyDelete i (·.conclude s.time <| d.response cfg)

-- A request without a route is answered with 404, which counts as success for a delete only.
-- `put_local` is executed at once, unlike in `Threads.State.deliver`.
def handle : Message α → State α
  | .put i dest (some key) version =>
    s.modifyNode dest (·.putLocal key version) |>.modifyOp i (·.handleWrite dest)
  | .delete i dest (some key) =>
    let existed := (s.node dest).deleteLocal key |>.1
    s.modifyNode dest (·.deleteLocal key |>.2) |>.modifyDelete i (·.handle dest existed)
  | .delete i dest none => s.modifyDelete i (·.handle dest false)
  | .hint dest target (some key) version => s.modifyNode dest (·.addHint target key version)
  | .flush holder dest hintKey (some key) version =>
    s.modifyNode dest (·.putLocal key version) |>.send [.flushed holder dest hintKey]
  | .flushed holder target hintKey => s.modifyNode holder (·.clearHints target hintKey)
  | .put _ _ none _ | .hint _ _ none _ | .flush _ _ _ none _ => s

-- A message may be delivered again later.
def deliver (m : Nat) (again : Bool) : Option (State α) := do
  let message ← s.net[m]?
  let rest := if again then s.net else s.net.eraseIdx m
  return { s with net := rest }.handle message

def lose (m : Nat) : Option (State α) := do
  guard (m < s.net.length)
  return { s with net := s.net.eraseIdx m }

-- `_flush_hints_for`, which only ever runs for peers.
def flush (holder target : NodeId) : Option (State α) := do
  guard (target ∈ cfg.clusterNodes ∧ target ≠ holder)
  return s.send <| (s.node holder).hintStore.pendingFor target |>.flatMap fun (key, versions) =>
    versions.map (.flush holder target key (cfg.address internalKeys holder target key) ·)

def next : Label α → Option (State α)
  | .invoke coord key request => s.invoke cfg coord key request
  | .read i r                 => s.read cfg i r
  | .readDone i r ok          => s.readDone i r ok
  | .getReturn i              => s.getReturn cfg i
  | .putWrite i down          => s.putWrite cfg i down
  | .writeDone i r ok         => s.writeDone cfg i r ok
  | .putReturn i              => s.putReturn cfg i
  | .invokeDelete coord key   => s.invokeDelete cfg coord key
  | .deleteDone i r ok        => s.deleteDone i r ok
  | .deleteReturn i           => s.deleteReturn cfg i
  | .deliver m again          => s.deliver m again
  | .lose m                   => s.lose m
  | .flush holder target      => s.flush cfg holder target

end State

-- Time is counted in steps.
def step (s : State α) (l : Label α) : Option (State α) :=
  s.next cfg l |>.map (·.tick)

-- All nodes start empty, and no request has been made.
def cluster (α : Type) : TransitionSystem (State α) (Label α) where
  init s := s = .initial
  step   := step cfg

end DynamoKV
