import DynamoKV.Objects.Operation
import DynamoKV.Objects.Ring
import DynamoKV.Objects.Transport

namespace DynamoKV

-- What is common to all nodes of a cluster, including how URLs are encoded between them.
structure Config where
  hash         : String → Nat
  clusterNodes : List NodeId
  virtualNodes : Nat
  n            : Nat
  r            : Nat
  w            : Nat
  safe         : Percent.SafeSet

namespace Config

variable (cfg : Config)

def ring : HashRing :=
  .ofNodes cfg.hash cfg.clusterNodes cfg.virtualNodes

def preferenceList (key : Key) : Option (List NodeId) :=
  cfg.ring.getPreferenceList cfg.hash key cfg.n

-- The neighbor which holds the hints for the nodes in `prefs`, if there is one.
def hintHolder (key : Key) (prefs : List NodeId) : Option NodeId :=
  (cfg.ring.getPreferenceList cfg.hash key (prefs.length + 1)).bind
    fun candidates => candidates.find? (· ∉ prefs)

def readThreshold (prefs : List NodeId) : Nat :=
  min cfg.r prefs.length

def writeThreshold (prefs : List NodeId) : Nat :=
  min cfg.w prefs.length

-- The key under which `dest` executes what `sender` asks of it. A node does not send requests to
-- itself.
def address (route : String) (sender dest : NodeId) (key : Key) : Option Key :=
  if dest = sender then some key else receive cfg.safe route key

-- Nodes which are placed on the ring by the first letters of their names, as an example.
def ofNodes (clusterNodes : List NodeId) (n r w : Nat) : Config where
  hash s       := (s.toList.headD 'a').toNat
  clusterNodes := clusterNodes
  virtualNodes := 1
  n            := n
  r            := r
  w            := w
  safe         := .lowercase

end Config

-- Requests in flight, of which `key` is the one received by `dest`, if its server finds a route.
inductive Message (α : Type*)
  | put (op : Nat) (dest : NodeId) (key : Option Key) (version : Version α)
  | delete (op : Nat) (dest : NodeId) (key : Option Key)
  | hint (dest target : NodeId) (key : Option Key) (version : Version α)
  | flush (holder dest : NodeId) (hintKey : Key) (key : Option Key) (version : Version α)
  | flushed (holder target : NodeId) (hintKey : Key)

structure State (α : Type*) where
  nodes   : AList (fun _ : NodeId => Node α)
  ops     : List (Op α)
  deletes : List (DeleteOp α)
  net     : List (Message α)
  time    : Nat

variable {α : Type*}

namespace Op

variable (cfg : Config) (op : Op α)

def submit (coord : NodeId) (key : Key) (request : Request α) (time : Nat) (prefs : List NodeId) :
    Op α :=
  ⟨coord, key, request, time, .submit prefs, none, none⟩

def handleRead (r : NodeId) (versions : List (Version α)) : Op α :=
  { op with read := op.read.handle r versions }

def completeRead (r : NodeId) (ok : Bool) : Op α :=
  { op with read := op.read.complete r ok }

def handleWrite (r : NodeId) : Op α :=
  { op with write := op.write.map fun w => { w with call := w.call.handle r () } }

def completeWrite (r : NodeId) (ok : Bool) : Op α :=
  { op with write := op.write.map fun w => { w with call := w.call.complete r ok } }

def conclude (time : Nat) (response : Response α (Version α)) : Op α :=
  { op with outcome := some ⟨time, response⟩ }

-- The sibling lists in the replies that count.
def replies : List (List (Version α)) :=
  op.read.successes (cfg.readThreshold op.prefs) |>.map Prod.snd

def mergedRead : Response α (List (Version α)) :=
  if op.read.Reached (cfg.readThreshold op.prefs) then .ok <| mergeReplies (op.replies cfg)
  else .error <| .readQuorum op.key

-- The version that a put makes of what it has read.
def newVersion (merged : List (Version α)) (value : α) : Version α where
  value := value
  clock := (VectorClock.merge <| merged.map (·.clock)).incremented op.coord

def startWrite (down : List NodeId) (merged : List (Version α)) (value : α) : Write α where
  merged     := merged
  version    := op.newVersion merged value
  hintHolder := cfg.hintHolder op.key op.prefs
  call       := .submit <| op.prefs.filter (· ∉ down)

def ReadFinished : Prop :=
  op.outcome.isNone ∧ op.read.Finished (cfg.readThreshold op.prefs)

def WriteFinished (w : Write α) : Prop :=
  op.outcome.isNone ∧ w.call.Finished (cfg.writeThreshold op.prefs)

instance : Decidable (op.ReadFinished cfg) :=
  inferInstanceAs (Decidable (_ ∧ _))

instance : Decidable (op.WriteFinished cfg w) :=
  inferInstanceAs (Decidable (_ ∧ _))

-- `_deliver_hint` only expects that the holder does not answer. `builds` tells whether a request
-- can be built which has the key in its URL and the value in its body. If not, the first hint for a
-- node which is presumed down ends the put with an exception.
def HintRaises (builds : Key → α → Bool) (down : List NodeId) : Prop :=
  (∃ target ∈ op.prefs, target ∈ down) ∧
    (∃ holder ∈ cfg.hintHolder op.key op.prefs, holder ≠ op.coord) ∧
      ¬op.request.Builds builds op.key

instance : Decidable (op.HintRaises cfg builds down) :=
  inferInstanceAs (Decidable (_ ∧ _))

def writeResponse (w : Write α) : Response α (Version α) :=
  if w.call.Reached (cfg.writeThreshold op.prefs) then .ok w.version
  else .error <| .writeQuorum op.key

end Op

namespace DeleteOp

variable (cfg : Config) (d : DeleteOp α)

def submit (coord : NodeId) (key : Key) (time : Nat) (prefs : List NodeId) : DeleteOp α :=
  ⟨coord, key, time, .submit prefs, none⟩

def handle (r : NodeId) (existed : Bool) : DeleteOp α :=
  { d with call := d.call.handle r existed }

def complete (r : NodeId) (ok : Bool) : DeleteOp α :=
  { d with call := d.call.complete r ok }

def conclude (time : Nat) (response : Response α Bool) : DeleteOp α :=
  { d with outcome := some ⟨time, response⟩ }

def Finished : Prop :=
  d.outcome.isNone ∧ d.call.Finished (cfg.writeThreshold d.call.prefs)

instance : Decidable (d.Finished cfg) :=
  inferInstanceAs (Decidable (_ ∧ _))

def response : Response α Bool :=
  let threshold := cfg.writeThreshold d.call.prefs
  if d.call.Reached threshold then .ok <| (d.call.successes threshold).any Prod.snd
  else .error <| .writeQuorum d.key

end DeleteOp

namespace State

variable (s : State α)

def initial : State α where
  nodes   := ∅
  ops     := []
  deletes := []
  net     := []
  time    := 0

def node (r : NodeId) : Node α :=
  (s.nodes.lookup r).getD .empty

def modifyNode (r : NodeId) (f : Node α → Node α) : State α :=
  { s with nodes := s.nodes.insert r <| f (s.node r) }

def addOp (op : Op α) : State α :=
  { s with ops := s.ops ++ [op] }

def modifyOp (i : Nat) (f : Op α → Op α) : State α :=
  { s with ops := s.ops.modify i f }

def addDelete (d : DeleteOp α) : State α :=
  { s with deletes := s.deletes ++ [d] }

def modifyDelete (i : Nat) (f : DeleteOp α → DeleteOp α) : State α :=
  { s with deletes := s.deletes.modify i f }

def send (messages : List (Message α)) : State α :=
  { s with net := s.net ++ messages }

def tick : State α :=
  { s with time := s.time + 1 }

-- The request is taken to be one that can be built, unlike in `Op.HintRaises`.
def deliverHint (cfg : Config) (coord holder target : NodeId) (key : Key) (version : Version α) :
    State α :=
  if holder = coord then s.modifyNode coord (·.addHint target key version)
  else s.send [.hint holder target (cfg.address internalHints coord holder key) version]

end State
end DynamoKV
