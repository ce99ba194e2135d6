import DynamoKV.Objects.Node
import DynamoKV.Objects.QuorumCall

namespace DynamoKV

variable {α : Type*}

inductive Detail (α : Type*)
  | text (detail : String)
  | conflict (key : Key) (versions : List (VersionDict α))

structure HTTPException (α : Type*) where
  statusCode : Nat
  detail     : Detail α

namespace HTTPException

def readQuorum (key : Key) : HTTPException α :=
  ⟨503, .text <| "could not reach read quorum for key '" ++ key ++ "'"⟩

def writeQuorum (key : Key) : HTTPException α :=
  ⟨503, .text <| "could not reach write quorum for key '" ++ key ++ "'"⟩

def notFound (key : Key) : HTTPException α :=
  ⟨404, .text <| "key '" ++ key ++ "' not found"⟩

def conflict (key : Key) (versions : List (Version α)) : HTTPException α :=
  ⟨409, .conflict key <| versions.map Version.toDict⟩

end HTTPException

abbrev Response (α β : Type*) :=
  Except (HTTPException α) β

def Response.statusCode : Response α β → Nat
  | .ok _    => 200
  | .error e => e.statusCode

-- What `get` makes of the versions returned by `_merged_read`.
def getResponse (key : Key) : List (Version α) → Response α (Version α)
  | []     => .error (.notFound key)
  | [v]    => .ok v
  | merged => .error (.conflict key merged)

-- The versions that a response carries, as its only result or as siblings.
def Response.versions : Response α (Version α) → List (Version α)
  | .ok v                               => [v]
  | .error ⟨_, .conflict _ versions⟩ => versions.map Version.fromDict
  | .error ⟨_, .text _⟩               => []

@[simp]
theorem versions_getResponse (key : Key) (merged : List (Version α)) :
    (getResponse key merged).versions = merged := by
  match merged with
  | [] | [_]    => rfl
  | _ :: _ :: _ => simp [getResponse, HTTPException.conflict, Response.versions]

-- How an operation ended, and when.
structure Outcome (α β : Type*) where
  time     : Nat
  response : Response α β

inductive Request (α : Type*)
  | get
  | put (value : α)

-- The second half of `put`: what it read, the version it made of that, and its replica writes.
structure Write (α : Type*) where
  merged     : List (Version α)
  version    : Version α
  hintHolder : Option NodeId
  call       : QuorumCall Unit

-- An execution of `get` or `put`. Both start with a quorum read.
structure Op (α : Type*) where
  coord   : NodeId
  key     : Key
  request : Request α
  started : Nat
  read    : QuorumCall (List (Version α))
  write   : Option (Write α)
  outcome : Option (Outcome α (Version α))

-- An execution of `delete`.
structure DeleteOp (α : Type*) where
  coord   : NodeId
  key     : Key
  started : Nat
  call    : QuorumCall Bool
  outcome : Option (Outcome α Bool)

def Request.isPut : Request α → Bool
  | get   => false
  | put _ => true

-- The value of a put can be sent under the key.
def Request.Builds (builds : Key → α → Bool) (key : Key) : Request α → Prop
  | get       => True
  | put value => builds key value

instance : Decidable (Request.Builds builds key q : Prop) :=
  match q with
  | .get   => inferInstanceAs (Decidable True)
  | .put _ => inferInstanceAs (Decidable (_ = _))

theorem Request.builds_true (q : Request α) (key : Key) : q.Builds (fun _ _ => true) key := by
  cases q
  case get => trivial
  case put => rfl

theorem Request.eq_get {q : Request α} (h : ¬q.isPut) : q = .get := by
  cases q
  case get => rfl
  case put => simp [isPut] at h

namespace Op

-- What a client has asked for, and where.
def submitted (op : Op α) : NodeId × Key × Request α :=
  (op.coord, op.key, op.request)

def prefs (op : Op α) : List NodeId :=
  op.read.prefs

-- The version which a put has made, if it got that far.
def version (op : Op α) : Option (Version α) :=
  op.write.map (·.version)

def Returned (op : Op α) : Prop :=
  op.outcome.isSome

instance {op : Op α} : Decidable op.Returned :=
  inferInstanceAs (Decidable (_ = _))

-- The put returned a version rather than raising an exception.
def Acked (op : Op α) : Prop :=
  ∃ o ∈ op.outcome, ∃ v, o.response = .ok v

instance {op : Op α} : Decidable op.Acked :=
  match h : op.outcome with
  | none   => isFalse (by simp [Acked, h])
  | some o =>
    match h' : o.response with
    | .ok v    => isTrue ⟨o, h, v, h'⟩
    | .error _ => isFalse (by simp [Acked, h, h'])

theorem Acked.returned {op : Op α} (h : op.Acked) : op.Returned := by
  have ⟨o, ho, _⟩ := h
  exact Option.isSome_of_mem ho

def ReturnedBy (op : Op α) (time : Nat) : Prop :=
  ∃ o, op.outcome = some o ∧ o.time < time

-- The operation was acknowledged before the other one was started.
def AckedBefore (op op' : Op α) : Prop :=
  op.Acked ∧ op.ReturnedBy op'.started

end Op

namespace DeleteOp

def Returned (d : DeleteOp α) : Prop :=
  d.outcome.isSome

instance {d : DeleteOp α} : Decidable d.Returned :=
  inferInstanceAs (Decidable (_ = _))

def Acked (d : DeleteOp α) : Prop :=
  ∃ o ∈ d.outcome, ∃ existed, o.response = .ok existed

instance {d : DeleteOp α} : Decidable d.Acked :=
  match h : d.outcome with
  | none   => isFalse (by simp [Acked, h])
  | some o =>
    match h' : o.response with
    | .ok e    => isTrue ⟨o, h, e, h'⟩
    | .error _ => isFalse (by simp [Acked, h, h'])

theorem Acked.returned {d : DeleteOp α} (h : d.Acked) : d.Returned := by
  have ⟨o, ho, _⟩ := h
  exact Option.isSome_of_mem ho

end DeleteOp
end DynamoKV
