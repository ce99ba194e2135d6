import DynamoKV.Execution.Theorems.Puts

-- Restrictions on the order in which clients issue their requests.
namespace DynamoKV

variable {α : Type}

namespace Label

-- The key of the operation or delete which a step starts.
def starts : Label α → Option Key
  | .invoke _ key _ | .invokeDelete _ key => some key
  | _                                     => none

def startsWrite : Label α → Option Key
  | .invoke _ key (.put _) | .invokeDelete _ key => some key
  | _                                            => none

def startsPut : Label α → Option (NodeId × Key)
  | .invoke coord key (.put _) => some (coord, key)
  | _                          => none

def startsDelete : Label α → Option Key
  | .invokeDelete _ key => some key
  | _                   => none

-- The put whose replica writes a step starts.
def putWrites : Label α → Option Nat
  | .putWrite i _ => some i
  | _             => none

-- No replica is down, fails to answer or misses a message.
def NoFailure : Label α → Prop
  | .readDone _ _ ok | .writeDone _ _ ok | .deleteDone _ _ ok => ok
  | .putWrite _ down                                          => down = []
  | .lose _                                                   => False
  | _                                                         => True

instance : DecidablePred (NoFailure : Label α → Prop)
  | .readDone _ _ ok | .writeDone _ _ ok | .deleteDone _ _ ok =>
    inferInstanceAs (Decidable (ok = true))
  | .putWrite _ down => inferInstanceAs (Decidable (down = []))
  | .lose _                                                   => inferInstanceAs (Decidable False)
  | .invoke _ _ _ | .read _ _ | .getReturn _ | .putReturn _ | .invokeDelete _ _ | .deleteReturn _
  | .deliver _ _ | .flush _ _ => inferInstanceAs (Decidable True)

end Label

section Restrictions

variable (k : Key) (s : State α) (l : Label α)

def NoDelete (l : Label α) : Prop :=
  l.startsDelete ≠ some k

-- Operations and deletes of the key are issued one after another.
def Sequential : Prop :=
  l.starts = some k → (∀ op ∈ s.ops, op.key = k → op.Returned) ∧
    ∀ d ∈ s.deletes, d.key = k → d.Returned

-- No further operation is issued after a put of the key has failed.
def PutsAcked : Prop :=
  l.starts = some k → ∀ op ∈ s.ops, op.key = k → op.request.isPut → op.Acked

-- Each coordinator executes its own puts of the key one at a time, and they are acknowledged.
def OwnSerial : Prop :=
  ∀ c, l.startsPut = some (c, k) →
    ∀ op ∈ s.ops, op.coord = c → op.key = k → op.request.isPut → op.Acked

-- Puts and deletes of the key are issued one after another.
def SerialWrites : Prop :=
  l.startsWrite = some k → (∀ op ∈ s.ops, op.key = k → op.request.isPut → op.Returned) ∧
    ∀ d ∈ s.deletes, d.key = k → d.Returned

-- Each of these returns success.
def SuccessfulWrites : Prop :=
  l.startsWrite = some k → (∀ op ∈ s.ops, op.key = k → op.request.isPut → op.Acked) ∧
    ∀ d ∈ s.deletes, d.key = k → d.Acked

instance : Decidable (NoDelete k l) :=
  inferInstanceAs (Decidable (_ ≠ _))

instance : Decidable (Sequential k s l) :=
  inferInstanceAs (Decidable (_ → _))

instance : Decidable (PutsAcked k s l) :=
  inferInstanceAs (Decidable (_ → _))

instance : Decidable (OwnSerial k s l) :=
  decidable_of_iff (∀ x ∈ l.startsPut, x.2 = k →
      ∀ op ∈ s.ops, op.coord = x.1 → op.key = k → op.request.isPut → op.Acked)
    ⟨fun h c hc => h (c, k) hc rfl, fun h ⟨c, _⟩ hx hk => h c (hk ▸ hx)⟩

instance : Decidable (SerialWrites k s l) :=
  inferInstanceAs (Decidable (_ → _))

instance : Decidable (SuccessfulWrites k s l) :=
  inferInstanceAs (Decidable (_ → _))

end Restrictions

variable {cfg : Config} {s s' : State α} {l : Label α} {k : Key}

theorem Sequential.serialWrites (h : Sequential k s l) : SerialWrites k s l := by
  intro hw
  have hs : l.starts = some k := by
    match l with
    | .invoke _ _ (.put _) | .invokeDelete _ _ => exact hw
  exact ⟨fun op ho hk _ => (h hs).left op ho hk, (h hs).right⟩

theorem SuccessfulWrites.serialWrites (h : SuccessfulWrites k s l) : SerialWrites k s l :=
  fun hw => ⟨fun op ho hk hp => ((h hw).left op ho hk hp).returned,
    fun d hd hk => ((h hw).right d hd hk).returned⟩

namespace OpStep

variable {op op' : Op α}

theorem submitted (e : OpStep cfg s l i op op') : op'.submitted = op.submitted := by
  rw [Op.submitted, e.coord, e.key, e.request, Op.submitted]

theorem acked (e : OpStep cfg s l i op op') (h : op.Acked) : op'.Acked := by
  have ⟨o, ho, hv⟩ := h
  exact ⟨o, e.outcome ho, hv⟩

theorem returnedBy (e : OpStep cfg s l i op op') (h : op.ReturnedBy t) : op'.ReturnedBy t := by
  have ⟨o, ho, ht⟩ := h
  exact ⟨o, e.outcome ho, ht⟩

end OpStep

section Order

-- Of two operations related by `R`, the later one has started after the earlier one has returned,
-- namely as in `A`.
structure Ordered (R : NodeId × Key × Request α → NodeId × Key × Request α → Prop)
    (A : Op α → Prop) (s : State α) : Prop where
  before : ∀ {i j : Nat} {a b : Op α}, i < j → s.ops[i]? = some a → s.ops[j]? = some b →
    R a.submitted b.submitted → A a ∧ a.ReturnedBy b.started

variable {R : NodeId × Key × Request α → NodeId × Key × Request α → Prop} {A : Op α → Prop}

theorem Ordered.step (o : Ordered R A s) (h : step cfg s l = some s')
    (valid : ∀ {i : Nat} {op : Op α}, s.ops[i]? = some op → op.Valid cfg s.time)
    (kept : ∀ {i a a'}, OpStep cfg s l i a a' → A a → A a')
    (guard : ∀ {i b}, Started cfg s l i b → ∀ a ∈ s.ops, R a.submitted b.submitted →
      a.Returned ∧ A a) : Ordered R A s' := by
  refine ⟨fun {i j a' b'} hij ha' hb' hr => ?_⟩
  obtain ⟨a, ha, ea, ⟨b, hb, eb⟩ | hsb⟩ := opStep_or_started_of_lt h hij ha' hb'
  · rw [ea.submitted, eb.submitted] at hr
    have ⟨hA, hret⟩ := o.before hij ha hb hr
    exact ⟨kept ea hA, eb.started ▸ ea.returnedBy hret⟩
  · rw [ea.submitted] at hr
    have ⟨hret, hA⟩ := guard hsb a (List.mem_of_getElem? ha) hr
    have ⟨out, ho⟩ := Option.isSome_iff_exists.mp hret
    exact ⟨kept ea hA, ea.returnedBy ⟨out, ho, hsb.time ▸ (valid ha).returned ho⟩⟩

theorem Ordered.of_reachable {P : State α → Label α → Prop} (q : cfg.Quorum)
    (r : (cluster cfg α).Reachable P s) (hc : ∀ s l, P s l → l.CleanKey)
    (kept : ∀ {s l i a a'}, OpStep cfg s l i a a' → A a → A a')
    (guard : ∀ {s c k q}, P s (.invoke c k q) → ∀ a ∈ s.ops, R a.submitted (c, k, q) →
      a.Returned ∧ A a) : Ordered R A s := by
  refine r.invariant (fun s hs => ?init) fun s l s' r hp h o => ?step
  case init =>
    subst hs
    refine ⟨fun _ ha => ?_⟩
    simp [State.initial] at ha
  case step =>
    refine o.step h (Sound.of_reachable q r hc).valid kept fun hs => ?_
    exact guard (hs.label ▸ hp)

variable {P : State α → Label α → Prop}

-- Operations of the key have returned before the next one was started, and puts were acknowledged.
theorem Sequential.ordered (q : cfg.Quorum) (r : (cluster cfg α).Reachable P s)
    (hc : ∀ s l, P s l → l.CleanKey) (hs : ∀ s l, P s l → Sequential k s l)
    (ha : ∀ s l, P s l → PutsAcked k s l) :
    Ordered (fun a b => a.2.1 = k ∧ b.2.1 = k) (fun a => a.request.isPut → a.Acked) s := by
  refine .of_reachable q r hc (fun e h hp => e.acked <| h (e.request ▸ hp)) ?_
  intro s c k' req hp op ho ⟨hk, hk'⟩
  have hl : Label.starts (.invoke c k' req) = some k := congrArg some hk'
  exact ⟨(hs _ _ hp hl).left op ho hk, ha _ _ hp hl op ho hk⟩

theorem OwnSerial.ordered (q : cfg.Quorum) (r : (cluster cfg α).Reachable P s)
    (hc : ∀ s l, P s l → l.CleanKey) (ho : ∀ s l, P s l → OwnSerial k s l) :
    Ordered (fun a b => a.1 = b.1 ∧ a.2.1 = k ∧ b.2.1 = k ∧ a.2.2.isPut ∧ b.2.2.isPut) Op.Acked
      s := by
  refine .of_reachable q r hc (fun e h => e.acked h) ?_
  intro s c k' req hp op hm ⟨hcoord, hk, hk', hput, hput'⟩
  have hl : Label.startsPut (.invoke c k' req) = some (c, k) := by
    cases req
    case get   => simp [Request.isPut] at hput'
    case put _ => exact congrArg (fun k => some (c, k)) hk'
  have := ho _ _ hp c hl op hm hcoord hk hput
  exact ⟨this.returned, this⟩

theorem SerialWrites.ordered (q : cfg.Quorum) (r : (cluster cfg α).Reachable P s)
    (hc : ∀ s l, P s l → l.CleanKey) (hs : ∀ s l, P s l → SerialWrites k s l) :
    Ordered (fun a b => a.2.1 = k ∧ b.2.1 = k ∧ a.2.2.isPut ∧ b.2.2.isPut) (fun _ => True) s := by
  refine .of_reachable q r hc (fun _ h => h) ?_
  intro s c k' req hp op hm ⟨hk, hk', hput, hput'⟩
  have hl : Label.startsWrite (.invoke c k' req) = some k := by
    cases req
    case get   => simp [Request.isPut] at hput'
    case put _ => exact congrArg some hk'
  exact ⟨(hs _ _ hp hl).left op hm hk hput, trivial⟩

theorem SuccessfulWrites.ordered (q : cfg.Quorum) (r : (cluster cfg α).Reachable P s)
    (hc : ∀ s l, P s l → l.CleanKey) (hs : ∀ s l, P s l → SuccessfulWrites k s l) :
    Ordered (fun a b => a.2.1 = k ∧ b.2.1 = k ∧ a.2.2.isPut ∧ b.2.2.isPut) Op.Acked s := by
  refine .of_reachable q r hc (fun e h => e.acked h) ?_
  intro s c k' req hp op hm ⟨hk, hk', hput, hput'⟩
  have hl : Label.startsWrite (.invoke c k' req) = some k := by
    cases req
    case get   => simp [Request.isPut] at hput'
    case put _ => exact congrArg some hk'
  have := (hs _ _ hp hl).left op hm hk hput
  exact ⟨this.returned, this⟩

end Order
end DynamoKV
