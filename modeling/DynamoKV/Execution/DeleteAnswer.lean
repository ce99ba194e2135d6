import DynamoKV.Execution.Deletion
import DynamoKV.Execution.LastPut

-- What the answer of a delete says about the key. It is about the replicas which are counted, so it
-- depends on what earlier operations have left at them.
namespace DynamoKV

open Antichain

variable {α : Type} {cfg : Config} {s s' : State α} {l : Label α} {k : Key}

-- The public route, once `delete` has returned.
def deleteKey (key : Key) (response : Response α Bool) : Response α Bool := do
  let deleted ← response
  if deleted then return true else .error <| .notFound key

theorem statusCode_deleteKey (key : Key) (deleted : Bool) :
    (deleteKey key (.ok deleted : Response α Bool)).statusCode = if deleted then 200 else 404 := by
  cases deleted <;> rfl

section Steps

theorem Node.deleteLocal_of_ne_nil {n : Node α} (h : n.getLocal k ≠ []) :
    (n.deleteLocal k).1 = true := by
  have hs : (n.deleteLocal k).1 = (n.storage.get k).isSome := Storage.delete_fst
  rw [hs]
  unfold getLocal at h
  split at h
  case h_1 => contradiction
  case h_2 he => rw [he, Option.isSome_some]

-- A replica which gets the request of a delete executes it.
theorem delete_of_delivered (h : step cfg s l = some s')
    (hm : s.delivered l = some (.delete j r (some key))) (hd : s.deletes[j]? = some d) :
    s'.deletes[j]? = some (d.handle r ((s.node r).deleteLocal key).1) := by
  cases l <;> simp only [State.delivered, reduceCtorEq] at hm
  obtain ⟨s₁, hn, rfl⟩ := State.step_eq_some.mp h
  obtain ⟨message, hm', rfl⟩ := State.deliver_eq_some.mp hn
  cases Option.some.inj <| hm.symm.trans hm'
  simp [State.handle, State.modifyNode, State.modifyDelete, State.tick, State.node, hd]

theorem DeleteOp.mem_executed_handle (d : DeleteOp α) (r : NodeId) (existed : Bool) :
    r ∈ (d.handle r existed).executed := by
  unfold executed handle QuorumCall.handle
  split
  case isTrue h => exact h
  case isFalse  => simp

theorem DeleteStep.executed_subset {d d' : DeleteOp α} (e : DeleteStep cfg s l i d d') :
    d.executed ⊆ d'.executed :=
  List.map_subset _ e.call.handled

theorem DeleteStep.response_of {d d' : DeleteOp α} (e : DeleteStep cfg s l i d d')
    (h : d'.outcome = some o) : d.outcome = some o ∨
      d.outcome = none ∧ d.Finished cfg ∧ o.response = d.response cfg := by
  cases e
  case deleteReturn hf =>
    cases h
    exact .inr ⟨by simpa using hf.left, hf, rfl⟩
  all_goals exact .inl h

-- A delete has been executed before, or now and for the first time.
theorem executed_step (c : CleanState s) (h : step cfg s l = some s')
    (hd : s.deletes[j]? = some d) (e : DeleteStep cfg s l j d d')
    (hd' : s'.deletes[j]? = some d') {x : NodeId × Bool} (hx : x ∈ d'.call.handled) :
    x ∈ d.call.handled ∨ x.1 ∉ d.executed ∧
      s.delivered l = some (.delete j x.1 (some d.key)) ∧
      x.2 = ((s.node x.1).deleteLocal d.key).1 := by
  rcases e.handled_of hx with hx | ⟨key, hm⟩
  · exact .inl hx
  · obtain ⟨d₀, hd₀, rfl⟩ := c.delete <| mem_net_of_delivered hm
    cases Option.some.inj <| hd.symm.trans hd₀
    cases Option.some.inj <| hd'.symm.trans <| delete_of_delivered h hm hd
    by_cases hr : x.1 ∈ d.executed
    case pos =>
      simp only [DeleteOp.handle, QuorumCall.handle] at hx
      rw [if_pos (show x.1 ∈ d.call.handled.map Prod.fst from hr)] at hx
      exact .inl hx
    case neg =>
      refine (QuorumCall.mem_handled_handle hx).imp_right fun he => ⟨hr, hm, ?_⟩
      exact congrArg Prod.snd he

end Steps

section Order

-- Operations are recorded in the order in which they are issued. A delete of the key has returned
-- when the next one is issued, and so have the puts before it, all with success.
structure IssuedInOrder (k : Key) (s : State α) : Prop where
  ops     : ∀ {i j : Nat} {a b : Op α}, i < j → s.ops[i]? = some a → s.ops[j]? = some b →
    a.started < b.started
  deletes : ∀ {i j : Nat} {a b : DeleteOp α}, i < j → s.deletes[i]? = some a →
    s.deletes[j]? = some b → a.started < b.started ∧ (a.key = k → b.key = k → a.Returned)
  puts    : ∀ op ∈ s.ops, op.key = k → op.request.isPut → ∀ d ∈ s.deletes, d.key = k →
    op.started < d.started → op.Acked ∧ op.ReturnedBy d.started

namespace IssuedInOrder

theorem initial : IssuedInOrder k (State.initial : State α) := by
  constructor <;> simp [State.initial]

variable (o : IssuedInOrder k s) (h : DynamoKV.step cfg s l = some s')
include o h

theorem step_ops (sd : Sound cfg s) {i j : Nat} {a' b' : Op α} (hij : i < j)
    (ha' : s'.ops[i]? = some a') (hb' : s'.ops[j]? = some b') : a'.started < b'.started := by
  obtain ⟨a, ha, ea, ⟨b, hb, eb⟩ | hs⟩ := opStep_or_started_of_lt h hij ha' hb'
  · exact ea.started ▸ eb.started ▸ o.ops hij ha hb
  · exact ea.started ▸ hs.time ▸ (sd.valid ha).started

theorem step_deletes (hlt : ∀ d ∈ s.deletes, d.started < s.time) (hw : SuccessfulWrites k s l)
    {i j : Nat} {a' b' : DeleteOp α} (hij : i < j) (ha' : s'.deletes[i]? = some a')
    (hb' : s'.deletes[j]? = some b') :
    a'.started < b'.started ∧ (a'.key = k → b'.key = k → a'.Returned) := by
  have returned {a a' : DeleteOp α} (e : DeleteStep cfg s l i a a') (hr : a.Returned) :
      a'.Returned := by
    obtain ⟨out, hout⟩ := Option.isSome_iff_exists.mp hr
    exact Option.isSome_of_mem <| e.outcome hout
  obtain ⟨a, ha, ea, ⟨b, hb, eb⟩ | hs⟩ := deleteStep_or_started_of_lt h hij ha' hb'
  · have hb := o.deletes hij ha hb
    rw [ea.started, eb.started, ea.key, eb.key]
    exact ⟨hb.left, fun hk hk' => returned ea <| hb.right hk hk'⟩
  · rw [ea.started, ea.key, hs.time]
    have hm := List.mem_of_getElem? ha
    refine ⟨hlt a hm, fun hk hk' => returned ea ?_⟩
    have hl : l.startsWrite = some k := by rw [hs.label, ← hk', Label.startsWrite]
    exact ((hw hl).right a hm hk).returned

theorem step_puts (sd : Sound cfg s) (hlt : ∀ d ∈ s.deletes, d.started < s.time)
    (hw : SuccessfulWrites k s l) :
    ∀ op ∈ s'.ops, op.key = k → op.request.isPut → ∀ d ∈ s'.deletes, d.key = k →
      op.started < d.started → op.Acked ∧ op.ReturnedBy d.started := by
  intro op' hop hk hp d' hdel hdk ht
  obtain ⟨i, hi⟩ := List.getElem?_of_mem hop
  obtain ⟨j, hj⟩ := List.getElem?_of_mem hdel
  rcases opStep_or_started h hi with ⟨op, ho, e⟩ | hs <;>
    rcases deleteStep_or_started h hj with ⟨d, hd, ed⟩ | hds
  · rw [e.key] at hk
    rw [e.request] at hp
    rw [ed.key] at hdk
    rw [e.started, ed.started] at ht
    have ⟨ha, hr⟩ :=
      o.puts op (List.mem_of_getElem? ho) hk hp d (List.mem_of_getElem? hd) hdk ht
    exact ⟨e.acked ha, ed.started ▸ e.returnedBy hr⟩
  · have hl : l.startsWrite = some k := by rw [hds.label, ← hdk, Label.startsWrite]
    have ha := (hw hl).left op (List.mem_of_getElem? ho) (e.key ▸ hk) (e.request ▸ hp)
    obtain ⟨out, hout⟩ := Option.isSome_iff_exists.mp ha.returned
    exact ⟨e.acked ha, e.returnedBy ⟨out, hout, hds.time ▸ (sd.valid ho).returned hout⟩⟩
  · have := hlt d <| List.mem_of_getElem? hd
    rw [hs.time, ed.started] at ht
    omega
  · have := hs.label.symm.trans hds.label
    contradiction

omit o h in
theorem of_reachable {P : State α → Label α → Prop} (q : cfg.Quorum)
    (r : (cluster cfg α).Reachable P s) (hc : ∀ s l, P s l → l.CleanKey)
    (hw : ∀ s l, P s l → SuccessfulWrites k s l) : IssuedInOrder k s := by
  refine r.invariant (fun _ hs => hs ▸ initial) fun s l s' r hp h o => ?_
  have sd  := Sound.of_reachable q r hc
  have hlt := delete_started_lt r
  exact ⟨o.step_ops h sd, o.step_deletes h hlt (hw s l hp), o.step_puts h sd hlt (hw s l hp)⟩

end IssuedInOrder
end Order

section Found

-- The put is the last operation which was issued before the delete.
def Put.LastBefore (p : Put s k) (d : DeleteOp α) : Prop :=
  p.op.started < d.started ∧ p.LastUntil d.started

-- A delete which reaches its quorum finds the last put, if that was acknowledged.
def FindsLastPut (k : Key) (s : State α) : Prop :=
  ∀ d ∈ s.deletes, d.key = k → ∀ o ∈ d.outcome, ∀ existed, o.response = .ok existed →
    ∀ p : Put s k, p.op.Acked → p.LastBefore d →
      existed = true ∧ (deleteKey k o.response).statusCode = 200

-- A replica keeps what it has acknowledged until it executes a later delete.
def KeptUntilDelete (k : Key) (s : State α) : Prop :=
  ∀ (p : Put s k) (r : NodeId), (r, ()) ∈ p.write.call.handled →
    (∀ d ∈ s.deletes, d.key = k → p.op.started < d.started → r ∉ d.executed) →
    Covers ((s.node r).getLocal k) p.version

theorem KeptUntilDelete.step (kd : KeptUntilDelete k s) (c : CleanState s) (hn : NoLateErase k s l)
    (h : DynamoKV.step cfg s l = some s') : KeptUntilDelete k s' := by
  intro p' r hr hd
  rcases p'.handled_of_step c h hr with ⟨p, e, hr⟩ | hm
  case inr => exact covers_of_delivered h hm
  case inl =>
    have old : ∀ d ∈ s.deletes, d.key = k → p.op.started < d.started → r ∉ d.executed := by
      intro d hdel hk hlt hex
      obtain ⟨j, hj⟩ := List.getElem?_of_mem hdel
      obtain ⟨d', hd', ed⟩ := exists_deleteStep h hj
      refine hd d' (List.mem_of_getElem? hd') (ed.key ▸ hk) ?_ (ed.executed_subset hex)
      rwa [ed.started, e.op.started]
    rw [e.version]
    refine covers_step h ?_ <| kd p r hr old
    rintro _ hm ⟨j, rfl⟩
    obtain ⟨d, hj, hk⟩ := c.delete <| mem_net_of_delivered hm
    by_cases hlt : p.op.started < d.started
    case pos =>
      refine hd _ (List.mem_of_getElem? <| delete_of_delivered h hm hj) ?_ ?_
        (d.mem_executed_handle r _)
      · exact (Option.some.inj hk).symm
      · rw [e.op.started]
        exact hlt
    case neg =>
      refine hn _ hm (j, r, k) rfl rfl d hj p.op (List.mem_of_getElem? p.mem) p.key
        (not_lt.mp hlt) ?_
      rw [Op.executed, p.wrote]
      exact List.mem_map_of_mem hr

theorem KeptUntilDelete.of_reachable {P : State α → Label α → Prop}
    (r : (cluster cfg α).Reachable P s) (hc : ∀ s l, P s l → l.CleanKey)
    (hn : ∀ s l, P s l → NoLateErase k s l) : KeptUntilDelete k s := by
  have inv := r.invariant (I := fun s => CleanState s ∧ KeptUntilDelete k s)
    (fun s hs => hs ▸ ⟨.initial, fun p => absurd p.mem (by simp [State.initial])⟩)
    fun s l s' _ hp h hi => ⟨hi.left.step (hc s l hp) h, hi.right.step hi.left (hn s l hp) h⟩
  exact inv.right

-- Two write quorums of the key overlap.
def Config.WritesOverlap (cfg : Config) (k : Key) : Prop :=
  ∀ prefs, cfg.preferenceList k = some prefs → prefs.length < 2 * cfg.writeThreshold prefs

theorem Put.exists_counted (wo : cfg.WritesOverlap k) (sd : Sound cfg s) (p : Put s k)
    (ha : p.op.Acked) (v : DeleteOp.Valid cfg d) (hk : d.key = k)
    (hr : d.call.Reached (cfg.writeThreshold d.call.prefs)) :
    ∃ x ∈ d.call.successes (cfg.writeThreshold d.call.prefs), x.1 ∈ p.acks cfg := by
  have hp := (sd.valid p.mem).prefs
  rw [p.key] at hp
  have hd : d.call.prefs = p.op.prefs := Option.some.inj <| (hk ▸ v.prefs).symm.trans hp
  have hlt := wo _ hp
  rw [hd] at hr ⊢
  exact hr.exists_overlap (Put.reached_of_acked sd ha) (hd ▸ List.Subset.refl _)
    ((sd.valid p.mem).wrote p.wrote).prefs (by omega)

-- As long as a delete has not returned, the replicas which have acknowledged the last put before it
-- report to it that they had the key.
structure Found (cfg : Config) (k : Key) (s : State α) : Prop where
  replies : ∀ d ∈ s.deletes, d.key = k → d.outcome = none → ∀ p : Put s k, p.LastBefore d →
    ∀ x ∈ d.call.handled, x.1 ∈ p.acks cfg → x.2 = true
  answers : FindsLastPut k s

namespace Found

variable {d d' : DeleteOp α}

theorem exists_continues (sd : Sound cfg s) (o : IssuedInOrder k s) (o' : IssuedInOrder k s')
    (hlt : ∀ d ∈ s.deletes, d.started < s.time) (h : DynamoKV.step cfg s l = some s')
    (hd : d ∈ s.deletes) (hd' : d' ∈ s'.deletes) (e : DeleteStep cfg s l j d d') (hk : d.key = k)
    (sd' : Sound cfg s') {p' : Put s' k} (hl : p'.LastBefore d') :
    ∃ p : Put s k, p.Continues cfg l p' ∧ p.LastBefore d ∧ p.op.Acked := by
  have hr := o'.puts p'.op (List.mem_of_getElem? p'.mem) p'.key (p'.isPut sd') d' hd'
    (e.key.trans hk) hl.left |>.right
  rcases p'.continues_or_minted h with ⟨p, ep⟩ | ⟨op, _, _, hm, eo⟩
  · have hb : p.op.started < d.started := by
      rw [← ep.op.started, ← e.started]
      exact hl.left
    refine ⟨p, ep, ⟨hb, e.started ▸ hl.right.of_continues h ep⟩, ?_⟩
    exact o.puts p.op (List.mem_of_getElem? p.mem) p.key (p.isPut sd) d hd hk hb |>.left
  · exact absurd hr <| not_returnedBy_of_mints hm eo (e.started ▸ (hlt d hd).le)

-- A replica has executed no later delete before, since the next delete is not issued yet.
theorem not_executed (o : IssuedInOrder k s) {j : Nat} (hj : s.deletes[j]? = some d)
    (hk : d.key = k) (hn : d.outcome = none) {p : Put s k} (hl : p.LastBefore d)
    (hr : r ∉ d.executed) :
    ∀ d₀ ∈ s.deletes, d₀.key = k → p.op.started < d₀.started → r ∉ d₀.executed := by
  intro d₀ hd₀ hk₀ hlt
  obtain ⟨i, hi⟩ := List.getElem?_of_mem hd₀
  have hle := hl.right.deletes d₀ hd₀ hk₀ hlt
  rcases Nat.lt_trichotomy i j with hij | rfl | hji
  · have := (o.deletes hij hi hj).left
    omega
  · exact Option.some.inj (hj.symm.trans hi) ▸ hr
  · have hret := (o.deletes hji hj hi).right hk hk₀
    simp [DeleteOp.Returned, hn] at hret

theorem step_replies (q : cfg.Quorum) (f : Found cfg k s) (sd : Sound cfg s) (sd' : Sound cfg s')
    (o : IssuedInOrder k s) (o' : IssuedInOrder k s') (hlt : ∀ d ∈ s.deletes, d.started < s.time)
    (kd : KeptUntilDelete k s) (h : DynamoKV.step cfg s l = some s') :
    ∀ d' ∈ s'.deletes, d'.key = k → d'.outcome = none → ∀ p' : Put s' k, p'.LastBefore d' →
      ∀ x ∈ d'.call.handled, x.1 ∈ p'.acks cfg → x.2 = true := by
  intro d' hd' hk hn p' hl x hx hr
  obtain ⟨j, hj'⟩ := List.getElem?_of_mem hd'
  rcases deleteStep_or_started h hj' with ⟨d, hj, e⟩ | hs
  case inr =>
    obtain ⟨_, _, hc⟩ := hs.call
    simp [hc, QuorumCall.submit] at hx
  have hd := List.mem_of_getElem? hj
  have hk : d.key = k := e.key ▸ hk
  have hn : d.outcome = none := by
    by_contra hne
    obtain ⟨out, hout⟩ := Option.ne_none_iff_exists'.mp hne
    cases (e.outcome hout).symm.trans hn
  obtain ⟨p, ep, hl, ha⟩ := exists_continues sd o o' hlt h hd hd' e hk sd' hl
  rw [ep.acks q sd ha] at hr
  rcases executed_step sd.clean h hj e hj' hx with hx | ⟨hne, _, hex⟩
  · exact f.replies d hd hk hn p hl x hx hr
  · have hc := kd p x.1 (Put.handled_of_mem_acks hr) <| not_executed o hj hk hn hl hne
    rw [hex, hk]
    obtain ⟨v, hv, _⟩ := hc
    exact Node.deleteLocal_of_ne_nil <| List.ne_nil_of_mem hv

theorem step_answers (f : Found cfg k s) (wo : cfg.WritesOverlap k) (sd : Sound cfg s)
    (sd' : Sound cfg s') (hv : ∀ d ∈ s.deletes, DeleteOp.Valid cfg d)
    (o : IssuedInOrder k s) (o' : IssuedInOrder k s') (hlt : ∀ d ∈ s.deletes, d.started < s.time)
    (h : DynamoKV.step cfg s l = some s') : FindsLastPut k s' := by
  intro d' hd' hk out hout existed hres p' _ hl
  obtain ⟨j, hj'⟩ := List.getElem?_of_mem hd'
  rcases deleteStep_or_started h hj' with ⟨d, hj, e⟩ | hs
  case inr => simp [hs.outcome] at hout
  have hd := List.mem_of_getElem? hj
  have hk : d.key = k := e.key ▸ hk
  obtain ⟨p, ep, hl, ha⟩ := exists_continues sd o o' hlt h hd hd' e hk sd' hl
  rcases e.response_of hout with hout | ⟨hn, _, he⟩
  · exact f.answers d hd hk out hout existed hres p ha hl
  · rw [he] at hres
    have hr := DeleteOp.response_eq_ok hres
    obtain ⟨x, hx, hxp⟩ := p.exists_counted wo sd ha (hv d hd) hk hr
    have hb := f.replies d hd hk hn p hl x (QuorumCall.handled_of_mem_successes hx) hxp
    simp only [DeleteOp.response, hr, if_true] at hres
    cases hres
    have ht : (d.call.successes (cfg.writeThreshold d.call.prefs)).any Prod.snd = true :=
      List.any_eq_true.mpr ⟨x, hx, hb⟩
    simp [he, DeleteOp.response, hr, ht, statusCode_deleteKey]

theorem of_reachable {P : State α → Label α → Prop} (q : cfg.Quorum) (wo : cfg.WritesOverlap k)
    (r : (cluster cfg α).Reachable P s) (hc : ∀ s l, P s l → l.CleanKey)
    (hw : ∀ s l, P s l → SuccessfulWrites k s l) (hn : ∀ s l, P s l → NoLateErase k s l) :
    Found cfg k s := by
  refine r.invariant (fun s hs => ?init) fun s l s' r hp h f => ?step
  case init =>
    subst hs
    constructor <;> simp [State.initial, FindsLastPut]
  case step =>
    have r'  := r.step hp h
    have sd  := Sound.of_reachable q r hc
    have sd' := Sound.of_reachable q r' hc
    have o   := IssuedInOrder.of_reachable q r hc hw
    have o'  := IssuedInOrder.of_reachable q r' hc hw
    have hlt := delete_started_lt r
    exact ⟨f.step_replies q sd sd' o o' hlt (.of_reachable r hc hn) h,
      f.step_answers wo sd sd' (DeleteOp.valid_of_reachable q r) o o' hlt h⟩

end Found
end Found

section Gone

-- Every read quorum would make `get` raise 404.
def ReadsNotFound (cfg : Config) (k : Key) (s : State α) : Prop :=
  ∀ prefs, cfg.preferenceList k = some prefs → ∀ readers : List NodeId, readers.Nodup →
    readers ⊆ prefs → cfg.readThreshold prefs ≤ readers.length → ∀ coord,
      getResponse k (mergeReplies <| readers.map (s.answer cfg coord · k)) = .error (.notFound k)

-- From when a delete finds nothing until the next put is issued, there is nothing to read.
def NotFoundIsGone (cfg : Config) (k : Key) (s : State α) : Prop :=
  ∀ d ∈ s.deletes, d.key = k → ∀ o ∈ d.outcome, o.response = .ok false →
    (∀ op ∈ s.ops, op.key = k → op.request.isPut → op.started < d.started) →
    (deleteKey k o.response).statusCode = 404 ∧ ReadsNotFound cfg k s

-- No replica write and no hint of a put reaches a replica which has executed a later delete.
def NoLateStore (k : Key) (s : State α) (l : Label α) : Prop :=
  ∀ m ∈ s.delivered l, ∀ x ∈ m.stored, x.2.1 = k → ∀ d ∈ s.deletes, d.key = k →
    x.1 ∈ d.executed → ∃ op ∈ s.ops, op.key = k ∧ op.version = some x.2.2 ∧ d.started ≤ op.started

-- The replica stores nothing under the key, and nothing is coming.
def Vacant (k : Key) (r : NodeId) (s : State α) : Prop :=
  (s.node r).getLocal k = [] ∧ ∀ v, ¬Coming s k v

-- A delete which follows another one is issued when each replica has executed that, or has nothing
-- to erase.
def SettledDeletes (k : Key) (s : State α) (l : Label α) : Prop :=
  l.startsDelete = some k → ∀ d ∈ s.deletes, d.key = k →
    (∀ op ∈ s.ops, op.key = k → op.request.isPut → op.started < d.started) →
    ∀ r ∈ d.call.prefs, r ∈ d.executed ∨ Vacant k r s

theorem Message.mem_store' {m : Message α} (h : v ∈ m.store r k vs) :
    v ∈ vs ∨ m.stored = some (r, k, v) := by
  unfold store at h
  split at h
  case h_1 | h_2 =>
    split at h
    case isFalse   => exact .inl h
    case isTrue hk =>
      obtain ⟨rfl, rfl⟩ := hk
      exact (mem_reconcile h).imp_right fun he => by rw [he, stored]
  case h_3 =>
    split at h
    case isTrue  => contradiction
    case isFalse => exact .inl h
  case h_4 => exact .inl h

-- The version was made by a put which was issued at the given time or later.
def PutSince (k : Key) (s : State α) (time : Nat) (v : Version α) : Prop :=
  ∃ op ∈ s.ops, op.key = k ∧ op.version = some v ∧ time ≤ op.started

-- What a replica stores was put after all deletes which it has executed.
def StoredSince (k : Key) (s : State α) : Prop :=
  ∀ (r : NodeId), ∀ v ∈ (s.node r).getLocal k, ∀ d ∈ s.deletes, d.key = k → r ∈ d.executed →
    PutSince k s d.started v

theorem PutSince.step (ps : PutSince k s t v) (h : DynamoKV.step cfg s l = some s') :
    PutSince k s' t v := by
  obtain ⟨op, ho, hk, hv, ht⟩ := ps
  obtain ⟨i, hi⟩ := List.getElem?_of_mem ho
  obtain ⟨op', hi', e⟩ := exists_opStep h hi
  obtain ⟨w, hw, rfl⟩ := Option.map_eq_some_iff.mp hv
  obtain ⟨w', hw', ew⟩ := e.write' hw
  refine ⟨op', List.mem_of_getElem? hi', e.key.trans hk, ?_, e.started ▸ ht⟩
  rw [Op.version, hw', Option.map_some, ew.version]

theorem StoredSince.step (ss : StoredSince k s) (c : CleanState s) (hn : NoLateStore k s l)
    (h : DynamoKV.step cfg s l = some s') : StoredSince k s' := by
  intro r v hv d' hd' hk hr
  obtain ⟨j, hj'⟩ := List.getElem?_of_mem hd'
  rcases deleteStep_or_started h hj' with ⟨d, hj, e⟩ | hs
  case inr =>
    obtain ⟨_, _, hc⟩ := hs.call
    simp [DeleteOp.executed, hc, QuorumCall.submit] at hr
  have hk : d.key = k := e.key ▸ hk
  rw [getLocal_step h] at hv
  obtain ⟨x, hx, rfl⟩ := List.mem_map.mp hr
  rcases executed_step c h hj e hj' hx with hx | ⟨_, hm, _⟩
  case inr => simp [hm, hk, Message.store] at hv
  have hr : x.1 ∈ d.executed := List.mem_map_of_mem hx
  rw [e.started]
  refine PutSince.step ?_ h
  cases hm : s.delivered l
  case none =>
    rw [hm] at hv
    exact ss x.1 v hv d (List.mem_of_getElem? hj) hk hr
  case some m =>
    rw [hm] at hv
    rcases Message.mem_store' hv with hv | hst
    · exact ss x.1 v hv d (List.mem_of_getElem? hj) hk hr
    · exact hn m hm _ hst rfl d (List.mem_of_getElem? hj) hk hr

theorem StoredSince.of_reachable {P : State α → Label α → Prop}
    (r : (cluster cfg α).Reachable P s) (hc : ∀ s l, P s l → l.CleanKey)
    (hn : ∀ s l, P s l → NoLateStore k s l) : StoredSince k s := by
  have inv := r.invariant (I := fun s => CleanState s ∧ StoredSince k s)
    (fun s hs => hs ▸ ⟨.initial, fun r v hv => by simp at hv⟩)
    fun s l s' _ hp h hi => ⟨hi.left.step (hc s l hp) h, hi.right.step hi.left (hn s l hp) h⟩
  exact inv.right

-- What the replica stores under the key, and what is coming, was put since the given time.
def OnlySince (k : Key) (r : NodeId) (s : State α) (time : Nat) : Prop :=
  ∀ v, v ∈ (s.node r).getLocal k ∨ Coming s k v → PutSince k s time v

theorem Vacant.onlySince (h : Vacant k r s) (t : Nat) : OnlySince k r s t := by
  rintro v (hv | hv)
  · simp [h.left] at hv
  · exact absurd hv <| h.right v

-- Puts which were issued before the delete have returned, so none of them makes its version now.
theorem OnlySince.step (os : OnlySince k r s d.started) (sd : Sound cfg s) (sd' : Sound cfg s')
    (o : IssuedInOrder k s) (hd : d ∈ s.deletes) (hk : d.key = k)
    (h : DynamoKV.step cfg s l = some s') : OnlySince k r s' d.started := by
  intro v hv
  have hc : (v ∈ (s.node r).getLocal k ∨ Coming s k v) ∨
      ∃ i op w, Minted cfg s l s' i op w ∧ op.key = k ∧ w.version = v := by
    rcases hv with hv | hv
    · exact .inl <| coming_of_stored h hv
    · exact (hv.of_step sd.clean sd'.clean h).imp_left .inr
  rcases hc with hv | ⟨i, op, w, hm, hok, rfl⟩
  · exact (os v hv).step h
  · obtain ⟨op', ho', hk', hw'⟩ := hm.after
    obtain ⟨op'', ho'', e⟩ := exists_opStep h hm.before
    cases Option.some.inj <| ho'.symm.trans ho''
    refine ⟨op', List.mem_of_getElem? ho', hk'.trans hok, by rw [Op.version, hw']; rfl, ?_⟩
    rw [e.started]
    by_contra hlt
    obtain ⟨_, hq, _⟩ := hm.mints.put
    have hput : op.request.isPut := by rw [hq, Request.isPut]
    have ha := o.puts op (List.mem_of_getElem? hm.before) hok hput d hd hk (not_le.mp hlt)
    have hn : op.outcome = none := by simpa using hm.mints.finished.left
    simp [Op.Acked, hn] at ha

-- If another delete of the key was issued right after a delete, each replica has executed the first
-- one or stores nothing older.
def SettledBefore (k : Key) (s : State α) : Prop :=
  ∀ ⦃i j : Nat⦄ ⦃a b : DeleteOp α⦄, i < j → s.deletes[i]? = some a → s.deletes[j]? = some b →
    a.key = k → b.key = k → (∀ op ∈ s.ops, op.key = k → op.request.isPut →
      op.started < a.started ∨ b.started ≤ op.started) →
    ∀ r ∈ a.call.prefs, r ∈ a.executed ∨ OnlySince k r s a.started

theorem SettledBefore.step (sb : SettledBefore k s) (sd : Sound cfg s) (sd' : Sound cfg s')
    (o : IssuedInOrder k s) (hs : SettledDeletes k s l) (h : DynamoKV.step cfg s l = some s') :
    SettledBefore k s' := by
  intro i j a' b' hij ha' hb' hk hk' hp r hr
  obtain ⟨a, ha, ea, hb⟩ := deleteStep_or_started_of_lt h hij ha' hb'
  rw [ea.key] at hk
  rw [ea.call.prefs] at hr
  have before : ∀ op ∈ s.ops, op.key = k → op.request.isPut →
      op.started < a.started ∨ b'.started ≤ op.started := by
    intro op ho hok hput
    obtain ⟨n, hn⟩ := List.getElem?_of_mem ho
    obtain ⟨op', hn', e⟩ := exists_opStep h hn
    have := hp op' (List.mem_of_getElem? hn') (e.key ▸ hok) (e.request ▸ hput)
    rwa [e.started, ea.started] at this
  have settled : r ∈ a.executed ∨ OnlySince k r s a.started := by
    rcases hb with ⟨b, hb, eb⟩ | hsb
    · exact sb hij ha hb hk (eb.key ▸ hk') (eb.started ▸ before) r hr
    · have hl : l.startsDelete = some k := by rw [hsb.label, Label.startsDelete, hk']
      have hs := hs hl a (List.mem_of_getElem? ha) hk (fun op ho hok hput => ?_) r hr
      · exact hs.imp_right (·.onlySince _)
      · obtain ⟨n, hn⟩ := List.getElem?_of_mem ho
        have hlt := (sd.valid hn).started
        have := hsb.time
        exact (before op ho hok hput).resolve_right (by omega)
  refine settled.imp (ea.executed_subset ·) fun os => ?_
  rw [ea.started]
  exact os.step sd sd' o (List.mem_of_getElem? ha) hk h

theorem SettledBefore.of_reachable {P : State α → Label α → Prop} (q : cfg.Quorum)
    (r : (cluster cfg α).Reachable P s) (hc : ∀ s l, P s l → l.CleanKey)
    (hw : ∀ s l, P s l → SuccessfulWrites k s l) (hs : ∀ s l, P s l → SettledDeletes k s l) :
    SettledBefore k s := by
  refine r.invariant (I := fun s => SettledBefore k s) (fun s hi => ?init)
    fun s l s' r hp h sb => ?step
  case init =>
    subst hi
    intro i j a b _ ha
    simp [State.initial] at ha
  case step =>
    have sd  := Sound.of_reachable q r hc
    have sd' := Sound.of_reachable q (r.step hp h) hc
    exact sb.step sd sd' (.of_reachable q r hc hw) (hs s l hp) h

-- Of some puts which have made their versions, one was issued last.
theorem exists_last_put (p₀ : Put s k) : ∃ p : Put s k, ∀ p' : Put s k, p'.index ≤ p.index := by
  have : Nonempty (Put s k) := ⟨p₀⟩
  exact Finite.exists_max Put.index

section NotFound

variable {d : DeleteOp α} {out : Outcome α Bool}

-- Where a delete finds nothing, another delete was issued between it and the last put.
theorem exists_delete_between (o : IssuedInOrder k s) (f : FindsLastPut k s) (sd : Sound cfg s)
    (hd : d ∈ s.deletes) (hk : d.key = k) (hout : d.outcome = some out)
    (hres : out.response = .ok false) {p : Put s k} (hpd : p.op.started < d.started)
    (hlast : ∀ op ∈ s.ops, op.key = k → op.request.isPut → op.started ≤ p.op.started) :
    ∃ d₀ ∈ s.deletes, d₀.key = k ∧ p.op.started < d₀.started ∧ d₀.started < d.started := by
  have ha := o.puts p.op (List.mem_of_getElem? p.mem) p.key (p.isPut sd) d hd hk hpd |>.left
  by_contra hn
  push Not at hn
  have hl : p.LastUntil d.started := by
    refine ⟨fun ho hok hput hi => ?_, hn⟩
    have := hlast _ (List.mem_of_getElem? ho) hok hput
    have := o.ops hi p.mem ho
    omega
  have := f d hd hk out hout false hres p ha ⟨hpd, hl⟩ |>.left
  contradiction

theorem IssuedInOrder.exists_newest (o : IssuedInOrder k s) (sd : Sound cfg s)
    (hd : d ∈ s.deletes) (hk : d.key = k)
    (hp : ∀ op ∈ s.ops, op.key = k → op.request.isPut → op.started < d.started) (p₀ : Put s k) :
    ∃ p : Put s k, ∀ op ∈ s.ops, op.key = k → op.request.isPut → op.started ≤ p.op.started := by
  obtain ⟨p, hmax⟩ := exists_last_put p₀
  refine ⟨p, fun op ho hok hput => ?_⟩
  obtain ⟨i, hi⟩ := List.getElem?_of_mem ho
  have ha := o.puts op ho hok hput d hd hk (hp op ho hok hput) |>.left
  obtain ⟨p', rfl, -⟩ := Put.exists_of_acked sd hi hok hput ha
  rcases Nat.lt_or_eq_of_le <| hmax p' with hlt | he
  · exact (o.ops hlt hi p.mem).le
  · rw [he, p.mem] at hi
    exact (Option.some.inj hi ▸ le_rfl)

theorem IssuedInOrder.delete_lt (o : IssuedInOrder k s) {d₀ : DeleteOp α} {i j : Nat}
    (hi : s.deletes[i]? = some d₀) (hj : s.deletes[j]? = some d) (hlt : d₀.started < d.started) :
    i < j := by
  by_contra hji
  rcases Nat.lt_or_eq_of_le <| not_lt.mp hji with hji | rfl
  · have := (o.deletes hji hj hi).left
    omega
  · rw [Option.some.inj <| hi.symm.trans hj] at hlt
    omega

theorem getLocal_eq_nil (sd : Sound cfg s) (hv : ∀ d ∈ s.deletes, DeleteOp.Valid cfg d)
    (o : IssuedInOrder k s) (f : FindsLastPut k s) (ss : StoredSince k s) (sb : SettledBefore k s)
    (hd : d ∈ s.deletes) (hk : d.key = k) (hout : d.outcome = some out)
    (hres : out.response = .ok false)
    (hp : ∀ op ∈ s.ops, op.key = k → op.request.isPut → op.started < d.started)
    (hprefs : cfg.preferenceList k = some prefs) (hr : r ∈ prefs) :
    (s.node r).getLocal k = [] := by
  refine List.eq_nil_iff_forall_not_mem.mpr fun v hmem => ?_
  obtain ⟨p₀, -⟩ := sd.around <| .stored hmem
  obtain ⟨p, hlast⟩ := o.exists_newest sd hd hk hp p₀
  have hpd := hp p.op (List.mem_of_getElem? p.mem) p.key (p.isPut sd)
  obtain ⟨d₀, hd₀, hk₀, hlt₀, hltd⟩ := exists_delete_between o f sd hd hk hout hres hpd hlast
  have hs : r ∈ d₀.executed ∨ OnlySince k r s d₀.started := by
    obtain ⟨i, hi⟩ := List.getElem?_of_mem hd₀
    obtain ⟨j, hj⟩ := List.getElem?_of_mem hd
    have he : d₀.call.prefs = prefs :=
      Option.some.inj <| (hk₀ ▸ (hv d₀ hd₀).prefs).symm.trans hprefs
    refine sb (o.delete_lt hi hj hltd) hi hj hk₀ hk (fun op ho hok hput => .inl ?_) r (he ▸ hr)
    exact (hlast op ho hok hput).trans_lt hlt₀
  obtain ⟨op, ho, hok, hov, hle⟩ := hs.elim (ss r v hmem d₀ hd₀ hk₀) (· v <| .inl hmem)
  obtain ⟨i, hi⟩ := List.getElem?_of_mem ho
  obtain ⟨w, hw, -⟩ := Option.map_eq_some_iff.mp hov
  have := hlast op ho hok <| Put.isPut sd ⟨i, op, w, hi, hok, hw⟩
  omega

theorem ReadsNotFound.mergeReplies_eq_nil (h : ReadsNotFound cfg k s) {prefs readers : List NodeId}
    (hp : cfg.preferenceList k = some prefs) (hd : readers.Nodup) (hs : readers ⊆ prefs)
    (ht : cfg.readThreshold prefs ≤ readers.length) (coord : NodeId) :
    mergeReplies (readers.map (s.answer cfg coord · k)) = [] := by
  have hv := congrArg Response.versions <| h prefs hp readers hd hs ht coord
  rw [versions_getResponse] at hv
  exact hv

theorem readsNotFound (hc : Clean k) (hn : ∀ prefs, cfg.preferenceList k = some prefs →
    ∀ r ∈ prefs, (s.node r).getLocal k = []) : ReadsNotFound cfg k s := by
  intro prefs hp readers _ hs _ coord
  have hm : mergeReplies (readers.map (s.answer cfg coord · k)) = [] := by
    refine List.eq_nil_iff_forall_not_mem.mpr fun v hv => ?_
    obtain ⟨vs, hvs, hv⟩ := mem_mergeReplies hv
    obtain ⟨r, hr, rfl⟩ := List.mem_map.mp hvs
    rw [hc.answer, hn prefs hp r (hs hr)] at hv
    contradiction
  rw [hm, getResponse]

end NotFound

abbrev UnerasedRun (k : Key) (s : State α) (l : Label α) : Prop :=
  SuccessfulWrites k s l ∧ l.CleanKey ∧ NoLateErase k s l

abbrev SettledRun (k : Key) (s : State α) (l : Label α) : Prop :=
  UnerasedRun k s l ∧ NoLateStore k s l ∧ SettledDeletes k s l

-- Deletes tell the truth where write quorums overlap, and where what earlier operations have left
-- under way does not interfere.
theorem delete_truthful (q : cfg.Quorum) (wo : cfg.WritesOverlap k) :
    (∀ s : State α, (cluster cfg α).Reachable (UnerasedRun k) s → FindsLastPut k s) ∧
    ∀ s : State α, (cluster cfg α).Reachable (SettledRun k) s → NotFoundIsGone cfg k s := by
  have finds (s : State α) (r : (cluster cfg α).Reachable (UnerasedRun k) s) : FindsLastPut k s :=
    Found.of_reachable q wo r (fun _ _ h => h.right.left) (fun _ _ h => h.left)
      (fun _ _ h => h.right.right) |>.answers
  refine ⟨finds, fun s r d hd hk out hout hres hp => ⟨by rw [hres, statusCode_deleteKey]; rfl, ?_⟩⟩
  have clean : ∀ (s : State α) l, SettledRun k s l → l.CleanKey := fun _ _ h => h.left.right.left
  have writes : ∀ (s : State α) l, SettledRun k s l → SuccessfulWrites k s l :=
    fun _ _ h => h.left.left
  have sd := Sound.of_reachable q r clean
  obtain ⟨j, hj⟩ := List.getElem?_of_mem hd
  refine readsNotFound (hk ▸ sd.clean.deletes hj) fun prefs hprefs n hn => ?_
  have sb := SettledBefore.of_reachable q r clean writes fun _ _ h => h.right.right
  exact getLocal_eq_nil sd (DeleteOp.valid_of_reachable q r) (.of_reachable q r clean writes)
    (finds s <| r.mono fun _ _ h => h.left) (.of_reachable r clean fun _ _ h => h.right.left) sb hd
    hk hout hres hp hprefs hn

end Gone

section Examples

-- The delete at `j` does not find what the put at `i` has left, which is the last operation before
-- it.
def OverlooksPut (k : Key) (s : State α) (i j : Nat) : Prop :=
  ∃ op ∈ s.ops[i]?, ∃ w ∈ op.write, ∃ d ∈ s.deletes[j]?, ∃ o ∈ d.outcome,
    (op.key = k ∧ d.key = k ∧ op.Acked ∧ o.response.toOption = some false) ∧
    op.started < d.started ∧ (∀ op' ∈ s.ops.drop (i + 1), ¬op'.request.isPut) ∧
    ∀ d' ∈ s.deletes, op.started < d'.started → d.started ≤ d'.started

instance : Decidable (OverlooksPut k s i j) :=
  inferInstanceAs (Decidable (∃ op ∈ s.ops[i]?, _))

theorem eq_ok_of_toOption {response : Response α Bool} (h : response.toOption = some b) :
    response = .ok b := by
  cases response
  case error => contradiction
  case ok    => exact congrArg Except.ok <| Option.some.inj h

theorem OverlooksPut.not_findsLastPut (h : OverlooksPut k s i j) : ¬FindsLastPut k s := by
  intro hf
  obtain ⟨op, hop, w, hw, d, hd, o, ho, ⟨hk, hdk, ha, hr⟩, ht, hp, hl⟩ := h
  let p : Put s k := ⟨i, op, w, hop, hk, hw⟩
  have hres := eq_ok_of_toOption hr
  have hlast : p.LastUntil d.started := .of_drop hp hl
  have hb := hf d (List.mem_of_getElem? hd) hdk o ho false hres p ha ⟨ht, hlast⟩ |>.left
  contradiction

instance : Decidable (Vacant k r s) :=
  decidable_of_iff ((s.node r).getLocal k = [] ∧
    s.hintedVersions k = [] ∧ s.sentVersions k = [] ∧ s.activeVersions k = [])
    (and_congr_right fun _ => State.not_coming_iff.symm)

instance : Decidable (SettledDeletes k s l) :=
  inferInstanceAs (Decidable (_ → _))

-- A put which all replicas execute.
def putAll : List (Label Nat) := [
  .invoke "a" "k" (.put 1), .read 0 "a", .read 0 "b", .readDone 0 "a" true, .readDone 0 "b" true,
  .putWrite 0 [], .deliver 0 false, .deliver 0 false, .deliver 0 false, .writeDone 0 "a" true,
  .writeDone 0 "b" true, .writeDone 0 "c" true, .putReturn 0]

-- Two deletes, and what happens between the first and the second one.
def deleteTwice (between : List (Label Nat)) (m : Nat) : List (Label Nat) :=
  [.invokeDelete "a" "k", .deliver 0 false, .deliver 0 false, .deleteDone 0 "a" true,
    .deleteDone 0 "b" true, .deleteReturn 0] ++ between ++
  [.invokeDelete "a" "k", .deliver m false, .deliver m false, .deleteDone 1 "a" true,
    .deleteDone 1 "b" true, .deleteReturn 1]

abbrev afterDeletes (ls : List (Label Nat)) (P : State Nat → Label Nat → Prop)
    [∀ s l, Decidable (P s l)] : State Nat :=
  (cluster (.ofNodes ["a", "b", "c"] 3 2 2) Nat).after P .initial (putAll ++ ls)

-- Nothing is stored after a delete.
def NoStore (s : State α) (l : Label α) : Prop :=
  ∀ m ∈ s.delivered l, ∀ x ∈ m.stored, ∀ d ∈ s.deletes, x.1 ∉ d.executed

instance : Decidable (NoStore s l) :=
  inferInstanceAs (Decidable (∀ m ∈ s.delivered l, _))

theorem NoStore.noLateStore (h : NoStore s l) : NoLateStore k s l :=
  fun m hm x hx _ d hd _ hr => absurd hr <| h m hm x hx d hd

set_option maxRecDepth 100000 in
theorem writesOverlap_three : Config.WritesOverlap (.ofNodes ["a", "b", "c"] 3 2 2) "k" := by
  intro prefs hp
  cases hp.symm.trans (by decide : _ = some ["a", "b", "c"])
  decide

set_option maxRecDepth 100000 in
theorem delete_truthful_three : ∃ s s' : State Nat,
    (∃ d ∈ s.deletes[0]?, ∃ o ∈ d.outcome, o.response.toOption = some true) ∧ FindsLastPut "k" s ∧
    (∃ d ∈ s'.deletes[1]?, ∃ o ∈ d.outcome, o.response.toOption = some false) ∧
      NotFoundIsGone (.ofNodes ["a", "b", "c"] 3 2 2) "k" s' := by
  have t := delete_truthful (α := Nat) (k := "k") (by decide) writesOverlap_three
  let s := afterDeletes (deleteTwice [.deliver 0 false] 0) (UnerasedRun "k")
  let s' := afterDeletes (deleteTwice [.deliver 0 false] 0)
    fun s l => UnerasedRun "k" s l ∧ NoStore s l ∧ SettledDeletes "k" s l
  have r : (cluster (.ofNodes ["a", "b", "c"] 3 2 2) Nat).Reachable (SettledRun "k") s' :=
    TransitionSystem.Reachable.mono (.after rfl _) fun _ _ h =>
      ⟨h.left, h.right.left.noLateStore, h.right.right⟩
  exact ⟨s, s', by decide, t.left s (.after rfl _), by decide, t.right s' r⟩

-- With W = 1, only "a" executes the put, and the delete counts the answer of "b".
def putThenDelete : List (Label Nat) := [
  .invoke "a" "k" (.put 1), .read 0 "a", .read 0 "b", .read 0 "c", .readDone 0 "a" true,
  .readDone 0 "b" true, .readDone 0 "c" true, .putWrite 0 [], .deliver 0 false,
  .writeDone 0 "a" true, .putReturn 0, .invokeDelete "a" "k", .deliver 3 false,
  .deleteDone 0 "b" true, .deleteReturn 0]

-- The first delete only reaches "c" after "c" has acknowledged the second put, and "b" misses that.
def deleteThenPutThenDelete : List (Label Nat) := [
  .invokeDelete "a" "k", .deliver 0 false, .deliver 0 false, .deleteDone 0 "a" true,
  .deleteDone 0 "b" true, .deleteReturn 0,
  .invoke "a" "k" (.put 2), .read 1 "a", .read 1 "b", .readDone 1 "a" true, .readDone 1 "b" true,
  .putWrite 1 [], .deliver 1 false, .deliver 2 false, .writeDone 1 "a" true, .writeDone 1 "c" true,
  .putReturn 1, .deliver 0 false,
  .invokeDelete "a" "k", .deliver 2 false, .deliver 2 false, .deleteDone 1 "b" true,
  .deleteDone 1 "c" true, .deleteReturn 1]

set_option maxRecDepth 100000 in
-- A late delete hides a put even where write quorums overlap.
theorem not_findsLastPut : ¬∀ (cfg : Config) (k : Key) (s : State Nat), cfg.Quorum →
    cfg.WritesOverlap k → (cluster cfg Nat).Reachable (SuccessfulWrites k) s →
      FindsLastPut k s := by
  intro h
  let s := afterDeletes deleteThenPutThenDelete (SuccessfulWrites "k")
  have ho : OverlooksPut "k" s 1 1 := by decide
  exact ho.not_findsLastPut <| h _ "k" s (by decide) writesOverlap_three (.after rfl _)

set_option maxRecDepth 100000 in
theorem not_delete_truthful :
    (¬∀ (cfg : Config) (k : Key) (s : State Nat), cfg.Quorum →
      (cluster cfg Nat).Reachable (SuccessfulWrites k) s → FindsLastPut k s) ∧
    ¬∀ (cfg : Config) (k : Key) (s : State Nat), cfg.Quorum →
      (cluster cfg Nat).Reachable (SuccessfulWrites k) s → NotFoundIsGone cfg k s := by
  constructor
  case left =>
    intro h
    let s := (cluster (.ofNodes ["a", "b", "c"] 3 3 1) Nat).after (SuccessfulWrites "k") .initial
      putThenDelete
    have ho : OverlooksPut "k" s 0 0 := by decide
    exact ho.not_findsLastPut <| h _ "k" s (by decide) (.after rfl _)
  case right =>
    intro h
    let s := afterDeletes (deleteTwice [] 1) (SuccessfulWrites "k")
    have hg := h _ "k" s (by decide) (.after rfl _)
    obtain ⟨d, hd, o, ho, hk, hr, hp⟩ : ∃ d ∈ s.deletes[1]?, ∃ o ∈ d.outcome, d.key = "k" ∧
        o.response.toOption = some false ∧
        ∀ op ∈ s.ops, op.key = "k" → op.request.isPut → op.started < d.started := by
      decide
    have hn := hg d (List.mem_of_getElem? hd) hk o ho (eq_ok_of_toOption hr) hp |>.right
    have hs : ["b", "c"] ⊆ ["a", "b", "c"] := by decide
    have hm := hn.mergeReplies_eq_nil (by decide) (by decide) hs (by decide) "a"
    have hne : mergeReplies (["b", "c"].map
      (s.answer (.ofNodes ["a", "b", "c"] 3 2 2) "a" · "k")) ≠ [] := by decide
    exact hne hm

end Examples
end DynamoKV
