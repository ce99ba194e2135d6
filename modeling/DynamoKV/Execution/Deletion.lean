import DynamoKV.Execution.Theorems.Overlap

-- What gets see of a key after it was deleted. Deletes keep no tombstones, are not hinted, and are
-- not repeated where they fail.
namespace DynamoKV

variable {α : Type} {cfg : Config} {s s' : State α} {l : Label α} {k : Key}

namespace DeleteOp

def ReturnedBy (d : DeleteOp α) (time : Nat) : Prop :=
  ∃ o, d.outcome = some o ∧ o.time < time

-- The replicas which have executed the delete.
def executed (d : DeleteOp α) : List NodeId :=
  d.call.handled.map Prod.fst

-- The replicas whose acknowledgements count.
def acks (cfg : Config) (d : DeleteOp α) : List NodeId :=
  d.call.successes (cfg.writeThreshold d.call.prefs) |>.map Prod.fst

end DeleteOp

namespace Op

-- The replicas which have answered the read of the operation.
def answered (op : Op α) : List NodeId :=
  op.read.handled.map Prod.fst

-- The replicas whose answers count.
def counted (cfg : Config) (op : Op α) : List NodeId :=
  op.read.successes (cfg.readThreshold op.prefs) |>.map Prod.fst

end Op

section Conditions

-- The get `g` is issued after the delete `d` was acknowledged, and reaches its read quorum. No put
-- of the key is issued after the delete has returned, at least not before the get has.
structure AfterDelete (k : Key) (s : State α) (j i : Nat) (d : DeleteOp α) (g : Op α)
    (o : Outcome α (Version α)) : Prop where
  delete  : s.deletes[j]? = some d
  get     : s.ops[i]? = some g
  deleted : d.key = k
  key     : g.key = k
  request : g.request = .get
  outcome : g.outcome = some o
  reached : o.response ≠ .error (.readQuorum k)
  acked   : d.Acked
  before  : d.ReturnedBy g.started
  puts    : ∀ op ∈ s.ops, op.key = k → op.request.isPut → d.ReturnedBy op.started →
    o.time ≤ op.started

-- The message stores a version of the key at a replica.
def Message.Writes (r : NodeId) (k : Key) : Message α → Prop
  | .put _ dest (some key) _ | .flush _ dest _ (some key) _ => dest = r ∧ key = k
  | _                                                        => False

instance {m : Message α} : Decidable (m.Writes r k) :=
  match m with
  | .put _ _ (some _) _ | .flush _ _ _ (some _) _ => inferInstanceAs (Decidable (_ ∧ _))
  | .put _ _ none _ | .flush _ _ _ none _ | .delete _ _ _ | .hint _ _ _ _ | .flushed _ _ _ =>
    inferInstanceAs (Decidable False)

-- The operation which a replica answers, and the replica.
def Label.answers : Label α → Option (Nat × NodeId)
  | .read i r => some (i, r)
  | _         => none

-- These replicas execute the delete at `j` before they answer the get at `i`, and no replica write
-- and no hint of the key reaches them in between.
structure Undisturbed (replicas : List NodeId) (k : Key) (j i : Nat) (s : State α) (l : Label α) :
    Prop where
  answers : ∀ r ∈ replicas, l.answers = some (i, r) → ∃ d ∈ s.deletes[j]?, r ∈ d.executed
  stores  : ∀ r ∈ replicas, (∃ d ∈ s.deletes[j]?, r ∈ d.executed) →
    (∀ g ∈ s.ops[i]?, r ∉ g.answered) → ∀ m ∈ s.delivered l, ¬m.Writes r k

instance : Decidable (Undisturbed replicas k j i s l) :=
  decidable_of_iff ((∀ r ∈ replicas, l.answers = some (i, r) →
        ∃ d ∈ s.deletes[j]?, r ∈ d.executed) ∧
      ∀ r ∈ replicas, (∃ d ∈ s.deletes[j]?, r ∈ d.executed) →
        (∀ g ∈ s.ops[i]?, r ∉ g.answered) → ∀ m ∈ s.delivered l, ¬m.Writes r k)
    ⟨fun ⟨h₁, h₂⟩ => ⟨h₁, h₂⟩, fun ⟨h₁, h₂⟩ => ⟨h₁, h₂⟩⟩

end Conditions

section Deletes

-- What is known of a delete.
structure DeleteOp.Valid (cfg : Config) (d : DeleteOp α) : Prop where
  prefs : cfg.preferenceList d.key = some d.call.prefs
  acked : d.Acked → d.call.Reached (cfg.writeThreshold d.call.prefs)

theorem DeleteOp.response_eq_ok {d : DeleteOp α} (h : d.response cfg = .ok existed) :
    d.call.Reached (cfg.writeThreshold d.call.prefs) := by
  simp only [response] at h
  split at h
  case isTrue hr => exact hr
  case isFalse   => contradiction

theorem DeleteOp.Valid.step (q : cfg.Quorum) (v : DeleteOp.Valid cfg d)
    (e : DeleteStep cfg s l i d d') : DeleteOp.Valid cfg d' := by
  have prefs : cfg.preferenceList d'.key = some d'.call.prefs := by
    rw [e.key, e.call.prefs]
    exact v.prefs
  refine ⟨prefs, fun ⟨o, ho, b, hb⟩ => ?_⟩
  have kept (h : d.Acked) : d'.call.Reached (cfg.writeThreshold d'.call.prefs) := by
    rw [e.call.prefs]
    exact e.call.reached (writeThreshold_pos q v.prefs) (v.acked h)
  cases e
  case deleteReturn hf =>
    cases ho
    exact response_eq_ok hb
  all_goals exact kept ⟨o, ho, b, hb⟩

theorem DeleteOp.valid_of_reachable {P : State α → Label α → Prop} (q : cfg.Quorum)
    (r : (cluster cfg α).Reachable P s) : ∀ d ∈ s.deletes, DeleteOp.Valid cfg d := by
  refine r.invariant (I := fun s => ∀ d ∈ s.deletes, DeleteOp.Valid cfg d)
    (fun s hs => ?init) fun s l s' _ _ h hv => ?step
  case init =>
    subst hs
    simp [State.initial]
  case step =>
    intro d' hd'
    obtain ⟨i, hi⟩ := List.getElem?_of_mem hd'
    rcases deleteStep_or_started h hi with ⟨d, hd, e⟩ | hs
    · exact (hv d <| List.mem_of_getElem? hd).step q e
    · obtain ⟨prefs, hp, hc⟩ := hs.call
      refine ⟨by rw [hc]; exact hp, fun ha => ?_⟩
      have := ha.returned
      simp [DeleteOp.Returned, hs.outcome] at this

-- Each delete of the key has returned before the next put of it is issued.
structure SerialDeletes (k : Key) (s : State α) : Prop where
  returned : ∀ d ∈ s.deletes, ∀ o ∈ d.outcome, o.time < s.time
  order    : ∀ op ∈ s.ops, op.key = k → op.request.isPut → ∀ d ∈ s.deletes, d.key = k →
    op.started < d.started ∨ d.ReturnedBy op.started

theorem SerialDeletes.step_order (sr : SerialDeletes k s) (sd : Sound cfg s)
    (hw : SerialWrites k s l) (h : step cfg s l = some s') :
    ∀ op ∈ s'.ops, op.key = k → op.request.isPut → ∀ d ∈ s'.deletes, d.key = k →
      op.started < d.started ∨ d.ReturnedBy op.started := by
  intro op' hop hk hp d' hdel hdk
  obtain ⟨i, hi⟩ := List.getElem?_of_mem hop
  obtain ⟨j, hj⟩ := List.getElem?_of_mem hdel
  rcases opStep_or_started h hi with ⟨op, ho, e⟩ | hs <;>
    rcases deleteStep_or_started h hj with ⟨d, hd, ed⟩ | hds
  · rw [e.started, ed.started]
    rw [e.key] at hk
    rw [e.request] at hp
    rw [ed.key] at hdk
    rcases sr.order op (List.mem_of_getElem? ho) hk hp d (List.mem_of_getElem? hd) hdk with
      ht | ⟨o, hout, ht⟩
    · exact .inl ht
    · exact .inr ⟨o, ed.outcome hout, ht⟩
  · rw [e.started, hds.time]
    exact .inl (sd.valid ho).started
  · have hl : l.startsWrite = some k := by
      rw [hs.label]
      cases hq : op'.request
      case get   => simp [hq, Request.isPut] at hp
      case put _ => exact congrArg some hk
    have hret := (hw hl).right d (List.mem_of_getElem? hd) (ed.key ▸ hdk)
    obtain ⟨o, hout⟩ := Option.isSome_iff_exists.mp hret
    exact .inr ⟨o, ed.outcome hout, hs.time ▸ sr.returned d (List.mem_of_getElem? hd) o hout⟩
  · have := hs.label.symm.trans hds.label
    contradiction

theorem SerialDeletes.of_reachable {P : State α → Label α → Prop} (q : cfg.Quorum)
    (r : (cluster cfg α).Reachable P s) (hc : ∀ s l, P s l → l.CleanKey)
    (hw : ∀ s l, P s l → SerialWrites k s l) : SerialDeletes k s := by
  refine r.invariant (fun s hs => ?init) fun s l s' r hp h sr => ?step
  case init =>
    subst hs
    constructor <;> simp [State.initial]
  case step =>
    refine ⟨fun d' hd' o ho => ?_, sr.step_order (.of_reachable q r hc) (hw s l hp) h⟩
    obtain ⟨j, hj⟩ := List.getElem?_of_mem hd'
    rw [time_step h]
    rcases deleteStep_or_started h hj with ⟨d, hd, e⟩ | hs
    · rcases e.outcome_of ho with ho | ⟨_, ht⟩
      · exact (sr.returned d (List.mem_of_getElem? hd) o ho).trans (Nat.lt_succ_self _)
      · exact ht ▸ Nat.lt_succ_self _
    · simp [hs.outcome] at ho

end Deletes

section Erased

theorem OpStep.unanswered_of {op op' : Op α} (e : OpStep cfg s l i op op')
    (h : x ∈ op'.read.handled) : x ∈ op.read.handled ∨
      l = .read i x.1 ∧ x.1 ∉ op.answered ∧ x.2 = s.answer cfg op.coord x.1 op.key := by
  cases e
  case read r hr =>
    by_cases ha : r ∈ op.answered
    case pos =>
      simp only [Op.handleRead, QuorumCall.handle] at h
      rw [if_pos (show r ∈ op.read.handled.map Prod.fst from ha)] at h
      exact .inl h
    case neg =>
      refine (QuorumCall.mem_handled_handle h).imp_right fun hx => ?_
      subst hx
      exact ⟨rfl, ha, rfl⟩
  case readDone => exact .inl <| by simpa [Op.completeRead] using h
  all_goals exact .inl h

theorem OpStep.answered_subset {op op' : Op α} (e : OpStep cfg s l i op op') :
    op.answered ⊆ op'.answered :=
  List.map_subset _ e.read'.handled

-- A message which stores nothing adds nothing to an empty entry.
theorem Message.store_nil {m : Message α} (h : ¬m.Writes r k) : m.store r k [] = [] := by
  unfold Message.store
  split
  case h_1 | h_2 => exact if_neg h
  case h_3       => exact ite_self _
  case h_4       => rfl

-- The replicas store nothing from their execution of the delete until their answer to the get, so
-- that they answer with nothing.
structure Erased (replicas : List NodeId) (k : Key) (j i : Nat) (s : State α) : Prop where
  stored  : ∀ d ∈ s.deletes[j]?, d.key = k → ∀ r ∈ replicas, r ∈ d.executed →
    (∀ g ∈ s.ops[i]?, r ∉ g.answered) → (s.node r).getLocal k = []
  replies : ∀ g ∈ s.ops[i]?, g.key = k → ∀ x ∈ g.read.handled, x.1 ∈ replicas →
    ∃ d ∈ s.deletes[j]?, d.key = k → x.2 = []

variable {replicas : List NodeId} {j i : Nat}

theorem Erased.initial : Erased replicas k j i (State.initial : State α) where
  stored d hd := by simp [State.initial] at hd
  replies g hg := by simp [State.initial] at hg

theorem Erased.step (er : Erased replicas k j i s) (c : CleanState s)
    (hu : Undisturbed replicas k j i s l) (h : DynamoKV.step cfg s l = some s') :
    Erased replicas k j i s' := by
  refine ⟨?stored, ?replies⟩
  case stored =>
    intro d' hd' hk r hr he hn
    have unanswered : ∀ g ∈ s.ops[i]?, r ∉ g.answered := by
      intro g hg ha
      obtain ⟨g', hg', eg⟩ := exists_opStep h hg
      exact hn g' hg' <| eg.answered_subset ha
    rw [getLocal_step h]
    rcases deleteStep_or_started h hd' with ⟨d, hd, e⟩ | hs
    case inr =>
      obtain ⟨_, _, hc⟩ := hs.call
      simp [DeleteOp.executed, hc, QuorumCall.submit] at he
    obtain ⟨x, hx, rfl⟩ := List.mem_map.mp he
    rcases e.handled_of hx with hx | ⟨key, hm⟩
    · have hex : x.1 ∈ d.executed := List.mem_map_of_mem hx
      rw [er.stored d hd (e.key ▸ hk) x.1 hr hex unanswered]
      cases hm : s.delivered l
      case none   => rfl
      case some m => exact m.store_nil <| hu.stores x.1 hr ⟨d, hd, hex⟩ unanswered m hm
    · obtain ⟨d₀, hd₀, hkey⟩ := c.delete <| mem_net_of_delivered hm
      obtain rfl : d = d₀ := Option.some.inj <| hd.symm.trans hd₀
      rw [hm, hkey, ← e.key, hk]
      exact if_pos ⟨rfl, rfl⟩
  case replies =>
    intro g' hg' hk x hx hr
    rcases opStep_or_started h hg' with ⟨g, hg, e⟩ | hs
    case inr =>
      obtain ⟨_, _, hread⟩ := hs.read
      simp [hread, QuorumCall.submit] at hx
    have hk : g.key = k := e.key ▸ hk
    obtain ⟨d, hd, hn⟩ : ∃ d ∈ s.deletes[j]?, d.key = k → x.2 = [] := by
      rcases e.unanswered_of hx with hx | ⟨hl, ha, hx⟩
      · exact er.replies g hg hk x hx hr
      · obtain ⟨d, hd, he⟩ := hu.answers x.1 hr (hl ▸ rfl)
        refine ⟨d, hd, fun hdk => ?_⟩
        rw [hx, (c.ops hg).answer, hk]
        exact er.stored d hd hdk x.1 hr he fun g₀ hg₀ => Option.some.inj (hg.symm.trans hg₀) ▸ ha
    obtain ⟨d', hd', ed⟩ := exists_deleteStep h hd
    exact ⟨d', hd', fun hdk => hn <| ed.key ▸ hdk⟩

theorem Erased.of_reachable {P : State α → Label α → Prop} (r : (cluster cfg α).Reachable P s)
    (hc : ∀ s l, P s l → l.CleanKey) (hu : ∀ s l, P s l → Undisturbed replicas k j i s l) :
    Erased replicas k j i s := by
  have inv := r.invariant (I := fun s => CleanState s ∧ Erased replicas k j i s)
    (fun s hs => hs ▸ ⟨.initial, .initial⟩) fun s l s' _ hp h ⟨c, er⟩ =>
      ⟨c.step (hc s l hp) h, er.step c (hu s l hp) h⟩
  exact inv.right

end Erased

section Gets

-- What a get may see of a key after it was deleted. The given replicas have executed the delete and
-- got nothing since.
structure SeesDelete (cfg : Config) (replicas : List NodeId) (k : Key) (s : State α) (j i : Nat) :
    Prop where
  overlap : AfterDelete k s j i d g o → ∃ r ∈ g.counted cfg, r ∈ d.acks cfg
  origin  : AfterDelete k s j i d g o → v ∈ o.response.versions →
    ∃ p : Put s k, p.version = v ∧ p.op.started < d.started
  absent  : AfterDelete k s j i d g o → g.counted cfg ⊆ replicas →
    o.response = .error (.notFound k)

theorem AfterDelete.read (a : AfterDelete k s j i d g o) (sd : Sound cfg s) :
    g.read.Reached (cfg.readThreshold g.prefs) ∧
      o.response = getResponse k (mergeReplies <| g.replies cfg) := by
  have hp : ¬g.request.isPut := by simp [a.request, Request.isPut]
  obtain ⟨hr, he⟩ := ((sd.valid a.get).answered a.outcome).get hp
    |>.resolve_left fun h => a.reached (a.key ▸ h.left)
  exact ⟨hr, a.key ▸ he⟩

-- Some answer that counts comes from a replica whose acknowledgement counts.
theorem AfterDelete.exists_overlap (a : AfterDelete k s j i d g o) (q : cfg.Quorum)
    (sd : Sound cfg s) (hv : ∀ d ∈ s.deletes, DeleteOp.Valid cfg d) :
    ∃ r ∈ g.counted cfg, r ∈ d.acks cfg := by
  have v := hv d <| List.mem_of_getElem? a.delete
  have hp : cfg.preferenceList k = some g.prefs := a.key ▸ (sd.valid a.get).prefs
  have hd : d.call.prefs = g.prefs := Option.some.inj <| (a.deleted ▸ v.prefs).symm.trans hp
  have hack := v.acked a.acked
  unfold Op.counted DeleteOp.acks
  rw [hd] at hack ⊢
  obtain ⟨x, hx, hxd⟩ := (a.read sd).left.exists_overlap hack (List.Subset.refl _)
    (hd ▸ List.Subset.refl _) (length_lt_thresholds q hp)
  exact ⟨x.1, List.mem_map_of_mem hx, hxd⟩

theorem AfterDelete.exists_put (a : AfterDelete k s j i d g o) (sd : Sound cfg s)
    (hs : SerialDeletes k s) (hv : v ∈ o.response.versions) :
    ∃ p : Put s k, p.version = v ∧ p.op.started < d.started := by
  have hp : ¬g.request.isPut := by simp [a.request, Request.isPut]
  obtain ⟨p, hpv, ht⟩ : ∃ p : Put s k, p.version = v ∧ p.op.started < o.time :=
    a.key ▸ sd.seen a.get a.outcome hp hv
  have hm := List.mem_of_getElem? p.mem
  have hput := p.isPut sd
  refine ⟨p, hpv, hs.order p.op hm p.key hput d (List.mem_of_getElem? a.delete) a.deleted
    |>.resolve_right fun hr => ?_⟩
  have := a.puts p.op hm p.key hput hr
  omega

theorem seesDelete_of_undisturbed (q : cfg.Quorum) (replicas : List NodeId) (j i : Nat)
    (r : (cluster cfg α).Reachable
      (fun s l => SuccessfulWrites k s l ∧ l.CleanKey ∧ Undisturbed replicas k j i s l) s) :
    SeesDelete cfg replicas k s j i := by
  have sd := Sound.of_reachable q r fun _ _ h => h.right.left
  constructor
  case overlap => exact fun a => a.exists_overlap q sd <| DeleteOp.valid_of_reachable q r
  case origin  =>
    exact fun a => a.exists_put sd <| .of_reachable q r (fun _ _ h => h.right.left)
      fun _ _ h => h.left.serialWrites
  case absent  =>
    intro d g o a hc
    have er : Erased replicas k j i s :=
      .of_reachable r (fun _ _ h => h.right.left) fun _ _ h => h.right.right
    have ⟨_, hresp⟩ := a.read sd
    have hn : mergeReplies (g.replies cfg) = [] := by
      refine List.eq_nil_iff_forall_not_mem.mpr fun v hv => ?_
      have ⟨vs, hvs, hv⟩ := mem_mergeReplies hv
      obtain ⟨x, hx, rfl⟩ := List.mem_map.mp hvs
      have ⟨d₀, hd₀, he⟩ := er.replies g a.get a.key x (QuorumCall.handled_of_mem_successes hx) <|
        hc <| List.mem_map_of_mem hx
      obtain rfl : d = d₀ := Option.some.inj <| a.delete.symm.trans hd₀
      rw [he a.deleted] at hv
      contradiction
    rw [hresp, hn]
    rfl

-- A put which all replicas execute, a delete which "c" misses, and a get which the given replica
-- and "b" answer.
def deleteThenGet (replica : NodeId) : List (Label Nat) := [
  .invoke "a" "k" (.put 1), .read 0 "a", .read 0 "b", .readDone 0 "a" true, .readDone 0 "b" true,
  .putWrite 0 [], .deliver 0 false, .deliver 0 false, .deliver 0 false, .writeDone 0 "a" true,
  .writeDone 0 "b" true, .writeDone 0 "c" true, .putReturn 0,
  .invokeDelete "a" "k", .deliver 0 false, .deliver 0 false, .deleteDone 0 "a" true,
  .deleteDone 0 "b" true, .deleteReturn 0,
  .invoke "b" "k" .get, .read 1 replica, .read 1 "b", .readDone 1 replica true,
  .readDone 1 "b" true, .getReturn 1]

abbrev afterDeleteThenGet (replica : NodeId) (P : State Nat → Label Nat → Prop)
    [∀ s l, Decidable (P s l)] : State Nat :=
  (cluster (.ofNodes ["a", "b", "c"] 3 2 2) Nat).after P .initial (deleteThenGet replica)

set_option maxRecDepth 100000 in
theorem seesDelete_of_undisturbed_three :
    ∃ s : State Nat, (∃ g ∈ s.ops[1]?, ∃ o ∈ g.outcome, o.response.statusCode = 404) ∧
      SeesDelete (.ofNodes ["a", "b", "c"] 3 2 2) ["a", "b"] "k" s 0 1 :=
  ⟨afterDeleteThenGet "a" fun s l => SuccessfulWrites "k" s l ∧ l.CleanKey ∧
      Undisturbed ["a", "b"] "k" 0 1 s l,
    by decide, seesDelete_of_undisturbed (by decide) _ _ _ (.after rfl _)⟩

-- The get also counts the answer of "c", which has not executed the delete.
set_option maxRecDepth 100000 in
theorem not_seesDelete : ¬∀ (cfg : Config) (k : Key) (s : State Nat), cfg.Quorum →
    (cluster cfg Nat).Reachable (SuccessfulWrites k) s →
      ∀ j i d g o, AfterDelete k s j i d g o → o.response = .error (.notFound k) := by
  intro h
  let s := afterDeleteThenGet "c" (SuccessfulWrites "k")
  have ⟨d, hd, g, hg, o, ho, ⟨hdk, hgk, hget, hs⟩, ha, ⟨o', ho', ht⟩, hp⟩ : ∃ d ∈ s.deletes[0]?,
      ∃ g ∈ s.ops[1]?, ∃ o ∈ g.outcome,
        (d.key = "k" ∧ g.key = "k" ∧ ¬g.request.isPut ∧ o.response.statusCode = 200) ∧
        d.Acked ∧ (∃ o' ∈ d.outcome, o'.time < g.started) ∧
        ∀ op ∈ s.ops, op.request.isPut → ∀ o' ∈ d.outcome, op.started ≤ o'.time := by
    decide
  have hne : o.response ≠ .error (.readQuorum "k") := fun he => by
    simp [he, Response.statusCode, HTTPException.readQuorum] at hs
  have puts (op : Op Nat) (hm : op ∈ s.ops) (_ : op.key = "k") (hput : op.request.isPut)
      (hr : d.ReturnedBy op.started) : o.time ≤ op.started := by
    obtain ⟨o', ho', hlt⟩ := hr
    exact absurd hlt (hp op hm hput o' ho').not_gt
  have a : AfterDelete "k" s 0 1 d g o :=
    ⟨hd, hg, hdk, hgk, Request.eq_get hget, ho, hne, ha, ⟨o', ho', ht⟩, puts⟩
  have he := h _ "k" s (by decide) (.after rfl _) 0 1 d g o a
  simp [he, Response.statusCode, HTTPException.notFound] at hs

end Gets
end DynamoKV
