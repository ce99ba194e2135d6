import DynamoKV.Objects.Gossip
import DynamoKV.Objects.HintStore

-- A gossip round of a node: an exchange with one peer, and then the delivery of the hints which are
-- held for peers that are not believed to be down.
namespace DynamoKV.GossipRound

-- A PUT is answered with a status, fails with an httpx.HTTPError, or raises another exception while
-- the request is being built.
inductive PutOutcome
  | status (code : Nat)
  | httpError
  | raised
deriving DecidableEq

-- The version with the given index among the siblings which are pending for a target under a key.
structure Attempt (α : Type) where
  target  : NodeId
  key     : Key
  index   : Nat
  version : Version α

-- Exceptions which are not handled end a round. The PUTs which were made are recorded.
structure Round (α : Type) where
  hintStore : HintStore α
  attempted : List (Attempt α)
  raised    : Bool

-- The body of a response with status 200: a table, or something else, of which the entries in
-- `merged` can be merged before an exception is raised.
inductive Body
  | table (table : Heartbeats)
  | malformed (merged : Heartbeats)

inductive PostOutcome
  | ok (body : Body)
  | status (code : Nat)
  | httpError
  | raised

variable {α : Type}

-- An iteration of the loop over the siblings, which is not reached after an exception.
def put (outcome : Attempt α → PutOutcome) (r : Round α) (a : Attempt α) : Round α :=
  if r.raised then r
  else
    let r := { r with attempted := r.attempted ++ [a] }
    match outcome a with
    | .status code =>
      if code = 200 then { r with hintStore := r.hintStore.clearKey a.target a.key } else r
    | .httpError   => r
    | .raised      => { r with raised := true }

def flushKey (outcome : Attempt α → PutOutcome) (target : NodeId) (r : Round α)
    (pending : Key × List (Version α)) : Round α :=
  pending.2.zipIdx.foldl
    (fun r (version, index) => put outcome r ⟨target, pending.1, index, version⟩) r

-- `_flush_hints_for`
def flushHintsFor (outcome : Attempt α → PutOutcome) (r : Round α) (target : NodeId) : Round α :=
  if r.raised then r
  else (r.hintStore.pendingFor target).foldl (flushKey outcome target) r

-- The table after the exchange, and whether an exception was raised that is not an httpx.HTTPError.
def exchange (g : GossipState) (now : ℚ) : PostOutcome → GossipState × Bool
  | .ok (.table table)      => (g.mergeWire table now, false)
  | .ok (.malformed merged) => (g.mergeWire merged now, true)
  | .status _ | .httpError  => (g, false)
  | .raised                 => (g, true)

-- What a node brings to a round. The peer to gossip with only matters for the outcome of the
-- exchange.
structure Setting (α : Type) where
  gossip    : GossipState
  hintStore : HintStore α
  peers     : List NodeId
  timeout   : ℚ
  distinct  : peers.Nodup

-- The clock is read for the tick, for the merge, and for the flushes.
structure Times where
  tick  : ℚ
  merge : ℚ
  flush : ℚ

def exchanged (s : Setting α) (post : PostOutcome) (t : Times) : GossipState × Bool :=
  let g := s.gossip.tick t.tick
  if s.peers = [] then (g, false) else exchange g t.merge post

-- The peers which are not believed to be down after the exchange.
def livePeers (s : Setting α) (post : PostOutcome) (t : Times) : List NodeId :=
  s.peers.filter fun p => !(exchanged s post t).1.believedDown p t.flush s.timeout

-- `gossip_round`
def gossipRound (s : Setting α) (post : PostOutcome) (outcome : Attempt α → PutOutcome)
    (t : Times) : Round α :=
  (livePeers s post t).foldl (flushHintsFor outcome) ⟨s.hintStore, [], (exchanged s post t).2⟩

-- The PUTs of one flush in their order.
def schedule (hintStore : HintStore α) (target : NodeId) : List (Attempt α) :=
  (hintStore.pendingFor target).flatMap fun (key, versions) =>
    versions.zipIdx.map fun (version, index) => ⟨target, key, index, version⟩

-- The PUTs of a sequence which are made before an exception ends it, and the one which raises it.
def made (outcome : Attempt α → PutOutcome) (as : List (Attempt α)) : List (Attempt α) :=
  as.takeWhile (outcome · ≠ .raised) ++ (as.dropWhile (outcome · ≠ .raised)).take 1

section Put

variable {outcome : Attempt α → PutOutcome} {r : Round α} {as : List (Attempt α)} {a : Attempt α}

theorem foldl_put_of_raised (h : r.raised) (as : List (Attempt α)) :
    as.foldl (put outcome) r = r := by
  induction as
  case nil           => rfl
  case cons a as hi  => rw [List.foldl_cons, put, if_pos h, hi]

theorem put_of_not_raised (outcome : Attempt α → PutOutcome) (a : Attempt α) (h : ¬r.raised) :
    (put outcome r a).attempted = r.attempted ++ [a] ∧
    ((put outcome r a).raised ↔ outcome a = .raised) ∧
    (put outcome r a).hintStore =
      if outcome a = .status 200 then r.hintStore.clearKey a.target a.key else r.hintStore := by
  simp only [put, if_neg h]
  cases outcome a
  case status code => by_cases hc : code = 200 <;> simp [hc, h]
  case httpError   => simp [h]
  case raised      => simp

@[simp]
theorem made_cons_of_raised (h : outcome a = .raised) : made outcome (a :: as) = [a] := by
  simp [made, h]

@[simp]
theorem made_cons_of_not_raised (h : outcome a ≠ .raised) :
    made outcome (a :: as) = a :: made outcome as := by
  simp [made, h]

theorem attempted_foldl_put (h : ¬r.raised) :
    (as.foldl (put outcome) r).attempted = r.attempted ++ made outcome as := by
  induction as generalizing r
  case nil => simp [made]
  case cons a as hi =>
    have ⟨ha, hr, _⟩ := put_of_not_raised outcome a h
    by_cases ho : outcome a = .raised
    case pos => simp [foldl_put_of_raised (hr.mpr ho), ha, ho]
    case neg => simp [hi (mt hr.mp ho), ha, ho]

-- Keys of which a PUT was answered with 200 are cleared, and nothing else is changed.
theorem load_foldl_put (h : ¬r.raised) (t : NodeId) (k : Key) :
    ((as.foldl (put outcome) r).hintStore.load t).lookup k =
      if ∃ a ∈ made outcome as, a.target = t ∧ a.key = k ∧ outcome a = .status 200 then none
      else (r.hintStore.load t).lookup k := by
  induction as generalizing r
  case nil => simp [made]
  case cons a as hi =>
    have ⟨_, hr, hs⟩ := put_of_not_raised outcome a h
    by_cases ho : outcome a = .raised
    case pos => simp [foldl_put_of_raised (hr.mpr ho), hs, ho]
    case neg =>
      rw [List.foldl_cons, hi (mt hr.mp ho), made_cons_of_not_raised ho, hs]
      simp only [List.mem_cons, exists_eq_or_imp]
      by_cases he : ∃ a ∈ made outcome as, a.target = t ∧ a.key = k ∧ outcome a = .status 200
      case pos => simp only [he, or_true, if_true]
      case neg =>
        simp only [he, or_false, if_false]
        by_cases hc : outcome a = .status 200
        case neg => simp [hc]
        case pos =>
          simp only [hc, and_true, if_true]
          by_cases ht : a.target = t
          case neg => simp [ht, HintStore.load_clearKey_of_ne (Ne.symm ht)]
          case pos =>
            subst ht
            rw [HintStore.load_clearKey_self]
            by_cases hk : a.key = k
            case pos => simp [hk]
            case neg => simp [hk, AList.lookup_erase_ne (Ne.symm hk)]

theorem load_foldl_put_of_ne (h : ∀ a ∈ as, a.target ≠ t) :
    (as.foldl (put outcome) r).hintStore.load t = r.hintStore.load t := by
  induction as generalizing r
  case nil => rfl
  case cons a as hi =>
    rw [List.foldl_cons, hi fun a ha => h a <| .tail _ ha]
    by_cases hr : r.raised
    case pos => rw [put, if_pos hr]
    case neg =>
      rw [(put_of_not_raised outcome a hr).right.right]
      split
      case isTrue  => exact HintStore.load_clearKey_of_ne <| (h a <| .head _).symm
      case isFalse => rfl

end Put

section Schedule

variable {outcome : Attempt α → PutOutcome} {r : Round α} {hintStore : HintStore α}
variable {target : NodeId}

-- The nested loops make the PUTs of the schedule one after another.
theorem flushHintsFor_eq : flushHintsFor outcome r target =
    (schedule r.hintStore target).foldl (put outcome) r := by
  by_cases hr : r.raised
  case pos => rw [flushHintsFor, if_pos hr, foldl_put_of_raised hr]
  case neg =>
    rw [flushHintsFor, if_neg hr, schedule, List.foldl_flatMap]
    simp only [List.foldl_map]
    rfl

theorem mem_schedule : a ∈ schedule hintStore target ↔ a.target = target ∧
    ∃ versions, (a.key, versions) ∈ hintStore.pendingFor target ∧
      versions[a.index]? = some a.version := by
  simp only [schedule, List.mem_flatMap, List.mem_map, Prod.exists]
  constructor
  case mp =>
    intro ⟨key, versions, hp, version, index, hm, e⟩
    subst e
    exact ⟨rfl, versions, hp, List.mem_zipIdx_iff_getElem?.mp hm⟩
  case mpr =>
    intro ⟨ht, versions, hp, hv⟩
    subst ht
    exact ⟨a.key, versions, hp, a.version, a.index, List.mem_zipIdx_iff_getElem?.mpr hv, rfl⟩

theorem nodup_schedule : (schedule hintStore target).Nodup := by
  refine List.nodup_flatMap.mpr ⟨fun (key, versions) _ => ?_, ?_⟩
  case refine_1 =>
    refine .of_map Attempt.index ?_
    rw [List.map_map]
    exact versions.nodup_zipIdx_map_snd
  case refine_2 =>
    refine (hintStore.pendingFor_pairwise target).imp fun {e e'} hne => ?_
    intro a ha ha'
    have ⟨_, _, h⟩ := List.mem_map.mp ha
    have ⟨_, _, h'⟩ := List.mem_map.mp ha'
    exact hne <| (congrArg Attempt.key h).trans (congrArg Attempt.key h').symm

theorem schedule_eq (h : hintStore.load t = hintStore'.load t) :
    schedule hintStore t = schedule hintStore' t := by
  simp only [schedule, HintStore.pendingFor, h]

-- Flushes for different targets do not affect each other.
theorem foldl_flushHintsFor {targets : List NodeId} (h : targets.Nodup) :
    targets.foldl (flushHintsFor outcome) r =
      (targets.flatMap (schedule r.hintStore)).foldl (put outcome) r := by
  induction targets generalizing r
  case nil => rfl
  case cons t ts hi =>
    have ⟨ht, hts⟩ := List.nodup_cons.mp h
    rw [List.foldl_cons, hi hts, List.flatMap_cons, List.foldl_append, flushHintsFor_eq]
    congr 1
    refine List.flatMap_congr fun t' ht' => schedule_eq <| load_foldl_put_of_ne fun a ha => ?_
    rw [(mem_schedule.mp ha).left]
    exact fun e => ht <| e ▸ ht'

end Schedule

section Flush

variable {outcome : Attempt α → PutOutcome} {target : NodeId} {hintStore : HintStore α}

theorem made_eq_self (h : ∀ a ∈ as, outcome a ≠ .raised) : made outcome as = as := by
  induction as
  case nil          => rfl
  case cons a as hi =>
    rw [made_cons_of_not_raised (h a <| .head _), hi fun a ha => h a <| .tail _ ha]

-- Every version whose PUT was not answered with 200 is still pending, and so are the hints for
-- others.
def KeepsUndelivered (outcome : Attempt α → PutOutcome) (hintStore : HintStore α)
    (target : NodeId) : Prop :=
  let after := (flushHintsFor outcome ⟨hintStore, [], false⟩ target).hintStore
  (∀ a ∈ schedule hintStore target, outcome a ≠ .status 200 →
    a.version ∈ after.pending target a.key) ∧
  ∀ t ≠ target, after.load t = hintStore.load t

-- The PUTs of all siblings of a key are answered with 200, or none of them is.
def Uniform (outcome : Attempt α → PutOutcome) (hintStore : HintStore α) (target : NodeId) : Prop :=
  ∀ a ∈ schedule hintStore target, ∀ b ∈ schedule hintStore target, a.key = b.key →
    outcome a = .status 200 → outcome b = .status 200

theorem version_mem_pending (h : a ∈ schedule hintStore target) :
    a.version ∈ hintStore.pending target a.key := by
  have ⟨_, versions, hp, hv⟩ := mem_schedule.mp h
  exact HintStore.mem_pendingFor hp ▸ List.mem_of_getElem? hv

theorem pending_flushHintsFor (h : ∀ a, outcome a ≠ .raised) (k : Key) :
    (flushHintsFor outcome ⟨hintStore, [], false⟩ target).hintStore.pending target k =
      if ∃ a ∈ schedule hintStore target, a.key = k ∧ outcome a = .status 200 then []
      else hintStore.pending target k := by
  have hl : ((schedule hintStore target |>.foldl (put outcome)
      ⟨hintStore, [], false⟩).hintStore.load target).lookup k = _ :=
    load_foldl_put (by simp) target k
  rw [made_eq_self fun a _ => h a] at hl
  have hiff : (∃ a ∈ schedule hintStore target,
      a.target = target ∧ a.key = k ∧ outcome a = .status 200) ↔
      ∃ a ∈ schedule hintStore target, a.key = k ∧ outcome a = .status 200 :=
    exists_congr fun a => and_congr_right fun ha => by simp [(mem_schedule.mp ha).left]
  rw [flushHintsFor_eq, HintStore.pending, hl, HintStore.pending]
  simp only [hiff]
  split <;> rfl

theorem keepsUndelivered_iff_uniform (h : ∀ a, outcome a ≠ .raised) :
    KeepsUndelivered outcome hintStore target ↔ Uniform outcome hintStore target := by
  simp only [KeepsUndelivered, pending_flushHintsFor h]
  constructor
  case mp =>
    intro ⟨keeps, _⟩ a ha b hb hk ho
    by_contra hc
    have hv := keeps b hb hc
    rw [if_pos ⟨a, ha, hk, ho⟩] at hv
    contradiction
  case mpr =>
    intro uniform
    refine ⟨fun b hb hc => ?_, fun t ht => ?_⟩
    case refine_1 =>
      rw [if_neg fun ⟨a, ha, hk, ho⟩ => hc <| uniform a ha b hb hk ho]
      exact version_mem_pending hb
    case refine_2 =>
      rw [flushHintsFor_eq]
      refine load_foldl_put_of_ne fun a ha => ?_
      rw [(mem_schedule.mp ha).left]
      exact ht.symm

end Flush

-- Two writes which are concurrent, and pending for the same target.
def left : Version Nat :=
  ⟨1, ⟨AList.singleton "a" 1⟩⟩

def right : Version Nat :=
  ⟨2, ⟨AList.singleton "b" 1⟩⟩

def siblings : HintStore Nat :=
  HintStore.empty.add "t" "k" left |>.add "t" "k" right

theorem schedule_siblings :
    schedule siblings "t" = [⟨"t", "k", 0, left⟩, ⟨"t", "k", 1, right⟩] :=
  rfl

theorem keepsUndelivered_iff_uniform_siblings :
    KeepsUndelivered (fun _ => .status 503) siblings "t" :=
  (keepsUndelivered_iff_uniform (by simp)).mpr fun _ _ _ _ _ h => by simp at h

-- Only the PUT of the first sibling is answered with 200.
theorem not_keepsUndelivered :
    ¬KeepsUndelivered (fun a => .status <| if a.index = 0 then 200 else 503) siblings "t" := by
  intro ⟨keeps, _⟩
  have h := keeps ⟨"t", "k", 1, right⟩ (by simp [schedule_siblings]) (by decide)
  cases h

section Round

variable {outcome : Attempt α → PutOutcome} {s : Setting α} {post : PostOutcome} {t : Times}

theorem isPrefix_made (outcome : Attempt α → PutOutcome) (as : List (Attempt α)) :
    made outcome as <+: as := by
  refine ⟨(as.dropWhile (outcome · ≠ .raised)).drop 1, ?_⟩
  rw [made, List.append_assoc, List.take_append_drop, List.takeWhile_append_dropWhile]

theorem made_eq_self_iff : made outcome as = as ↔ ∀ a ∈ as.dropLast, outcome a ≠ .raised := by
  induction as
  case nil => simp [made]
  case cons a as hi =>
    cases as
    case nil => by_cases ho : outcome a = .raised <;> simp [made, ho]
    case cons b as =>
      rw [List.dropLast_cons_cons, List.forall_mem_cons, ← hi]
      by_cases ho : outcome a = .raised
      case pos => simp [ho]
      case neg => rw [made_cons_of_not_raised ho, List.cons_inj_right]; simp [ho]

-- All PUTs which a round makes if no exception ends it.
def attempts (s : Setting α) (post : PostOutcome) (t : Times) : List (Attempt α) :=
  (livePeers s post t).flatMap (schedule s.hintStore)

theorem mem_attempts : a ∈ attempts s post t ↔
    a.target ∈ livePeers s post t ∧ a ∈ schedule s.hintStore a.target := by
  rw [attempts, List.mem_flatMap]
  constructor
  case mp =>
    intro ⟨p, hp, ha⟩
    cases (mem_schedule.mp ha).left
    exact ⟨hp, ha⟩
  case mpr => exact fun ⟨hp, ha⟩ => ⟨a.target, hp, ha⟩

theorem nodup_livePeers (s : Setting α) (post : PostOutcome) (t : Times) :
    (livePeers s post t).Nodup :=
  s.distinct.filter _

theorem nodup_attempts (s : Setting α) (post : PostOutcome) (t : Times) :
    (attempts s post t).Nodup := by
  refine List.nodup_flatMap.mpr ⟨fun _ _ => nodup_schedule, ?_⟩
  refine (nodup_livePeers s post t).imp fun hne a ha ha' => hne ?_
  exact (mem_schedule.mp ha).left.symm.trans (mem_schedule.mp ha').left

theorem gossipRound_eq : gossipRound s post outcome t =
    (attempts s post t).foldl (put outcome) ⟨s.hintStore, [], (exchanged s post t).2⟩ :=
  foldl_flushHintsFor <| nodup_livePeers s post t

-- The hints for every peer that is not believed to be down are attempted, and the keys of which all
-- PUTs are answered with 200 are cleared.
structure Complete (s : Setting α) (post : PostOutcome) (outcome : Attempt α → PutOutcome)
    (t : Times) : Prop where
  attempted : ∀ p ∈ livePeers s post t, ∀ a ∈ schedule s.hintStore p,
    a ∈ (gossipRound s post outcome t).attempted
  cleared : ∀ p ∈ livePeers s post t, ∀ a ∈ schedule s.hintStore p,
    (∀ b ∈ schedule s.hintStore p, b.key = a.key → outcome b = .status 200) →
    a.key ∉ (gossipRound s post outcome t).hintStore.load p

-- If there is anything to deliver then the exchange does not raise an exception which is not an
-- httpx.HTTPError, and neither does any PUT but the last.
def NotCutShort (s : Setting α) (post : PostOutcome) (outcome : Attempt α → PutOutcome)
    (t : Times) : Prop :=
  attempts s post t ≠ [] →
    (exchanged s post t).2 = false ∧ ∀ a ∈ (attempts s post t).dropLast, outcome a ≠ .raised

theorem complete_iff_notCutShort :
    Complete s post outcome t ↔ NotCutShort s post outcome t := by
  constructor
  case mp =>
    intro complete hne
    have hs : attempts s post t ⊆ (gossipRound s post outcome t).attempted := by
      intro a ha
      have ⟨hp, ha⟩ := mem_attempts.mp ha
      exact complete.attempted _ hp a ha
    rw [gossipRound_eq] at hs
    by_cases hr : (exchanged s post t).2 = true
    case pos =>
      rw [foldl_put_of_raised hr] at hs
      exact absurd (List.subset_nil.mp hs) hne
    case neg =>
      rw [attempted_foldl_put hr, List.nil_append] at hs
      have hl := ((nodup_attempts s post t).subperm hs).length_le
      exact ⟨Bool.eq_false_of_not_eq_true hr,
        made_eq_self_iff.mp <| (isPrefix_made outcome _).eq_of_length_le hl⟩
  case mpr =>
    intro notCutShort
    have h {a p} (hp : p ∈ livePeers s post t) (ha : a ∈ schedule s.hintStore p) :
        a.target = p ∧ a ∈ attempts s post t := by
      cases (mem_schedule.mp ha).left
      exact ⟨rfl, mem_attempts.mpr ⟨hp, ha⟩⟩
    have hm (hne : attempts s post t ≠ []) : ¬(exchanged s post t).2 = true ∧
        made outcome (attempts s post t) = attempts s post t :=
      (notCutShort hne).imp (by simp_all) made_eq_self_iff.mpr
    constructor
    case attempted =>
      intro p hp a ha
      have ⟨_, ha⟩ := h hp ha
      have ⟨hr, hm⟩ := hm <| List.ne_nil_of_mem ha
      rwa [gossipRound_eq, attempted_foldl_put hr, hm, List.nil_append]
    case cleared =>
      intro p hp a ha ho
      have ho := ho a ha rfl
      have ⟨ht, ha⟩ := h hp ha
      have ⟨hr, hm⟩ := hm <| List.ne_nil_of_mem ha
      rw [← AList.lookup_eq_none, gossipRound_eq, load_foldl_put hr, hm]
      exact if_pos ⟨a, ha, ht, rfl, ho⟩

end Round

def holder : Setting Nat where
  gossip    := .init "p" 0
  hintStore := siblings
  peers     := ["t"]
  timeout   := 6
  distinct  := by simp

-- The peer answers with a body that has no table.
theorem not_complete :
    ¬Complete holder (.ok (.malformed ∅)) (fun _ => .status 200) ⟨1, 2, 3⟩ := by
  intro ⟨attempted, _⟩
  have hp : "t" ∈ livePeers holder (.ok (.malformed ∅)) ⟨1, 2, 3⟩ := by decide
  cases attempted "t" hp ⟨"t", "k", 0, left⟩ <| by simp [holder, schedule_siblings]

end DynamoKV.GossipRound
