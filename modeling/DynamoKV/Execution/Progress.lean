import DynamoKV.Execution.Recovery

-- Requests end, whatever the rest of the cluster does, as their coordinators always have something
-- left to do for them but not for long.
namespace DynamoKV

variable {α : Type} {cfg : Config} {s s' : State α} {l : Label α}

-- The steps which the coordinator of an operation takes for it.
def Label.OwnsOp (i : Nat) : Label α → Bool
  | .readDone j _ _ | .getReturn j | .putWrite j _ | .writeDone j _ _ | .putReturn j => j = i
  | _                                                                                => false

def Label.OwnsDelete (i : Nat) : Label α → Bool
  | .deleteDone j _ _ | .deleteReturn j => j = i
  | _                                   => false

section Remaining

def QuorumCall.remaining (q : QuorumCall β) : Nat :=
  q.prefs.length - q.completed.length

-- How many steps a coordinator can take at most until the operation has returned.
def Op.remaining (op : Op α) : Nat :=
  op.read.remaining + match op.write with
    | none   => op.prefs.length + 2
    | some w => w.call.remaining + 1

def DeleteOp.remaining (d : DeleteOp α) : Nat :=
  d.call.remaining + 1

theorem Op.remaining_pos (op : Op α) : 0 < op.remaining := by
  unfold remaining
  split <;> omega

namespace QuorumCall

variable {β : Type*} {q : QuorumCall β}

theorem Evolves.remaining_le {q' : QuorumCall β} (e : q.Evolves q') :
    q'.remaining ≤ q.remaining := by
  have := e.completed
  simp only [remaining, e.prefs]
  omega

theorem Completes.remaining_lt (h : q.Completes r ok) :
    (q.complete r ok).remaining < q.remaining := by
  have := h.completed_lt
  simp only [remaining, prefs_complete, h.completed, List.length_append, List.length_singleton]
  omega

-- A call which has not finished waits for some node.
theorem exists_completes_of_not_finished (hd : q.prefs.Nodup) (h : ¬q.Finished t) :
    ∃ r, q.Completes r false := by
  have hs : (q.completed.map Prod.fst).length ≤ q.prefs.length :=
    (q.nodup.subperm fun r hr => by
      obtain ⟨c, hc, rfl⟩ := List.mem_map.mp hr
      exact q.subset c hc).length_le
  rw [List.length_map] at hs
  have hne : q.completed.length ≠ q.prefs.length := fun he => h <| .inr he
  exact q.exists_completes hd <| hs.lt_of_ne hne

end QuorumCall

theorem remaining_startWrite (cfg : Config) (op : Op α) (down : List NodeId)
    (merged : List (Version α)) (value : α) :
    (op.startWrite cfg down merged value).call.remaining ≤ op.prefs.length := by
  simpa [QuorumCall.remaining, Op.startWrite, QuorumCall.submit] using List.length_filter_le ..

theorem OpStep.remaining_le {op op' : Op α} (e : OpStep cfg s l i op op') :
    op'.remaining ≤ op.remaining := by
  have hread := e.read'.remaining_le
  simp only [Op.remaining, e.prefs]
  cases hw : op.write
  case some w =>
    obtain ⟨w', hw', ew⟩ := e.write' hw
    have := ew.call.remaining_le
    simp only [hw']
    omega
  case none =>
    cases hw' : op'.write
    case none   => simpa using hread
    case some w =>
      obtain ⟨down, merged, value, _, _, _, rfl⟩ := e.write_eq hw hw'
      have := remaining_startWrite cfg op down merged value
      dsimp only
      omega

-- Each of the coordinator's own steps brings the operation closer to its end, or ends it.
theorem remaining_of_own {op op' : Op α} (h : step cfg s l = some s') (hl : l.OwnsOp i)
    (ho : s.ops[i]? = some op) (ho' : s'.ops[i]? = some op') (hr : ¬op'.Returned) :
    op'.remaining < op.remaining := by
  obtain ⟨s₁, hn, rfl⟩ := State.step_eq_some.mp h
  have modified {f : Op α → Op α} (he : s₁.ops = (s.modifyOp i f).ops) : op' = f op := by
    rw [State.ops_tick, he] at ho'
    simpa [State.modifyOp, ho, eq_comm] using ho'
  cases l <;> simp only [Label.OwnsOp, decide_eq_true_eq, Bool.false_eq_true] at hl <;> subst hl <;>
    simp only [State.next] at hn
  case readDone r ok =>
    obtain ⟨_, ho₀, hc, rfl⟩ := State.readDone_eq_some.mp hn
    cases ho.symm.trans ho₀
    rw [modified rfl]
    have := hc.remaining_lt
    simp only [Op.remaining, Op.completeRead, Op.prefs, QuorumCall.prefs_complete]
    omega
  case getReturn =>
    obtain ⟨_, ho₀, _, rfl⟩ := State.getReturn_eq_some.mp hn
    exact absurd (modified rfl ▸ rfl) hr
  case putWrite down =>
    obtain ⟨_, value, ho₀, ⟨hw, _⟩, _, ⟨_, _, rfl⟩ | ⟨merged, _, rfl⟩⟩ :=
      State.putWrite_eq_some.mp hn
    · exact absurd (modified rfl ▸ rfl) hr
    · cases ho.symm.trans ho₀
      rw [modified State.ops_sendWrites]
      have := remaining_startWrite cfg op down merged value
      simp only [Op.remaining, Option.isNone_iff_eq_none.mp hw, Op.prefs] at this ⊢
      omega
  case writeDone j r ok =>
    obtain ⟨_, w, ho₀, hw, hc, hs⟩ := State.writeDone_eq_some hn
    cases ho.symm.trans ho₀
    have hops : s₁.ops = (s.modifyOp j (·.completeWrite r ok)).ops := by
      rcases hs with rfl | ⟨_, _, _, _, rfl⟩ <;> simp
    rw [modified hops]
    have := hc.remaining_lt
    have hread : (op.completeWrite r ok).read = op.read := rfl
    simp only [Op.remaining, hread, Op.write_completeWrite hw, hw]
    omega
  case putReturn =>
    obtain ⟨_, _, ho₀, _, _, rfl⟩ := State.putReturn_eq_some.mp hn
    exact absurd (modified rfl ▸ rfl) hr

theorem DeleteStep.remaining_le {d d' : DeleteOp α} (e : DeleteStep cfg s l i d d') :
    d'.remaining ≤ d.remaining :=
  Nat.add_le_add_right e.call.remaining_le 1

theorem remaining_of_own_delete {d d' : DeleteOp α} (h : step cfg s l = some s')
    (hl : l.OwnsDelete i) (hd : s.deletes[i]? = some d) (hd' : s'.deletes[i]? = some d')
    (hr : ¬d'.Returned) : d'.remaining < d.remaining := by
  obtain ⟨s₁, hn, rfl⟩ := State.step_eq_some.mp h
  have modified {f : DeleteOp α → DeleteOp α} (he : s₁.deletes = (s.modifyDelete i f).deletes) :
      d' = f d := by
    have hd' : s₁.deletes[i]? = some d' := hd'
    rw [he] at hd'
    simpa [State.modifyDelete, hd, eq_comm] using hd'
  cases l <;> simp only [Label.OwnsDelete, decide_eq_true_eq, Bool.false_eq_true] at hl <;>
    subst hl <;> simp only [State.next] at hn
  case deleteDone r ok =>
    obtain ⟨_, hd₀, hc, rfl⟩ := State.deleteDone_eq_some.mp hn
    cases hd.symm.trans hd₀
    rw [modified rfl]
    exact Nat.add_lt_add_right hc.remaining_lt 1
  case deleteReturn =>
    obtain ⟨_, hd₀, _, rfl⟩ := State.deleteReturn_eq_some.mp hn
    exact absurd (modified rfl ▸ rfl) hr

end Remaining

section Enabled

variable {P : State α → Label α → Prop}

theorem nodup_of_preferenceList {prefs : List NodeId} (h : cfg.preferenceList k = some prefs) :
    prefs.Nodup :=
  HashRing.getPreferenceList_nodup (HashRing.built_ofNodes ..) h

-- The coordinator of an operation never waits for anybody else, as it may stop waiting for a reply.
theorem exists_own_step (r : (cluster cfg α).Reachable P s) {op : Op α} (ho : s.ops[i]? = some op)
    (hn : ¬op.Returned) : ∃ l s', l.OwnsOp i ∧ step cfg s l = some s' := by
  have hout : op.outcome = none := by simpa [Op.Returned] using hn
  have taken {l s₁} (hl : l.OwnsOp i) (h : s.next cfg l = some s₁) :
      ∃ l s', l.OwnsOp i ∧ step cfg s l = some s' :=
    ⟨l, s₁.tick, hl, State.step_eq_some.mpr ⟨s₁, h, rfl⟩⟩
  have hp := (Op.Placed.of_reachable r op <| List.mem_of_getElem? ho).prefs
  cases hw : op.write
  case none =>
    by_cases hf : op.read.Finished (cfg.readThreshold op.prefs)
    case neg =>
      obtain ⟨n, hc⟩ := QuorumCall.exists_completes_of_not_finished (nodup_of_preferenceList hp) hf
      exact taken (l := .readDone i n false) (by simp [Label.OwnsOp])
        (State.readDone_eq_some.mpr ⟨op, ho, hc, rfl⟩)
    case pos =>
      have finished : op.ReadFinished cfg := ⟨by simp [hout], hf⟩
      cases hq : op.request
      case get =>
        exact taken (l := .getReturn i) (by simp [Label.OwnsOp])
          (State.getReturn_eq_some.mpr ⟨op, ho, ⟨by simp [hq, Request.isPut], finished⟩, rfl⟩)
      case put value =>
        have guards : op.write.isNone ∧ op.ReadFinished cfg ∧ op.coord ∉ ([] : List NodeId) :=
          ⟨by simp [hw], finished, List.not_mem_nil⟩
        cases hm : op.mergedRead cfg
        case error e =>
          exact taken (l := .putWrite i []) (by simp [Label.OwnsOp]) <|
            State.putWrite_eq_some.mpr ⟨op, value, ho, guards, hq, .inl ⟨e, hm, rfl⟩⟩
        case ok merged =>
          exact taken (l := .putWrite i []) (by simp [Label.OwnsOp]) <|
            State.putWrite_eq_some.mpr ⟨op, value, ho, guards, hq, .inr ⟨merged, hm, rfl⟩⟩
  case some w =>
    by_cases hf : w.call.Finished (cfg.writeThreshold op.prefs)
    case pos =>
      exact taken (l := .putReturn i) (by simp [Label.OwnsOp])
        (State.putReturn_eq_some.mpr ⟨op, w, ho, hw, ⟨by simp [hout], hf⟩, rfl⟩)
    case neg =>
      have hd := Put.nodup_of_reachable r ⟨i, op, w, ho, rfl, hw⟩
      obtain ⟨n, hc⟩ := QuorumCall.exists_completes_of_not_finished hd hf
      obtain ⟨s', h, _⟩ := exists_writeDone cfg ho rfl hw hc
      exact ⟨.writeDone i n false, s', by simp [Label.OwnsOp], h⟩

theorem DeleteOp.preferenceList_of_reachable (r : (cluster cfg α).Reachable P s) :
    ∀ d ∈ s.deletes, cfg.preferenceList d.key = some d.call.prefs := by
  refine r.invariant (I := fun s => ∀ d ∈ s.deletes, cfg.preferenceList d.key = some d.call.prefs)
    (fun s hs => ?init) fun s l s' _ _ h hi d' hm => ?step
  case init => simp [show s = .initial from hs, State.initial]
  case step =>
    obtain ⟨i, hd⟩ := List.getElem?_of_mem hm
    rcases deleteStep_or_started h hd with ⟨d, hd, e⟩ | hs
    · rw [e.key, e.call.prefs]
      exact hi d <| List.mem_of_getElem? hd
    · obtain ⟨prefs, hp, hc⟩ := hs.call
      rw [hp, hc]
      rfl

theorem exists_own_delete_step (r : (cluster cfg α).Reachable P s) {d : DeleteOp α}
    (hd : s.deletes[i]? = some d) (hn : ¬d.Returned) :
    ∃ l s', l.OwnsDelete i ∧ step cfg s l = some s' := by
  have hout : d.outcome = none := by simpa [DeleteOp.Returned] using hn
  have taken {l s₁} (hl : l.OwnsDelete i) (h : s.next cfg l = some s₁) :
      ∃ l s', l.OwnsDelete i ∧ step cfg s l = some s' :=
    ⟨l, s₁.tick, hl, State.step_eq_some.mpr ⟨s₁, h, rfl⟩⟩
  by_cases hf : d.call.Finished (cfg.writeThreshold d.call.prefs)
  case pos =>
    exact taken (l := .deleteReturn i) (by simp [Label.OwnsDelete])
      (State.deleteReturn_eq_some.mpr ⟨d, hd, ⟨by simp [hout], hf⟩, rfl⟩)
  case neg =>
    have hp := DeleteOp.preferenceList_of_reachable r d <| List.mem_of_getElem? hd
    obtain ⟨n, hc⟩ := QuorumCall.exists_completes_of_not_finished (nodup_of_preferenceList hp) hf
    exact taken (l := .deleteDone i n false) (by simp [Label.OwnsDelete])
      (State.deleteDone_eq_some.mpr ⟨d, hd, hc, rfl⟩)

end Enabled

section Bounds

variable {P : State α → Label α → Prop}

theorem remaining_submit (prefs : List NodeId) :
    (QuorumCall.submit prefs : QuorumCall β).remaining = prefs.length :=
  rfl

theorem Op.remaining_le_of_reachable (r : (cluster cfg α).Reachable P s) :
    ∀ op ∈ s.ops, op.remaining ≤ 2 * op.prefs.length + 2 := by
  refine r.invariant (I := fun s => ∀ op ∈ s.ops, op.remaining ≤ 2 * op.prefs.length + 2)
    (fun s hs => ?init) fun s l s' _ _ h hi op' hm => ?step
  case init => simp [show s = .initial from hs, State.initial]
  case step =>
    obtain ⟨i, ho⟩ := List.getElem?_of_mem hm
    rcases opStep_or_started h ho with ⟨op, ho, e⟩ | hs
    · rw [e.prefs]
      exact e.remaining_le.trans <| hi op <| List.mem_of_getElem? ho
    · obtain ⟨prefs, _, hr⟩ := hs.read
      simp only [remaining, hs.write, Op.prefs, hr, remaining_submit]
      simp only [QuorumCall.submit]
      omega

-- As long as an operation has not returned, each step of its own brings it closer to its end.
theorem countP_own_le {op : Op α} (ho : s.ops[i]? = some op)
    (h : (cluster cfg α).exec (fun _ _ => True) s ls = some s') : ∃ op', s'.ops[i]? = some op' ∧
      (op.Returned → op'.Returned) ∧
      (¬op'.Returned → ls.countP (·.OwnsOp i) + op'.remaining ≤ op.remaining) := by
  refine TransitionSystem.exec_countP_le (fun s : State α => s.ops[i]?) _ _
    (fun s l s' op ho h => ?_) ho h
  obtain ⟨op', ho', e⟩ := exists_opStep h ho
  refine ⟨op', ho', fun hr => ?_, e.remaining_le, fun hl => remaining_of_own h hl ho ho'⟩
  obtain ⟨o, hout⟩ := Option.isSome_iff_exists.mp hr
  exact Option.isSome_of_mem <| e.outcome hout

theorem countP_own_delete_le {d : DeleteOp α} (hd : s.deletes[i]? = some d)
    (h : (cluster cfg α).exec (fun _ _ => True) s ls = some s') : ∃ d', s'.deletes[i]? = some d' ∧
      (d.Returned → d'.Returned) ∧
      (¬d'.Returned → ls.countP (·.OwnsDelete i) + d'.remaining ≤ d.remaining) := by
  refine TransitionSystem.exec_countP_le (fun s : State α => s.deletes[i]?) _ _
    (fun s l s' d hd h => ?_) hd h
  obtain ⟨d', hd', e⟩ := exists_deleteStep h hd
  refine ⟨d', hd', fun hr => ?_, e.remaining_le, fun hl => remaining_of_own_delete h hl hd hd'⟩
  obtain ⟨o, hout⟩ := Option.isSome_iff_exists.mp hr
  exact Option.isSome_of_mem <| e.outcome hout

end Bounds

-- The coordinator of a request can always go on with it, and the request has returned as soon as
-- the coordinator has taken the given number of steps for it.
structure WaitFree (cfg : Config) (s : State α) : Prop where
  enabled        : ∀ {i : Nat} {op : Op α}, s.ops[i]? = some op → ¬op.Returned →
    ∃ l s', l.OwnsOp i ∧ step cfg s l = some s'
  bounded        : ∀ {i : Nat} {op : Op α} {ls s'}, s.ops[i]? = some op →
    (cluster cfg α).exec (fun _ _ => True) s ls = some s' →
    2 * op.prefs.length + 2 ≤ ls.countP (·.OwnsOp i) → ∃ op', s'.ops[i]? = some op' ∧ op'.Returned
  deleteEnabled : ∀ {i : Nat} {d : DeleteOp α}, s.deletes[i]? = some d → ¬d.Returned →
    ∃ l s', l.OwnsDelete i ∧ step cfg s l = some s'
  deleteBounded : ∀ {i : Nat} {d : DeleteOp α} {ls s'}, s.deletes[i]? = some d →
    (cluster cfg α).exec (fun _ _ => True) s ls = some s' →
    d.call.prefs.length + 1 ≤ ls.countP (·.OwnsDelete i) →
    ∃ d', s'.deletes[i]? = some d' ∧ d'.Returned

theorem waitFree_of_reachable {P : State α → Label α → Prop} (r : (cluster cfg α).Reachable P s) :
    WaitFree cfg s where
  enabled       := exists_own_step r
  deleteEnabled := exists_own_delete_step r
  bounded {i op ls s'} ho h hc := by
    obtain ⟨op', ho', _, hle⟩ := countP_own_le ho h
    refine ⟨op', ho', ?_⟩
    by_contra hr
    have hle := hle hr
    have hb := Op.remaining_le_of_reachable r op <| List.mem_of_getElem? ho
    have hpos := op'.remaining_pos
    omega
  deleteBounded {i d ls s'} hd h hc := by
    obtain ⟨d', hd', _, hle⟩ := countP_own_delete_le hd h
    refine ⟨d', hd', ?_⟩
    by_contra hr
    have hle := hle hr
    simp only [DeleteOp.remaining, QuorumCall.remaining] at hle
    omega

section Example

-- Nobody answers, except that one of the messages of a delete arrives.
def unanswered : List (Label Nat) := [
  .invoke "a" "k" (.put 7), .invokeDelete "b" "k", .readDone 0 "c" false, .lose 0, .deliver 0 false]

abbrev afterUnanswered : State Nat :=
  (cluster (.ofNodes ["a", "b", "c"] 3 2 2) Nat).after (fun _ _ => True) .initial unanswered

theorem waitFree_unanswered : ∃ s : State Nat, (∃ op ∈ s.ops[0]?, ¬op.Returned) ∧
    (∃ d ∈ s.deletes[0]?, ¬d.Returned) ∧ WaitFree (.ofNodes ["a", "b", "c"] 3 2 2) s :=
  ⟨afterUnanswered, by decide, by decide,
    waitFree_of_reachable (P := fun _ _ => True) (.after rfl _)⟩

end Example
end DynamoKV
