import DynamoKV.Lib.JsonText.Values

-- Values that were read are well-formed, and texts that were written are printable.
namespace JsonText

section Valid

variable {fl : Floats F}

theorem allValid_iff {vs : List (Value F)} : allValid vs ↔ ∀ v ∈ vs, v.valid := by
  induction vs
  case nil          => simp [allValid]
  case cons _ _ hi  => simp [allValid, hi]

theorem membersValid_iff {ms : List (String × Value F)} :
    membersValid ms ↔ ∀ m ∈ ms, m.2.valid := by
  induction ms
  case nil          => simp [membersValid]
  case cons _ _ hi  => simp [membersValid, hi]

theorem mem_setItem {d : List (String × β)} (h : e ∈ setItem d m) : e ∈ d ∨ e = m := by
  unfold setItem at h
  split at h
  case isTrue =>
    obtain ⟨e', he, rfl⟩ := List.mem_map.mp h
    split
    case isTrue  => exact .inr rfl
    case isFalse => exact .inl he
  case isFalse => simpa using h

theorem nodup_setItem {d : List (String × β)} (h : (d.map Prod.fst).Nodup) :
    ((setItem d m).map Prod.fst).Nodup := by
  unfold setItem
  split
  case isTrue =>
    have hk : (d.map fun e => if e.1 = m.1 then m else e).map Prod.fst = d.map Prod.fst := by
      rw [List.map_map]
      refine List.map_congr_left fun e _ => ?_
      simp only [Function.comp_apply]
      split
      case isTrue he => exact he.symm
      case isFalse   => rfl
    exact hk ▸ h
  case isFalse hm =>
    rw [List.map_append, List.map_singleton]
    exact h.append (List.nodup_singleton _) (List.disjoint_singleton.mpr hm)

theorem dictOf_spec (ms : List (String × β)) :
    ((dictOf ms).map Prod.fst).Nodup ∧ ∀ e ∈ dictOf ms, e ∈ ms := by
  have go (d : List (String × β)) (hd : (d.map Prod.fst).Nodup) :
      ((ms.foldl setItem d).map Prod.fst).Nodup ∧ ∀ e ∈ ms.foldl setItem d, e ∈ d ∨ e ∈ ms := by
    induction ms generalizing d
    case nil => exact ⟨hd, fun _ => .inl⟩
    case cons m ms hi =>
      obtain ⟨hn, hm⟩ := hi _ <| nodup_setItem (m := m) hd
      refine ⟨hn, fun e he => ?_⟩
      rcases hm e he with he | he
      · rcases mem_setItem he with he | rfl
        · exact .inl he
        · exact .inr <| .head _
      · exact .inr <| .tail _ he
  obtain ⟨hn, hm⟩ := go [] List.nodup_nil
  exact ⟨hn, fun e he => (hm e he).resolve_left List.not_mem_nil⟩

theorem valid_readToken (h : readToken fl t = some v) : v.valid := by
  unfold readToken at h
  split_ifs at h
  · cases h; rfl
  · cases h; rfl
  · cases h; rfl
  · split at h
    · cases h; rfl
    · obtain ⟨_, _, rfl⟩ := Option.map_eq_some_iff.mp h
      rfl

-- Whatever the text, dicts have no key twice.
theorem valid_of_scan (n : Nat) :
    (∀ {s v r}, scanOnce fl n s = some (v, r) → v.valid) ∧
    (∀ {s vs r}, scanElements fl n s = some (vs, r) → allValid vs) ∧
    ∀ {s ms r}, scanMembers fl n s = some (ms, r) → membersValid ms := by
  induction n
  case zero => exact ⟨by simp [scanOnce], by simp [scanElements], by simp [scanMembers]⟩
  case succ n hi =>
    obtain ⟨once, elements, members⟩ := hi
    refine ⟨fun {s v r} h => ?once, fun {s vs r} h => ?elements, fun {s ms r} h => ?members⟩
    case once =>
      cases s
      case nil => simp [scanOnce] at h
      case cons c s =>
        rw [scanOnce] at h
        split_ifs at h
        · obtain ⟨_, _, he⟩ := Option.map_eq_some_iff.mp h
          cases he
          rfl
        · split at h
          · cases h; rfl
          · obtain ⟨_, hx, he⟩ := Option.map_eq_some_iff.mp h
            cases he
            exact elements hx
        · split at h
          · cases h; rfl
          · obtain ⟨x, hx, he⟩ := Option.map_eq_some_iff.mp h
            cases he
            obtain ⟨hn, hm⟩ := dictOf_spec x.1
            have hv := membersValid_iff.mp <| members hx
            exact Bool.and_eq_true_iff.mpr
              ⟨decide_eq_true hn, membersValid_iff.mpr fun m h => hv m <| hm m h⟩
        · obtain ⟨_, hx, he⟩ := Option.map_eq_some_iff.mp h
          cases he
          exact valid_readToken hx
    case elements =>
      rw [scanElements] at h
      obtain ⟨⟨v, s₁⟩, hv, h⟩ := Option.bind_eq_some_iff.mp h
      dsimp only at h
      split at h
      · cases h
        simp [allValid, once hv]
      · obtain ⟨⟨vs', s₂⟩, hvs, h⟩ := Option.bind_eq_some_iff.mp h
        cases h
        simp [allValid, once hv, elements hvs]
      · contradiction
    case members =>
      cases s
      case nil => simp [scanMembers] at h
      case cons c s =>
        rw [scanMembers] at h
        obtain ⟨_, _, h⟩ := Option.bind_eq_some_iff.mp h
        obtain ⟨⟨k, s₁⟩, _, h⟩ := Option.bind_eq_some_iff.mp h
        dsimp only at h
        split at h
        case h_2 => contradiction
        case h_1 =>
          obtain ⟨⟨v, s₂⟩, hv, h⟩ := Option.bind_eq_some_iff.mp h
          dsimp only at h
          split at h
          · cases h
            simp [membersValid, once hv]
          · obtain ⟨⟨ms', s₃⟩, hms, h⟩ := Option.bind_eq_some_iff.mp h
            cases h
            simp [membersValid, once hv, members hms]
          · contradiction

theorem valid_of_parse (h : parse fl s = some v) : v.valid := by
  obtain ⟨⟨v', s'⟩, hv, h⟩ := Option.bind_eq_some_iff.mp h
  obtain ⟨_, _, h⟩ := Option.bind_eq_some_iff.mp h
  cases h
  exact (valid_of_scan _).left hv

end Valid

section Printable

variable {fl : Floats F}

theorem isPrintable_of_isToken (h : isToken c) : isPrintable c := by
  have hle {c d : Char} : c ≤ d ↔ c.toNat ≤ d.toNat := Iff.rfl
  have he : c.isAlphanum = (decide (c.val ≥ 'A'.val ∧ c.val ≤ 'Z'.val) ||
      (c.val ≥ 'a'.val && c.val ≤ 'z'.val) || (c.val ≥ '0'.val && c.val ≤ '9'.val)) := rfl
  simp only [isToken, he, Bool.or_eq_true, Bool.and_eq_true, decide_eq_true_eq] at h
  simp only [isPrintable, Bool.and_eq_true, decide_eq_true_eq, hle]
  rcases h with ((((⟨h₁, h₂⟩ | ⟨h₁, h₂⟩) | ⟨h₁, h₂⟩) | rfl) | rfl) | rfl
  · exact ⟨le_trans (by decide) h₁, le_trans h₂ (by decide)⟩
  · exact ⟨le_trans (by decide) h₁, le_trans h₂ (by decide)⟩
  · exact ⟨le_trans (by decide) h₁, le_trans h₂ (by decide)⟩
  · decide
  · decide
  · decide

def Printable (s : List Char) : Prop :=
  ∀ c ∈ s, isPrintable c

theorem Printable.of_all (h : s.all isPrintable) : Printable s :=
  List.all_eq_true.mp h

theorem Printable.append (h : Printable s) (h' : Printable s') : Printable (s ++ s') :=
  fun c hc => (List.mem_append.mp hc).elim (h c) (h' c)

theorem Printable.cons (h : isPrintable c) (hs : Printable s) : Printable (c :: s) :=
  List.forall_mem_cons.mpr ⟨h, hs⟩

theorem Printable.nil : Printable [] :=
  fun _ h => absurd h List.not_mem_nil

mutual

theorem printable_dump (l : fl.Lawful) : ∀ v : Value F, Printable (dump fl v)
  | .null    => .of_all (s := "null".toList) rfl
  | .bool b  => by
    cases b
    · exact .of_all (s := "false".toList) rfl
    · exact .of_all (s := "true".toList) rfl
  | .int n   => fun c hc => isPrintable_of_isToken <| isToken_writeInt n c hc
  | .float x => fun c hc => isPrintable_of_isToken <| l.token x c hc
  | .str s   => isPrintable_writeString s.toList
  | .arr vs  =>
    .append (.cons (by decide) <| printable_dumpElements l vs) <| .cons (by decide) .nil
  | .obj ms  =>
    .append (.cons (by decide) <| printable_dumpMembers l ms) <| .cons (by decide) .nil

theorem printable_dumpElements (l : fl.Lawful) : ∀ vs : List (Value F),
    Printable (dumpElements fl vs)
  | []           => .nil
  | [v]          => printable_dump l v
  | v :: w :: vs => .append (printable_dump l v) <| .cons (by decide) <| .cons (by decide) <|
    printable_dumpElements l (w :: vs)

theorem printable_dumpMembers (l : fl.Lawful) : ∀ ms : List (String × Value F),
    Printable (dumpMembers fl ms)
  | []                => .nil
  | [(k, v)]          => .append (isPrintable_writeString k.toList) <| .cons (by decide) <|
    .cons (by decide) <| printable_dump l v
  | (k, v) :: m :: ms =>
    .append (.append (isPrintable_writeString k.toList) <| .cons (by decide) <|
      .cons (by decide) <| printable_dump l v) <| .cons (by decide) <| .cons (by decide) <|
      printable_dumpMembers l (m :: ms)

end
end Printable
end JsonText
