import DynamoKV.Lib.JsonText.Values

-- What was written is read as it was.
namespace JsonText

section Starts

variable {fl : Floats F}

-- No token goes on at the beginning of the text.
def Ends (s : List Char) : Prop :=
  ∀ c ∈ s.head?, isToken c = false

theorem Ends.cons (h : isToken c = false) : Ends (c :: s) := by
  simpa [Ends] using h

theorem Ends.takeWhile (h : Ends s) : s.takeWhile isToken = [] := by
  cases s
  case nil      => rfl
  case cons c s => exact List.takeWhile_cons_of_neg <| by simp [h c rfl]

theorem takeWhile_token (ht : ∀ c ∈ t, isToken c) (h : Ends s) :
    (t ++ s).takeWhile isToken = t := by
  rw [List.takeWhile_append_of_pos ht, h.takeWhile, List.append_nil]

theorem dropWhile_token (ht : ∀ c ∈ t, isToken c) (h : Ends s) :
    (t ++ s).dropWhile isToken = s := by
  have hs := List.takeWhile_append_dropWhile (p := isToken) (l := t ++ s)
  rw [takeWhile_token ht h] at hs
  exact List.append_cancel_left hs

-- What the texts of values start with.
def isStart (c : Char) : Bool :=
  c = quote || c = '[' || c = '{' || isToken c

theorem exists_dump_cons (l : fl.Lawful) (v : Value F) :
    ∃ c t, dump fl v = c :: t ∧ isStart c := by
  have of_token {t : List Char} (hn : t ≠ []) (ht : ∀ c ∈ t, isToken c) :
      ∃ c t', t = c :: t' ∧ isStart c := by
    obtain ⟨c, t', rfl⟩ := List.exists_cons_of_ne_nil hn
    exact ⟨c, t', rfl, by simp [isStart, ht c (.head _)]⟩
  cases v <;> rw [dump]
  case null    => exact ⟨_, _, rfl, by decide⟩
  case bool b  => cases b <;> exact ⟨_, _, rfl, by decide⟩
  case int n   => exact of_token (writeInt_ne_nil n) (isToken_writeInt n)
  case float x => exact of_token (l.ne_nil x) (l.token x)
  case str     => exact ⟨_, _, rfl, by decide⟩
  case arr     => exact ⟨_, _, rfl, by decide⟩
  case obj     => exact ⟨_, _, rfl, by decide⟩

theorem ne_of_isStart (h : isStart c) (hd : isStart d = false) : c ≠ d := by
  rintro rfl
  simp [h] at hd

theorem skipSpace_cons (h : isSpace c = false) (s : List Char) : skipSpace (c :: s) = c :: s :=
  List.dropWhile_cons_of_neg <| by simp [h]

theorem skipSpace_space (s : List Char) : skipSpace (' ' :: s) = skipSpace s :=
  rfl

theorem isSpace_of_isStart (h : isStart c) : isSpace c = false := by
  simp only [isSpace, Bool.or_eq_false_iff, decide_eq_false_iff_not]
  exact ⟨⟨⟨ne_of_isStart h (by decide), ne_of_isStart h (by decide)⟩, ne_of_isStart h (by decide)⟩,
    ne_of_isStart h (by decide)⟩

end Starts

section RoundTrip

variable {fl : Floats F} (l : fl.Lawful)

theorem scanOnce_token (hn : t ≠ []) (ht : ∀ c ∈ t, isToken c) (hs : Ends s) (n : Nat) :
    scanOnce fl (n + 1) (t ++ s) = (readToken fl t).map fun v => (v, s) := by
  obtain ⟨c, t, rfl⟩ := List.exists_cons_of_ne_nil hn
  have hc : isToken c := ht c (.head _)
  have ne {d} (hd : isToken d = false) : c ≠ d := by
    rintro rfl
    simp [hc] at hd
  rw [List.cons_append, scanOnce, if_neg (ne (by decide)), if_neg (ne (by decide)),
    if_neg (ne (by decide)), ← List.cons_append, takeWhile_token ht hs, dropWhile_token ht hs]

theorem readToken_int (h : t ∉ ["null".toList, "true".toList, "false".toList])
    (hi : readInt t = some n) : readToken fl t = some (.int n) := by
  simp only [List.mem_cons, List.not_mem_nil, or_false, not_or] at h
  rw [readToken, if_neg h.left, if_neg h.right.left, if_neg h.right.right, hi]

theorem readToken_float (h : t ∉ ["null".toList, "true".toList, "false".toList])
    (hi : readInt t = none) : readToken fl t = (fl.read t).map .float := by
  simp only [List.mem_cons, List.not_mem_nil, or_false, not_or] at h
  rw [readToken, if_neg h.left, if_neg h.right.left, if_neg h.right.right, hi]

theorem foldl_setItem {ds ms : List (String × β)} (h : ((ds ++ ms).map Prod.fst).Nodup) :
    ms.foldl setItem ds = ds ++ ms := by
  induction ms generalizing ds
  case nil => simp
  case cons m ms hi =>
    have hm : m.1 ∉ ds.map Prod.fst := fun hm => by
      rw [List.map_append, List.map_cons, List.nodup_append] at h
      exact h.right.right _ hm _ List.mem_cons_self rfl
    have hs : ds ++ m :: ms = (ds ++ [m]) ++ ms := by simp
    rw [List.foldl_cons, setItem, if_neg hm, hs]
    exact hi (hs ▸ h)

theorem dictOf_eq_self {ms : List (String × β)} (h : (ms.map Prod.fst).Nodup) : dictOf ms = ms :=
  foldl_setItem h

theorem exists_dumpElements_cons (l : fl.Lawful) (v : Value F) (vs : List (Value F)) :
    ∃ c t, dumpElements fl (v :: vs) = c :: t ∧ isStart c := by
  obtain ⟨c, t, h, hc⟩ := exists_dump_cons l v
  cases vs
  case nil  => exact ⟨c, t, h, hc⟩
  case cons => exact ⟨c, _, by rw [dumpElements, h, List.cons_append], hc⟩

theorem skipSpace_dump (l : fl.Lawful) (v : Value F) (s : List Char) :
    skipSpace (dump fl v ++ s) = dump fl v ++ s := by
  obtain ⟨c, t, h, hc⟩ := exists_dump_cons l v
  rw [h, List.cons_append, skipSpace_cons (isSpace_of_isStart hc)]

theorem skipSpace_dumpElements (l : fl.Lawful) (v : Value F) (vs : List (Value F)) (s : List Char) :
    skipSpace (dumpElements fl (v :: vs) ++ s) = dumpElements fl (v :: vs) ++ s := by
  obtain ⟨c, t, h, hc⟩ := exists_dumpElements_cons l v vs
  rw [h, List.cons_append, skipSpace_cons (isSpace_of_isStart hc)]

theorem exists_dumpMembers_cons (fl : Floats F) (m : String × Value F) (ms) :
    ∃ t, dumpMembers fl (m :: ms) = quote :: t := by
  obtain ⟨k, v⟩ := m
  cases ms <;> exact ⟨_, rfl⟩

section Scan

variable {n : Nat} {s s' : List Char}

theorem scanOnce_array (h : skipSpace s = c :: s') (hc : c ≠ ']') :
    scanOnce fl (n + 1) ('[' :: s) =
      (scanElements fl n (c :: s')).map fun x => (.arr x.1, x.2) := by
  rw [scanOnce, if_neg (by decide), if_pos rfl, h]
  split
  case h_1 heq => exact absurd (List.cons.inj heq).left hc
  case h_2     => rfl

theorem scanOnce_object (h : skipSpace s = c :: s') (hc : c ≠ '}') :
    scanOnce fl (n + 1) ('{' :: s) =
      (scanMembers fl n (c :: s')).map fun x => (.obj <| dictOf x.1, x.2) := by
  rw [scanOnce, if_neg (by decide), if_neg (by decide), if_pos rfl, h]
  split
  case h_1 heq => exact absurd (List.cons.inj heq).left hc
  case h_2     => rfl

theorem scanElements_last (h : scanOnce fl n s = some (v, ']' :: s')) :
    scanElements fl (n + 1) s = some ([v], s') := by
  rw [scanElements, h]
  rfl

theorem scanElements_next (h : scanOnce fl n s = some (v, ',' :: s')) :
    scanElements fl (n + 1) s =
      (scanElements fl n (skipSpace s')).map fun x => (v :: x.1, x.2) := by
  rw [scanElements, h]
  simp only [Option.pure_def, Option.bind_eq_bind, Option.bind_some]
  rw [skipSpace_cons (by decide)]
  cases hr : scanElements fl n (skipSpace s') <;> simp [hr]

theorem scanMembers_last (hk : scanString s = some (k.toList, ':' :: t))
    (h : scanOnce fl n (skipSpace t) = some (v, '}' :: s')) :
    scanMembers fl (n + 1) (quote :: s) = some ([(k, v)], s') := by
  rw [scanMembers, hk]
  simp only [guard, if_true, Option.pure_def, Option.bind_eq_bind, Option.bind_some]
  rw [skipSpace_cons (by decide)]
  simp only [h, Option.bind_some]
  rw [skipSpace_cons (by decide)]
  simp

theorem scanMembers_next (hk : scanString s = some (k.toList, ':' :: t))
    (h : scanOnce fl n (skipSpace t) = some (v, ',' :: u)) :
    scanMembers fl (n + 1) (quote :: s) =
      (scanMembers fl n (skipSpace u)).map fun x => ((k, v) :: x.1, x.2) := by
  rw [scanMembers, hk]
  simp only [guard, if_true, Option.pure_def, Option.bind_eq_bind, Option.bind_some]
  rw [skipSpace_cons (by decide)]
  simp only [h, Option.bind_some]
  rw [skipSpace_cons (by decide)]
  cases hr : scanMembers fl n (skipSpace u) <;> simp [hr]

end Scan

-- With enough fuel, what was written is read up to its end.
def Reads (fl : Floats F) (v : Value F) : Prop :=
  ∀ {n s}, (dump fl v).length ≤ n → Ends s → scanOnce fl n (dump fl v ++ s) = some (v, s)

def ReadsElements (fl : Floats F) (vs : List (Value F)) : Prop :=
  ∀ {n s}, (dumpElements fl vs).length < n →
    scanElements fl n (dumpElements fl vs ++ ']' :: s) = some (vs, s)

def ReadsMembers (fl : Floats F) (ms : List (String × Value F)) : Prop :=
  ∀ {n s}, (dumpMembers fl ms).length < n →
    scanMembers fl n (dumpMembers fl ms ++ '}' :: s) = some (ms, s)

namespace Reads

theorem token (hd : dump fl v = t) (hn : t ≠ []) (ht : ∀ c ∈ t, isToken c)
    (hr : readToken fl t = some v) : Reads fl v := by
  intro n s hl hs
  rw [hd] at hl ⊢
  cases n
  case zero   => exact absurd (List.eq_nil_of_length_eq_zero (by omega)) hn
  case succ n => rw [scanOnce_token hn ht hs, hr, Option.map_some]

theorem int (fl : Floats F) (n : Int) : Reads fl (.int n) := by
  refine token (by rw [dump]) (writeInt_ne_nil n) (isToken_writeInt n) ?_
  exact readToken_int (writeInt_not_word n) (readInt_writeInt n)

theorem float (l : fl.Lawful) (x : F) : Reads fl (.float x) := by
  refine token (by rw [dump]) (l.ne_nil x) (l.token x) ?_
  rw [readToken_float (l.not_word x) (l.not_int x), l.read_repr, Option.map_some]

theorem str (fl : Floats F) (t : String) : Reads fl (.str t) := by
  intro n s hl _
  cases n
  case zero   => simp [dump, writeString] at hl
  case succ n =>
    simp only [dump, writeString, List.cons_append, List.append_assoc, List.nil_append]
    rw [scanOnce, if_pos rfl, scanString_writeString, Option.map_some, String.ofList_toList]

theorem arr_nil (fl : Floats F) : Reads fl (.arr []) := by
  intro n s hl _
  cases n
  case zero   => simp [dump] at hl
  case succ n => rfl

theorem obj_nil (fl : Floats F) : Reads fl (.obj []) := by
  intro n s hl _
  cases n
  case zero   => simp [dump] at hl
  case succ n => rfl

theorem arr (l : fl.Lawful) (h : ReadsElements fl (v :: vs)) : Reads fl (.arr (v :: vs)) := by
  intro n s hl _
  simp only [dump, List.cons_append, List.append_assoc, List.nil_append, List.length_cons,
    List.length_append, List.length_nil] at hl ⊢
  cases n
  case zero   => omega
  case succ n =>
    obtain ⟨c, t, ht, hc⟩ := exists_dumpElements_cons l v vs
    have hs := skipSpace_dumpElements l v vs (']' :: s)
    have hr := h (n := n) (s := s) (by omega)
    rw [ht, List.cons_append] at hs hr ⊢
    rw [scanOnce_array hs (ne_of_isStart hc (by decide)), hr, Option.map_some]

theorem obj (h : ReadsMembers fl (m :: ms)) (hd : ((m :: ms).map Prod.fst).Nodup) :
    Reads fl (.obj (m :: ms)) := by
  intro n s hl _
  simp only [dump, List.cons_append, List.append_assoc, List.nil_append, List.length_cons,
    List.length_append, List.length_nil] at hl ⊢
  cases n
  case zero   => omega
  case succ n =>
    obtain ⟨t, ht⟩ := exists_dumpMembers_cons fl m ms
    have hr := h (n := n) (s := s) (by omega)
    rw [ht, List.cons_append] at hr ⊢
    rw [scanOnce_object (skipSpace_cons (by decide) _) (by decide), hr, Option.map_some,
      dictOf_eq_self hd]

end Reads

namespace ReadsElements

theorem last (h : Reads fl v) : ReadsElements fl [v] := by
  intro n s hl
  cases n
  case zero   => omega
  case succ n =>
    rw [dumpElements] at hl ⊢
    exact scanElements_last <| h (by omega) (.cons (by decide))

theorem next (l : fl.Lawful) (h : Reads fl v) (hs : ReadsElements fl (w :: vs)) :
    ReadsElements fl (v :: w :: vs) := by
  intro n s hl
  simp only [dumpElements, List.length_append, List.length_cons] at hl
  cases n
  case zero   => omega
  case succ n =>
    simp only [dumpElements, List.append_assoc, List.cons_append]
    rw [scanElements_next <| h (by omega) (.cons (by decide))]
    rw [skipSpace_space, skipSpace_dumpElements l, hs (by omega), Option.map_some]

end ReadsElements

namespace ReadsMembers

theorem last (l : fl.Lawful) (h : Reads fl v) : ReadsMembers fl [(k, v)] := by
  intro n s hl
  cases n
  case zero   => omega
  case succ n =>
    simp only [dumpMembers, writeString, List.length_append, List.length_cons,
      List.length_nil] at hl
    simp only [dumpMembers, writeString, List.append_assoc, List.cons_append, List.nil_append]
    refine scanMembers_last (scanString_writeString _ _) ?_
    rw [skipSpace_space, skipSpace_dump l]
    exact h (by omega) (.cons (by decide))

theorem next (l : fl.Lawful) (h : Reads fl v) (hs : ReadsMembers fl (m :: ms)) :
    ReadsMembers fl ((k, v) :: m :: ms) := by
  intro n s hl
  obtain ⟨t, ht⟩ := exists_dumpMembers_cons fl m ms
  cases n
  case zero   => omega
  case succ n =>
    simp only [dumpMembers, writeString, List.length_append, List.length_cons,
      List.length_nil] at hl
    simp only [dumpMembers, writeString, List.append_assoc, List.cons_append, List.nil_append]
    rw [scanMembers_next (u := ' ' :: (dumpMembers fl (m :: ms) ++ '}' :: s))
      (scanString_writeString _ _), skipSpace_space]
    · have hr := hs (n := n) (s := s) (by omega)
      rw [ht, List.cons_append] at hr ⊢
      rw [skipSpace_cons (by decide), hr, Option.map_some]
    · rw [skipSpace_space, skipSpace_dump l]
      exact h (by omega) (.cons (by decide))

end ReadsMembers

mutual

theorem Reads.of_valid (l : fl.Lawful) : ∀ v : Value F, v.valid → Reads fl v
  | .null, _           =>
    Reads.token (t := "null".toList) rfl (by decide) (List.all_eq_true.mp rfl) rfl
  | .bool true, _      =>
    Reads.token (t := "true".toList) rfl (by decide) (List.all_eq_true.mp rfl) rfl
  | .bool false, _     =>
    Reads.token (t := "false".toList) rfl (by decide) (List.all_eq_true.mp rfl) rfl
  | .int n, _          => Reads.int fl n
  | .float x, _        => Reads.float l x
  | .str s, _          => Reads.str fl s
  | .arr [], _         => Reads.arr_nil fl
  | .arr (v :: vs), h  =>
    Reads.arr l <| ReadsElements.of_valid l (v :: vs) (List.cons_ne_nil v vs) h
  | .obj [], _         => Reads.obj_nil fl
  | .obj (m :: ms), h  =>
    have h := Bool.and_eq_true_iff.mp h
    Reads.obj (ReadsMembers.of_valid l (m :: ms) (List.cons_ne_nil m ms) h.right)
      (of_decide_eq_true h.left)

theorem ReadsElements.of_valid (l : fl.Lawful) : ∀ vs : List (Value F), vs ≠ [] → allValid vs →
    ReadsElements fl vs
  | [], hn, _          => absurd rfl hn
  | [v], _, h          => ReadsElements.last <| Reads.of_valid l v (Bool.and_eq_true_iff.mp h).left
  | v :: w :: vs, _, h =>
    have h := Bool.and_eq_true_iff.mp h
    ReadsElements.next l (Reads.of_valid l v h.left)
      (ReadsElements.of_valid l (w :: vs) (List.cons_ne_nil w vs) h.right)

theorem ReadsMembers.of_valid (l : fl.Lawful) : ∀ ms : List (String × Value F), ms ≠ [] →
    membersValid ms → ReadsMembers fl ms
  | [], hn, _               => absurd rfl hn
  | [(_, v)], _, h          =>
    ReadsMembers.last l <| Reads.of_valid l v (Bool.and_eq_true_iff.mp h).left
  | (_, v) :: m :: ms, _, h =>
    have h := Bool.and_eq_true_iff.mp h
    ReadsMembers.next l (Reads.of_valid l v h.left)
      (ReadsMembers.of_valid l (m :: ms) (List.cons_ne_nil m ms) h.right)

end

theorem parse_dump (l : fl.Lawful) (h : v.valid) : parse fl (dump fl v) = some v := by
  have hs := skipSpace_dump l v []
  have hr := Reads.of_valid l v h (n := (dump fl v).length + 1) (s := []) (by omega)
    (by simp [Ends])
  rw [List.append_nil] at hs hr
  rw [parse, hs, hr]
  rfl

end RoundTrip
end JsonText
