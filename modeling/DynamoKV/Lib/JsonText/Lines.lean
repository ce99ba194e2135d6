import DynamoKV.Lib.JsonText.RoundTrip
import DynamoKV.Lib.JsonText.WellFormed

-- Files with one JSON value on each line, as Python writes and reads them.
namespace JsonText

-- Files are opened in text mode, where every line break is read as `\n`.
def universalNewlines : List Char → List Char
  | []                => []
  | '\r' :: '\n' :: s => '\n' :: universalNewlines s
  | '\r' :: s         => '\n' :: universalNewlines s
  | c :: s            => c :: universalNewlines s

-- The lines of a text, with the line breaks that end them.
def lines : List Char → List (List Char)
  | []     => []
  | c :: s =>
    if c = '\n' then ['\n'] :: lines s
    else match lines s with
      | []      => [[c]]
      | l :: ls => (c :: l) :: ls

-- `str.isspace`
def isWhitespace (c : Char) : Bool :=
  let n := c.toNat
  (9 ≤ n && n ≤ 13) || (28 ≤ n && n ≤ 32) || (0x2000 ≤ n && n ≤ 0x200A) ||
    n ∈ [0x85, 0xA0, 0x1680, 0x2028, 0x2029, 0x202F, 0x205F, 0x3000]

def isBlank (line : List Char) : Bool :=
  line.all isWhitespace

section Floats

variable (fl : Floats F)

def dumpLine (v : Value F) : List Char :=
  dump fl v ++ ['\n']

def dumpLines (vs : List (Value F)) : List Char :=
  vs.flatMap <| dumpLine fl

-- Blank lines are skipped.
def parseLines (text : List Char) : Option (List (Value F)) :=
  ((lines <| universalNewlines text).filter (¬isBlank ·)).mapM <| parse fl

end Floats

section Lines

theorem universalNewlines_eq_self (h : '\r' ∉ s) : universalNewlines s = s := by
  induction s
  case nil          => rfl
  case cons c s hi =>
    obtain ⟨hc, hs⟩ := List.ne_and_not_mem_of_not_mem_cons h
    rw [universalNewlines, hi hs]
    · intro _ he _
      exact hc he.symm
    · exact hc ∘ Eq.symm

theorem lines_newline (h : '\n' ∉ l) (s : List Char) :
    lines (l ++ '\n' :: s) = (l ++ ['\n']) :: lines s := by
  induction l
  case nil          => simp [lines]
  case cons c l hi =>
    obtain ⟨hc, hl⟩ := List.ne_and_not_mem_of_not_mem_cons h
    rw [List.cons_append, lines, if_neg hc.symm, hi hl]
    rfl

theorem lines_flatMap {f : α → List Char} (h : ∀ x, '\n' ∉ f x) (xs : List α) :
    lines (xs.flatMap fun x => f x ++ ['\n']) = xs.map fun x => f x ++ ['\n'] := by
  induction xs
  case nil          => rfl
  case cons x xs hi =>
    rw [List.flatMap_cons, List.append_assoc, List.singleton_append, lines_newline (h x), hi,
      List.map_cons]

theorem Printable.not_mem (h : Printable s) (hc : isPrintable c = false) : c ∉ s :=
  fun hm => by simp [h c hm] at hc

-- The only blank that is printable is the space.
theorem eq_space_of_isWhitespace (hp : isPrintable c) (hw : isWhitespace c) : c = ' ' := by
  have hle {c d : Char} : c ≤ d ↔ c.toNat ≤ d.toNat := Iff.rfl
  have hl : ' '.toNat = 32 := rfl
  have hu : '~'.toNat = 126 := rfl
  simp only [isPrintable, Bool.and_eq_true, decide_eq_true_eq, hle, hl, hu] at hp
  simp only [isWhitespace, Bool.or_eq_true, Bool.and_eq_true, decide_eq_true_eq, List.mem_cons,
    List.not_mem_nil, or_false] at hw
  exact Char.toNat_inj.mp <| by omega

end Lines

section RoundTrip

variable {fl : Floats F} (l : fl.Lawful)
include l

theorem newline_not_mem_dump (v : Value F) : '\n' ∉ dump fl v :=
  (printable_dump l v).not_mem (by decide)

theorem dumpLine_not_blank (v : Value F) : isBlank (dumpLine fl v) = false := by
  obtain ⟨c, t, hd, hc⟩ := exists_dump_cons l v
  have hp : isPrintable c := printable_dump l v c <| hd ▸ .head _
  have hs : isWhitespace c = false := by
    by_contra hw
    exact ne_of_isStart hc (by decide) <| eq_space_of_isWhitespace hp <| by simpa using hw
  simp [isBlank, dumpLine, hd, hs]

theorem parse_dumpLine (h : v.valid) : parse fl (dumpLine fl v) = some v := by
  have hr := Reads.of_valid l v h (n := (dumpLine fl v).length + 1) (s := ['\n'])
    (by simp [dumpLine]; omega) (.cons (by decide))
  rw [dumpLine] at hr ⊢
  rw [parse, skipSpace_dump l, hr]
  rfl

theorem universalNewlines_dumpLines (vs : List (Value F)) :
    universalNewlines (dumpLines fl vs) = dumpLines fl vs := by
  refine universalNewlines_eq_self fun h => ?_
  obtain ⟨v, -, hv⟩ := List.mem_flatMap.mp h
  rcases List.mem_append.mp hv with hv | hv
  · exact (printable_dump l v).not_mem (by decide) hv
  · simp at hv

theorem mapM_parse_dumpLine {vs : List (Value F)} (h : ∀ v ∈ vs, v.valid) :
    (vs.map <| dumpLine fl).mapM (parse fl) = some vs := by
  induction vs
  case nil          => rfl
  case cons v vs hi =>
    obtain ⟨hv, hvs⟩ := List.forall_mem_cons.mp h
    simp [parse_dumpLine l hv, hi hvs]

-- What was written line by line is read as it was, whatever the strings in the values contain.
theorem parseLines_dumpLines (h : ∀ v ∈ vs, v.valid) :
    parseLines fl (dumpLines fl vs) = some vs := by
  have hl : lines (dumpLines fl vs) = vs.map (dumpLine fl) :=
    lines_flatMap (newline_not_mem_dump l) vs
  have hb : (vs.map (dumpLine fl)).filter (¬isBlank ·) = vs.map (dumpLine fl) := by
    refine List.filter_eq_self.mpr fun line hm => ?_
    obtain ⟨v, -, rfl⟩ := List.mem_map.mp hm
    simp [dumpLine_not_blank l v]
  rw [parseLines, universalNewlines_dumpLines l, hl, hb, mapM_parse_dumpLine l h]

theorem count_newline_dumpLines (vs : List (Value F)) :
    (dumpLines fl vs).count '\n' = vs.length := by
  induction vs
  case nil          => rfl
  case cons v vs hi =>
    have hv := List.count_eq_zero_of_not_mem <| newline_not_mem_dump l v
    rw [dumpLines, List.flatMap_cons, ← dumpLines, List.count_append, hi, dumpLine,
      List.count_append, hv, List.length_cons]
    simp [Nat.add_comm]

end RoundTrip
end JsonText
