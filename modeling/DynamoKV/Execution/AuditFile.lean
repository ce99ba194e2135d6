import DynamoKV.Execution.Audit
import DynamoKV.Lib.JsonText.Lines

-- The file in which the audit log is kept.
namespace DynamoKV.Audit

open JsonText

section File

variable {F : Type} (fl : Floats F) (clock : Nat → F)

def Entry.dict (e : Entry) : List (String × Value F) :=
  [("timestamp",   .float <| clock e.timestamp),
   ("client_id",   .str e.clientId),
   ("source_ip",   e.sourceIp.elim .null .str),
   ("method",      .str e.method),
   ("path",        .str e.path),
   ("key",         e.key.elim .null .str),
   ("namespace",   e.ns.elim .null .str),
   ("status_code", .int e.statusCode),
   ("outcome",     .str e.outcome)]

-- The status of the response, if there is one, and the new contents of the file.
def dispatchFile (file : List Char) (x : Exchange) : Option Nat × List Char :=
  match callNext x.ending with
  | none            => (none, file)
  | some statusCode =>
    let entry := writeEntry x.request statusCode x.timestamp
    (some statusCode, file ++ dumpLine fl (.obj <| entry.dict clock))

def runFile (file : List Char) (xs : List Exchange) : List Char :=
  xs.foldl (fun file x => (dispatchFile fl clock file x).2) file

variable {fl clock} {xs : List Exchange}

theorem Entry.valid_dict (e : Entry) : (Value.obj <| e.dict clock).valid := by
  have hs (s : Option String) : (s.elim .null .str : Value F).valid := by cases s <;> rfl
  simp [Value.valid, membersValid, Entry.dict, hs]

theorem runFile_dumpLines (log : List Entry) (xs : List Exchange) :
    runFile fl clock (dumpLines fl <| log.map fun e => .obj <| e.dict clock) xs =
      dumpLines fl ((run log xs).map fun e => .obj <| e.dict clock) := by
  induction xs generalizing log
  case nil          => rfl
  case cons x xs hi =>
    rw [run, List.foldl_cons, ← run, ← hi, runFile, List.foldl_cons, ← runFile]
    congr 1
    unfold dispatchFile dispatch
    cases callNext x.ending
    case none            => rfl
    case some statusCode => simp [dumpLines]

-- Whatever clients and peers have sent, there is one line for each entry, from which it can be
-- read.
theorem parseLines_runFile (l : fl.Lawful) (clock : Nat → F) (log : List Entry)
    (xs : List Exchange) :
    let file := runFile fl clock (dumpLines fl <| log.map fun e => .obj <| e.dict clock) xs
    parseLines fl file = some ((run log xs).map fun e => .obj <| e.dict clock) ∧
    file.count '\n' = (run log xs).length := by
  intro file
  have hf : file = dumpLines fl ((run log xs).map fun e => .obj <| e.dict clock) :=
    runFile_dumpLines log xs
  rw [hf]
  refine ⟨parseLines_dumpLines l fun v hv => ?_, ?_⟩
  · obtain ⟨e, -, rfl⟩ := List.mem_map.mp hv
    exact e.valid_dict
  · rw [count_newline_dumpLines l, List.length_map]

end File

section Example

-- The only time there is, as seconds since the epoch.
def oneTime : Floats Unit where
  repr _ := "1.5".toList
  read t := if t = "1.5".toList then some () else none

theorem lawful_oneTime : oneTime.Lawful where
  read_repr _ := rfl
  ne_nil      := by decide
  token _     := List.all_eq_true.mp rfl
  not_int     := by decide
  not_word    := by decide

-- The key has a line break and what looks like another entry in it. URLs drop line breaks.
def forging : HttpRequest :=
  ⟨"PUT", "/v1/keys/k{}", some "k\n{}", some "client-a", none⟩

theorem parseLines_runFile_forging :
    let file := runFile oneTime (fun _ => ()) [] [⟨forging, .response 200, 0⟩]
    parseLines oneTime file = some [.obj
      [("timestamp", .float ()), ("client_id", .str "client-a"), ("source_ip", .null),
        ("method", .str "PUT"), ("path", .str "/v1/keys/k{}"), ("key", .str "k\n{}"),
        ("namespace", .str "default"), ("status_code", .int 200), ("outcome", .str "allowed")]] ∧
    file.count '\n' = 1 :=
  parseLines_runFile lawful_oneTime (fun _ => ()) [] [⟨forging, .response 200, 0⟩]

end Example
end DynamoKV.Audit
