import Terdistribusi.Infra.Json
import Mathlib.Data.List.DropRight

/-!
# The log file

`append` and `replay` of `PersistentLog` (`src/nodes/queue_node.py`) on the text of the file. A
crash can cut an `append` short; what it has written stays, and the next `PersistentLog` on the path
appends behind it. To open one changes nothing in the file, and a file that is missing is empty
here.

`json.dumps` and `json.loads` are arguments. The mirror in Redis is left out.
-/

namespace Queue

open Infra

/-- `json.dumps` of a record, and `json.loads`, `none` when it raises `JSONDecodeError`. -/
structure JsonModule (Entry : Type) where
  dumps : Entry → List Char
  loads : List Char → Option Entry

/-- What is documented of the two: a dict is written as an object in printable ASCII characters,
`loads` undoes `dumps`, and it fails on what is not one JSON value. -/
structure JsonModule.Documented {Entry : Type} (json : JsonModule Entry) : Prop where
  isObject_dumps : ∀ record, Json.IsObject (json.dumps record)
  printable_dumps : ∀ record, ∀ c ∈ json.dumps record, ' ' ≤ c ∧ c ≤ '~'
  loads_dumps : ∀ record, json.loads (json.dumps record) = some record
  isText_of_loads : ∀ text record, json.loads text = some record → Json.IsText text

namespace PersistentLog

/-! ## Lines -/

/-- The lines of a text, each with its newline. -/
def lines : List Char → List (List Char)
  | [] => []
  | c :: text =>
    if c = '\n' then [c] :: lines text
    else
      match lines text with
      | [] => [[c]]
      | line :: rest => (c :: line) :: rest

/-- `str.isspace` of an ASCII character. -/
def isSpace (c : Char) : Bool :=
  c = ' ' ∨ '\t' ≤ c ∧ c ≤ '\r' ∨ '\x1c' ≤ c ∧ c ≤ '\x1f'

/-- `line.strip()` -/
def strip (line : List Char) : List Char := (line.dropWhile isSpace).rdropWhile isSpace

variable {Entry : Type} (json : JsonModule Entry)

/-- `encoded + "\n"` -/
def encoded (record : Entry) : List Char := json.dumps record ++ ['\n']

def append (record : Entry) (file : List Char) : List Char := file ++ encoded json record

/-- What the loop of `replay` makes of a line. -/
def decode (line : List Char) : Option Entry :=
  let line := strip line
  if line = [] then none else json.loads line

def replay (file : List Char) : List Entry := (lines file).filterMap (decode json)

/-! ## Crashes -/

/-- The file, and the records whose `append` has completed. -/
structure State (Entry : Type) where
  file : List Char := []
  completed : List Entry := []

inductive Event (Entry : Type)
  | append (record : Entry)
  /-- An `append` of which a crash leaves the first `kept` characters. -/
  | crash (record : Entry) (kept : ℕ)
  deriving DecidableEq

def step (s : State Entry) : Event Entry → Option (State Entry)
  | .append record =>
    some { file := append json record s.file, completed := s.completed ++ [record] }
  | .crash record kept =>
    -- the `append` has not returned, whatever it has written
    if kept < (encoded json record).length then
      some { s with file := s.file ++ (encoded json record).take kept }
    else none

/-- Appends and crashes on a path where there was no file. -/
abbrev LogRun := Run (step json) {}

/-- The file is empty or ends with a newline. -/
def FreshLine (file : List Char) : Prop := ∀ c ∈ file.getLast?, c = '\n'

end PersistentLog

end Queue
