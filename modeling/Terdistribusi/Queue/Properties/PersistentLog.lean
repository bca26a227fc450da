import Terdistribusi.Queue.PersistentLog

/-!
# Torn lines

`append` writes behind what a crash has left, and only then the newline. A record that comes behind
a torn line shares that line, which is no JSON value (`Json.not_isText_append`), and is lost. So the
completed records are replayed as long as each of them begins on a fresh line, and no longer
(`replay_completed_iff`).

The file is what is ended by newlines, and an open line (`Shape`). A step writes behind the open
line, and an append that completes ends it.
-/

namespace Queue

open Infra

namespace PersistentLog

/-! ## Lines -/

theorem lines_ne_nil : ∀ {text : List Char}, text ≠ [] → lines text ≠ []
  | [], h => absurd rfl h
  | c :: text, _ => by
    rw [lines]
    split
    · simp
    · split <;> simp

theorem lines_append : ∀ {a : List Char}, FreshLine a → ∀ b : List Char,
    lines (a ++ b) = lines a ++ lines b
  | [], _, _ => rfl
  | c :: a, h, b => by
    rw [List.cons_append, lines, lines]
    by_cases ha : a = []
    · subst ha
      obtain rfl : c = '\n' := h c rfl
      simp [lines]
    · have hlast : FreshLine a := by
        intro c' hc'
        refine h c' ?_
        rwa [List.getLast?_cons_of_ne_nil ha]
      rw [lines_append hlast b]
      split
      · rfl
      · cases hlines : lines a with
        | nil => exact absurd hlines (lines_ne_nil ha)
        | cons line rest => rfl

/-- A text without newlines is one line, once it is ended. -/
theorem lines_ended : ∀ {a : List Char}, '\n' ∉ a → lines (a ++ ['\n']) = [a ++ ['\n']]
  | [], _ => rfl
  | c :: a, h => by
    obtain ⟨hc, ha⟩ := not_or.mp (mt List.mem_cons.mpr h)
    rw [List.cons_append, lines, if_neg (Ne.symm hc), lines_ended ha]

theorem freshLine_ended (a : List Char) : FreshLine (a ++ ['\n']) := by
  intro c hc
  rw [List.getLast?_concat] at hc
  exact (Option.some.inj hc).symm

variable {Entry : Type} (json : JsonModule Entry)

theorem replay_append {a : List Char} (h : FreshLine a) (b : List Char) :
    replay json (a ++ b) = replay json a ++ replay json b := by
  rw [replay, lines_append h, List.filterMap_append, replay, replay]

theorem replay_ended {a : List Char} (h : '\n' ∉ a) :
    replay json (a ++ ['\n']) = (decode json (a ++ ['\n'])).toList := by
  rw [replay, lines_ended h]
  cases hd : decode json (a ++ ['\n']) <;> simp [hd]

/-! ## One line -/

/-- Nothing but the newline is stripped from a line of objects. -/
theorem strip_ended {a : List Char} (hhead : a.head? = some '{') (hlast : a.getLast? = some '}') :
    strip (a ++ ['\n']) = a := by
  obtain ⟨b, rfl⟩ := List.head?_eq_some_iff.mp hhead
  rw [strip, List.cons_append, List.dropWhile_cons_of_neg (by decide), ← List.cons_append,
    List.rdropWhile_concat_pos _ _ _ (by decide), List.rdropWhile_eq_self_iff]
  intro hne
  have hlast' : ('{' :: b).getLast hne = '}' := by
    rw [List.getLast?_eq_some_getLast hne] at hlast
    exact Option.some.inj hlast
  rw [hlast']
  decide

theorem getLast?_of_isObject {o : List Char} (h : Json.IsObject o) : o.getLast? = some '}' := by
  obtain ⟨b, rfl, _⟩ := h.brackets
  rw [← List.cons_append, List.getLast?_concat]

variable {json}

theorem decode_encoded (hjson : json.Documented) (record : Entry) :
    decode json (encoded json record) = some record := by
  have hobject := hjson.isObject_dumps record
  have hne : json.dumps record ≠ [] := fun hnil => by
    have hhead := hobject.2
    rw [hnil] at hhead
    cases hhead
  rw [decode, encoded, strip_ended hobject.2 (getLast?_of_isObject hobject), if_neg hne]
  exact hjson.loads_dumps record

/-- A record behind a torn line is lost. -/
theorem decode_torn (hjson : json.Documented) {torn : List Char} (htorn : torn.head? = some '{')
    (record : Entry) : decode json (torn ++ encoded json record) = none := by
  have hobject := hjson.isObject_dumps record
  have hlast : (torn ++ json.dumps record).getLast? = some '}' := by
    rw [List.getLast?_append, getLast?_of_isObject hobject, Option.some_or]
  have hhead : (torn ++ json.dumps record).head? = some '{' := by
    rw [List.head?_append, htorn, Option.some_or]
  rw [decode, encoded, ← List.append_assoc, strip_ended hhead hlast]
  split
  · rfl
  · cases hloads : json.loads (torn ++ json.dumps record) with
    | none => rfl
    | some record' =>
      exact absurd (hjson.isText_of_loads _ _ hloads) (Json.not_isText_append htorn hobject)

theorem not_mem_dumps (hjson : json.Documented) (record : Entry) : '\n' ∉ json.dumps record :=
  fun h => absurd (hjson.printable_dumps record '\n' h) (by decide)

/-! ## Runs -/

/-- The file is ended lines, and an open line that begins as a record does. -/
structure Shape (file ended torn : List Char) : Prop where
  file : file = ended ++ torn
  fresh : FreshLine ended
  no_newline : '\n' ∉ torn
  begins : ∀ c ∈ torn.head?, c = '{'

theorem Shape.freshLine_iff {file ended torn : List Char} (h : Shape file ended torn) :
    FreshLine file ↔ torn = [] := by
  rw [h.file]
  constructor
  · intro hfresh
    rcases List.eq_nil_or_concat torn with rfl | ⟨torn, c, rfl⟩
    · rfl
    · have hc : c = '\n' := hfresh c (by simp [← List.append_assoc])
      exact absurd (by simp [hc]) h.no_newline
  · rintro rfl
    rw [List.append_nil]
    exact h.fresh

/-- What a crash leaves of a line has no newline. -/
theorem Shape.crash (hjson : json.Documented) {file ended torn : List Char}
    (h : Shape file ended torn) {record : Entry} {kept : ℕ}
    (hkept : kept < (encoded json record).length) :
    Shape (file ++ (encoded json record).take kept) ended
      (torn ++ (json.dumps record).take kept) := by
  have hle : kept ≤ (json.dumps record).length := by
    rw [encoded, List.length_append] at hkept
    exact Nat.le_of_lt_succ hkept
  have htake : (encoded json record).take kept = (json.dumps record).take kept := by
    rw [encoded, List.take_append_of_le_length hle]
  refine ⟨by rw [htake, h.file, List.append_assoc], h.fresh, ?_, fun c hc => ?_⟩
  · rw [List.mem_append, not_or]
    exact ⟨h.no_newline, fun hmem => not_mem_dumps hjson record (List.mem_of_mem_take hmem)⟩
  · rw [List.head?_append] at hc
    cases htorn : torn.head? with
    | some c' =>
      rw [htorn, Option.some_or] at hc
      exact Option.some.inj hc ▸ h.begins c' htorn
    | none =>
      rw [htorn, Option.none_or, List.head?_take] at hc
      split at hc
      · cases hc
      · rw [(hjson.isObject_dumps record).2] at hc
        exact (Option.some.inj hc).symm

/-- What `replay` finds after an append has completed. -/
theorem Shape.replay_append (hjson : json.Documented) {file ended torn : List Char}
    (h : Shape file ended torn) (record : Entry) :
    replay json (append json record file) =
      replay json ended ++ if torn = [] then [record] else [] := by
  have hline : '\n' ∉ torn ++ json.dumps record := by
    rw [List.mem_append, not_or]
    exact ⟨h.no_newline, not_mem_dumps hjson record⟩
  have hfile : append json record file = ended ++ ((torn ++ json.dumps record) ++ ['\n']) := by
    simp [append, encoded, h.file]
  rw [hfile, PersistentLog.replay_append json h.fresh, replay_ended json hline]
  split
  · next hnil => rw [hnil, List.nil_append, ← encoded, decode_encoded hjson, Option.toList_some]
  · next hne =>
    have hhead : torn.head? = some '{' := by
      obtain ⟨c, rest, rfl⟩ := List.exists_cons_of_ne_nil hne
      exact congrArg some (h.begins c rfl)
    rw [List.append_assoc, ← encoded, decode_torn hjson hhead, Option.toList_none]

/-- The ended lines are the completed records. -/
def Complete (json : JsonModule Entry) (s : State Entry) : Prop :=
  ∃ ended torn, Shape s.file ended torn ∧ replay json ended = s.completed

theorem Complete.sublist {s : State Entry} (h : Complete json s) :
    s.completed.Sublist (replay json s.file) := by
  obtain ⟨ended, torn, hshape, hreplay⟩ := h
  rw [hshape.file, PersistentLog.replay_append json hshape.fresh, hreplay]
  exact List.sublist_append_left _ _

theorem Complete.step (hjson : json.Documented) {s s' : State Entry} {e : Event Entry}
    (h : Complete json s) (hfresh : ∀ record, e = .append record → FreshLine s.file)
    (hs : step json s e = some s') : Complete json s' := by
  obtain ⟨ended, torn, hshape, hreplay⟩ := h
  cases e with
  | append record =>
    cases hs
    have hended : FreshLine (append json record s.file) := by
      rw [append, encoded, ← List.append_assoc]
      exact freshLine_ended _
    refine ⟨append json record s.file, [], ⟨(List.append_nil _).symm, hended, by simp, by simp⟩, ?_⟩
    rw [hshape.replay_append hjson, if_pos (hshape.freshLine_iff.mp (hfresh record rfl)), hreplay]
  | crash record kept =>
    obtain ⟨hkept, hs⟩ := Option.ite_none_right_eq_some.mp hs
    cases hs
    exact ⟨ended, _, hshape.crash hjson hkept, hreplay⟩

/-- A record behind a torn line is missing. -/
theorem Complete.freshLine (hjson : json.Documented) {s s' : State Entry} {e : Event Entry}
    (h : Complete json s) (hs : PersistentLog.step json s e = some s')
    (hsub : s'.completed.Sublist (replay json s'.file)) {record : Entry} (he : e = .append record) :
    FreshLine s.file := by
  obtain ⟨ended, torn, hshape, hreplay⟩ := h
  subst he
  cases hs
  rw [hshape.freshLine_iff]
  by_contra htorn
  rw [hshape.replay_append hjson, if_neg htorn, hreplay, List.append_nil] at hsub
  have hlength := hsub.length_le
  rw [List.length_append, List.length_singleton] at hlength
  omega

theorem complete_empty (json : JsonModule Entry) : Complete json {} :=
  ⟨[], [], ⟨rfl, by simp [FreshLine], by simp, by simp⟩, rfl⟩

/-! ## A record that is lost -/

/-- The acks of two messages. -/
inductive Ack
  | m
  | n
  deriving DecidableEq

def Ack.msgId : Ack → Char
  | .m => 'm'
  | .n => 'n'

/-- The members of the object of an ack. -/
def ackMembers (msgId : Char) : List Char :=
  ['"', 'o', 'p', '"', ':', ' ', '"', 'a', 'c', 'k', '"', ',', ' ', '"', 'm', 's', 'g', '_', 'i',
    'd', '"', ':', ' ', '"', msgId, '"']

/-- `json` on the two records. -/
def ackJson : JsonModule Ack where
  dumps := fun record => '{' :: (ackMembers record.msgId ++ ['}'])
  loads := fun text =>
    if text = '{' :: (ackMembers 'm' ++ ['}']) then some .m
    else if text = '{' :: (ackMembers 'n' ++ ['}']) then some .n
    else none

theorem derives_ackMembers {msgId : Char} (h : msgId ≠ '"' ∧ msgId ≠ '\\') :
    Json.Derives .members (ackMembers msgId) := by
  have hspace : Json.Ws [' '] := by simp [Json.Ws]
  have hnil : Json.Ws [] := by simp [Json.Ws]
  have hack : Json.Derives .element ([' '] ++ ('"' :: (['a', 'c', 'k'] ++ ['"']) ++ [])) :=
    .element hspace (.string (.of_forall (by simp))) hnil
  have hid : Json.Derives .element ([' '] ++ ('"' :: ([msgId] ++ ['"']) ++ [])) :=
    .element hspace (.string (.of_forall (by simpa using h))) hnil
  have hop : Json.StringBody ['o', 'p'] := .of_forall (by simp)
  have hkey : Json.StringBody ['m', 's', 'g', '_', 'i', 'd'] := .of_forall (by simp)
  exact .members (.member hnil hop hnil hack) (.lastMember (.member hspace hkey hnil hid))

theorem ackJson_documented : ackJson.Documented where
  isObject_dumps := fun record =>
    ⟨.object (derives_ackMembers (by cases record <;> decide)), rfl⟩
  printable_dumps := fun record => by
    have hall : (ackJson.dumps record).all (fun c => ' ' ≤ c ∧ c ≤ '~') = true := by
      cases record <;> rfl
    simpa using hall
  loads_dumps := fun record => by cases record <;> rfl
  isText_of_loads := fun text record h => by
    have hobject (msgId : Char) (hid : msgId ≠ '"' ∧ msgId ≠ '\\') :
        Json.IsText ('{' :: (ackMembers msgId ++ ['}'])) := by
      have hnil : Json.Ws [] := by simp [Json.Ws]
      have htext := Json.Derives.element hnil (.object (derives_ackMembers hid)) hnil
      rwa [List.nil_append, List.append_nil] at htext
    unfold ackJson at h
    dsimp only at h
    split at h
    · next heq => exact heq ▸ hobject 'm' (by decide)
    · split at h
      · next heq => exact heq ▸ hobject 'n' (by decide)
      · cases h

/-- A crash leaves one character of an append; the next append completes. -/
def tornRun : LogRun ackJson :=
  Run.ofEvents _ _ [.crash .m 1, .append .n] (.append .m) (by decide +kernel)

/-- A record whose append has completed is not replayed. -/
theorem completed_lost : ackJson.Documented ∧ (tornRun.state 2).completed = [.n] ∧
    ¬ (tornRun.state 2).completed.Sublist (replay ackJson (tornRun.state 2).file) := by
  have hcompleted : (tornRun.state 2).completed = [.n] := by decide +kernel
  have hreplay : replay ackJson (tornRun.state 2).file = [] := by decide +kernel
  refine ⟨ackJson_documented, hcompleted, ?_⟩
  rw [hcompleted, hreplay]
  simp

/-! ## When the log is complete -/

/-- At every time of a run the completed records are replayed, in order, if and only if each append
that completes begins on a fresh line. -/
theorem replay_completed_iff (hjson : json.Documented) (r : LogRun json) :
    (∀ i ≤ r.length, (r.state i).completed.Sublist (replay json (r.state i).file)) ↔
      ∀ i < r.length, ∀ record, r.event i = .append record → FreshLine (r.state i).file := by
  have hstart : Complete json (r.state 0) := by
    rw [r.state_zero]
    exact complete_empty json
  constructor
  · intro hall
    have hfresh : ∀ i < r.length, Complete json (r.state i) →
        ∀ record, r.event i = .append record → FreshLine (r.state i).file :=
      fun i hi h record he => h.freshLine hjson (r.state_succ i hi) (hall (i + 1) hi) he
    have hcomplete : ∀ i ≤ r.length, Complete json (r.state i) :=
      r.induction hstart fun i hi h => h.step hjson (hfresh i hi h) (r.state_succ i hi)
    exact fun i hi => hfresh i hi (hcomplete i (Nat.le_of_lt hi))
  · intro hfresh i hi
    have hcomplete : ∀ i ≤ r.length, Complete json (r.state i) :=
      r.induction hstart fun i hi h => h.step hjson (hfresh i hi) (r.state_succ i hi)
    exact (hcomplete i hi).sublist

/-- A crash that leaves nothing, between two appends. -/
def cleanRun : LogRun ackJson :=
  Run.ofEvents _ _ [.append .m, .crash .n 0, .append .n, .crash .m 7] (.append .m)
    (by decide +kernel)

theorem replay_completed_iff_clean :
    (∀ i ≤ cleanRun.length,
        (cleanRun.state i).completed.Sublist (replay ackJson (cleanRun.state i).file)) ↔
      ∀ i < cleanRun.length, ∀ record, cleanRun.event i = .append record →
        FreshLine (cleanRun.state i).file :=
  replay_completed_iff ackJson_documented cleanRun

end PersistentLog

end Queue
