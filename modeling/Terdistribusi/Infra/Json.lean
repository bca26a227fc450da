import Terdistribusi.Infra.Run

/-!
# JSON texts

The grammar of JSON, and a scanner that counts brackets and keeps track of strings. The scanner goes
through a text of the grammar and comes back to where it was (`Derives.exec`); between the brackets
of an object it is inside at every place. So an object is not the end of a longer value that begins
with a bracket (`not_value_append`): if the rest begins outside a string it leaves the bracket open,
and if it begins inside one then strings and gaps change places and the last string is never closed
(`exec_flip`).

The grammar has more words than numbers and literals, and in a string the digits of a Unicode escape
are characters like others. A parser accepts fewer texts.
-/

namespace Infra.Json

/-! ## The grammar -/

/-- Whitespace. -/
def Ws (w : List Char) : Prop := ∀ c ∈ w, c = ' ' ∨ c = '\t' ∨ c = '\n' ∨ c = '\r'

/-- A number or a literal. -/
def Word (w : List Char) : Prop :=
  w ≠ [] ∧ ∀ c ∈ w, c.isAlphanum ∨ c = '+' ∨ c = '-' ∨ c = '.'

/-- The characters that come after a backslash. -/
def escapes : List Char := ['"', '\\', '/', 'b', 'f', 'n', 'r', 't', 'u']

/-- The text between the quotes of a string. -/
inductive StringBody : List Char → Prop
  | nil : StringBody []
  | char {c : Char} {b : List Char} (hquote : c ≠ '"') (hescape : c ≠ '\\') (hb : StringBody b) :
    StringBody (c :: b)
  | escape {c : Char} {b : List Char} (hc : c ∈ escapes) (hb : StringBody b) :
    StringBody ('\\' :: c :: b)

theorem StringBody.of_forall : ∀ {b : List Char}, (∀ c ∈ b, c ≠ '"' ∧ c ≠ '\\') → StringBody b
  | [], _ => .nil
  | c :: _, h =>
    .char (h c List.mem_cons_self).1 (h c List.mem_cons_self).2
      (.of_forall fun c' hc' => h c' (List.mem_cons_of_mem _ hc'))

inductive Symbol
  | value
  | element
  | elements
  | member
  | members

/-- The texts of a symbol of the grammar. -/
inductive Derives : Symbol → List Char → Prop
  | word {w : List Char} (hw : Word w) : Derives .value w
  | string {b : List Char} (hb : StringBody b) : Derives .value ('"' :: (b ++ ['"']))
  | emptyArray {w : List Char} (hw : Ws w) : Derives .value ('[' :: (w ++ [']']))
  | array {b : List Char} (hb : Derives .elements b) : Derives .value ('[' :: (b ++ [']']))
  | emptyObject {w : List Char} (hw : Ws w) : Derives .value ('{' :: (w ++ ['}']))
  | object {b : List Char} (hb : Derives .members b) : Derives .value ('{' :: (b ++ ['}']))
  | element {w v w' : List Char} (hw : Ws w) (hv : Derives .value v) (hw' : Ws w') :
    Derives .element (w ++ (v ++ w'))
  | lastElement {e : List Char} (he : Derives .element e) : Derives .elements e
  | elements {e es : List Char} (he : Derives .element e) (hes : Derives .elements es) :
    Derives .elements (e ++ ',' :: es)
  | member {w k w' e : List Char} (hw : Ws w) (hk : StringBody k) (hw' : Ws w')
    (he : Derives .element e) : Derives .member (w ++ ('"' :: (k ++ '"' :: (w' ++ ':' :: e))))
  | lastMember {m : List Char} (hm : Derives .member m) : Derives .members m
  | members {m ms : List Char} (hm : Derives .member m) (hms : Derives .members ms) :
    Derives .members (m ++ ',' :: ms)

/-- One value, with whitespace around it. -/
def IsText (s : List Char) : Prop := Derives .element s

/-- One object. -/
def IsObject (s : List Char) : Prop := Derives .value s ∧ s.head? = some '{'

/-! ## The scanner -/

inductive Mode
  | out
  | str
  | esc
  deriving DecidableEq

/-- Where a reader is: outside a string, in one, or after a backslash in one; and in how many
brackets. -/
structure Scanner where
  mode : Mode
  depth : ℕ
  deriving DecidableEq

def next : Scanner → Char → Option Scanner
  | ⟨.out, d⟩, c =>
    if c = '"' then some ⟨.str, d⟩
    else if c = '{' ∨ c = '[' then some ⟨.out, d + 1⟩
    else if c = '}' ∨ c = ']' then if d = 0 then none else some ⟨.out, d - 1⟩
    else if c = '\\' then none
    else some ⟨.out, d⟩
  | ⟨.str, d⟩, c =>
    if c = '"' then some ⟨.out, d⟩ else if c = '\\' then some ⟨.esc, d⟩ else some ⟨.str, d⟩
  | ⟨.esc, d⟩, c => if c ∈ escapes then some ⟨.str, d⟩ else none

/-- A character that means nothing outside a string. -/
abbrev Plain (c : Char) : Prop := c ∉ ['"', '{', '}', '[', ']', '\\']

theorem next_plain {c : Char} (h : Plain c) (d : ℕ) : next ⟨.out, d⟩ c = some ⟨.out, d⟩ := by
  simp only [Plain, List.mem_cons, List.not_mem_nil, or_false, not_or] at h
  obtain ⟨h₁, h₂, h₃, h₄, h₅, h₆⟩ := h
  simp [next, h₁, h₂, h₃, h₄, h₅, h₆]

theorem exec_plain : ∀ {w : List Char}, (∀ c ∈ w, Plain c) → ∀ d : ℕ,
    exec next ⟨.out, d⟩ w = some ⟨.out, d⟩
  | [], _, _ => rfl
  | c :: w, h, d => by
    rw [exec_cons, next_plain (h c List.mem_cons_self)]
    exact exec_plain (fun c hc => h c (List.mem_cons_of_mem _ hc)) d

theorem Ws.plain {w : List Char} (h : Ws w) : ∀ c ∈ w, Plain c := by
  intro c hc
  rcases h c hc with rfl | rfl | rfl | rfl <;> decide

theorem Word.plain {w : List Char} (h : Word w) : ∀ c ∈ w, Plain c := by
  intro c hc hmem
  have hall := h.2 c hc
  simp only [List.mem_cons, List.not_mem_nil, or_false] at hmem
  rcases hmem with rfl | rfl | rfl | rfl | rfl | rfl <;> exact absurd hall (by decide)

theorem StringBody.exec {b : List Char} (h : StringBody b) (d : ℕ) :
    exec next ⟨.str, d⟩ b = some ⟨.str, d⟩ := by
  induction h with
  | nil => rfl
  | char hquote hescape _ ih =>
    rw [exec_cons, next, if_neg hquote, if_neg hescape]
    exact ih
  | escape hc _ ih =>
    rw [exec_cons, show next ⟨.str, d⟩ '\\' = some ⟨.esc, d⟩ from rfl, Option.bind_some, exec_cons,
      next, if_pos hc]
    exact ih

/-- A string is a step from quote to quote. -/
theorem StringBody.exec_quoted {b rest : List Char} (h : StringBody b) (d : ℕ) :
    Infra.exec next ⟨.out, d⟩ ('"' :: (b ++ '"' :: rest)) = Infra.exec next ⟨.out, d⟩ rest := by
  rw [exec_cons, show next ⟨.out, d⟩ '"' = some ⟨.str, d⟩ from rfl, Option.bind_some, exec_append,
    h.exec, Option.bind_some, exec_cons]
  rfl

/-- Brackets around a text that the scanner goes through. -/
theorem exec_brackets {b : List Char} (h : ∀ d, exec next ⟨.out, d⟩ b = some ⟨.out, d⟩)
    {c c' : Char} (hc : c = '{' ∨ c = '[') (hc' : c' = '}' ∨ c' = ']') (d : ℕ) :
    exec next ⟨.out, d⟩ (c :: (b ++ [c'])) = some ⟨.out, d⟩ := by
  have hopen : next ⟨.out, d⟩ c = some ⟨.out, d + 1⟩ := by rcases hc with rfl | rfl <;> rfl
  have hclose : next ⟨.out, d + 1⟩ c' = some ⟨.out, d⟩ := by rcases hc' with rfl | rfl <;> rfl
  rw [exec_cons, hopen, Option.bind_some, exec_append, h, Option.bind_some, exec_cons, hclose]
  rfl

/-- **The scanner goes through a text of the grammar.** -/
theorem Derives.exec {symbol : Symbol} {t : List Char} (h : Derives symbol t) :
    ∀ d, exec next ⟨.out, d⟩ t = some ⟨.out, d⟩ := by
  induction h with
  | word hw => exact exec_plain hw.plain
  | string hb => exact fun d => hb.exec_quoted d
  | emptyArray hw => exact exec_brackets (exec_plain hw.plain) (Or.inr rfl) (Or.inr rfl)
  | array _ ih => exact exec_brackets ih (Or.inr rfl) (Or.inr rfl)
  | emptyObject hw => exact exec_brackets (exec_plain hw.plain) (Or.inl rfl) (Or.inl rfl)
  | object _ ih => exact exec_brackets ih (Or.inl rfl) (Or.inl rfl)
  | element hw _ hw' ih =>
    intro d
    rw [exec_append, exec_plain hw.plain, Option.bind_some, exec_append, ih, Option.bind_some,
      exec_plain hw'.plain]
  | lastElement _ ih => exact ih
  | elements _ _ ih ih' =>
    intro d
    rw [exec_append, ih, Option.bind_some, exec_cons, next_plain (by decide)]
    exact ih' d
  | member hw hk hw' _ ih =>
    intro d
    rw [exec_append, exec_plain hw.plain, Option.bind_some, hk.exec_quoted, exec_append,
      exec_plain hw'.plain, Option.bind_some, exec_cons, next_plain (by decide)]
    exact ih d
  | lastMember _ ih => exact ih
  | members _ _ ih ih' =>
    intro d
    rw [exec_append, ih, Option.bind_some, exec_cons, next_plain (by decide)]
    exact ih' d

/-! ## An object is not the end of a longer value -/

/-- Brackets around a text change the depth only. -/
theorem next_deeper {m m' : Mode} {d d' : ℕ} {c : Char} (h : next ⟨m, d⟩ c = some ⟨m', d'⟩)
    (k : ℕ) :
    next ⟨m, d + k⟩ c = some ⟨m', d' + k⟩ := by
  cases m with
  | out =>
    rw [next] at h ⊢
    split_ifs at h ⊢ <;> simp_all
    · omega
    · omega
  | str =>
    rw [next] at h ⊢
    split_ifs at h ⊢ <;> simp_all
  | esc =>
    rw [next] at h ⊢
    split_ifs at h ⊢
    simp_all

theorem exec_deeper (k : ℕ) : ∀ {t : List Char} {m m' : Mode} {d d' : ℕ},
    exec next ⟨m, d⟩ t = some ⟨m', d'⟩ → exec next ⟨m, d + k⟩ t = some ⟨m', d' + k⟩
  | [], m, m', d, d', h => by
    cases h
    rfl
  | c :: t, m, m', d, d', h => by
    obtain ⟨⟨m₁, d₁⟩, hc, ht⟩ := Option.bind_eq_some_iff.mp h
    rw [exec_cons, next_deeper hc k]
    exact exec_deeper k ht

/-- One scanner is in a string where the other is outside. -/
def Flipped (m m' : Mode) : Prop := m = .out ∧ m' = .str ∨ m = .str ∧ m' = .out

/-- Outside a string only a quote changes the mode, and there is no backslash. -/
theorem next_out {d : ℕ} {c : Char} {t : Scanner} (h : next ⟨.out, d⟩ c = some t) (hc : c ≠ '"') :
    t.mode = .out ∧ c ≠ '\\' := by
  rw [next, if_neg hc] at h
  split_ifs at h with hopen hclose
  · cases h
    exact ⟨rfl, by rintro rfl; simp at hopen⟩
  · cases h
    exact ⟨rfl, by rintro rfl; simp at hclose⟩
  · cases h
    exact ⟨rfl, by assumption⟩

theorem next_str {d : ℕ} {c : Char} (hc : c ≠ '"') (hc' : c ≠ '\\') :
    next ⟨.str, d⟩ c = some ⟨.str, d⟩ := by
  rw [next, if_neg hc, if_neg hc']

theorem next_flip {s s' t t' : Scanner} {c : Char} (h : Flipped s.mode s'.mode)
    (ht : next s c = some t) (ht' : next s' c = some t') : Flipped t.mode t'.mode := by
  obtain ⟨m, d⟩ := s
  obtain ⟨m', d'⟩ := s'
  by_cases hquote : c = '"'
  · subst hquote
    rcases h with ⟨rfl, rfl⟩ | ⟨rfl, rfl⟩ <;> cases ht <;> cases ht'
    · exact Or.inr ⟨rfl, rfl⟩
    · exact Or.inl ⟨rfl, rfl⟩
  · rcases h with ⟨rfl, rfl⟩ | ⟨rfl, rfl⟩
    · obtain ⟨hmode, hescape⟩ := next_out ht hquote
      rw [next_str hquote hescape] at ht'
      cases ht'
      exact Or.inl ⟨hmode, rfl⟩
    · obtain ⟨hmode, hescape⟩ := next_out ht' hquote
      rw [next_str hquote hescape] at ht
      cases ht
      exact Or.inr ⟨rfl, hmode⟩

theorem exec_flip : ∀ {w : List Char} {s s' t t' : Scanner}, Flipped s.mode s'.mode →
    exec next s w = some t → exec next s' w = some t' → Flipped t.mode t'.mode
  | [], s, s', t, t', h, ht, ht' => by
    cases ht
    cases ht'
    exact h
  | c :: w, s, s', t, t', h, ht, ht' => by
    obtain ⟨s₁, hs₁, ht⟩ := Option.bind_eq_some_iff.mp ht
    obtain ⟨s₁', hs₁', ht'⟩ := Option.bind_eq_some_iff.mp ht'
    exact exec_flip (next_flip h hs₁ hs₁') ht ht'

/-- What an object has between its brackets. -/
theorem IsObject.brackets {o : List Char} (h : IsObject o) :
    ∃ b, o = '{' :: (b ++ ['}']) ∧ ∀ d, exec next ⟨.out, d⟩ b = some ⟨.out, d⟩ := by
  obtain ⟨hv, hhead⟩ := h
  cases hv with
  | word hw =>
    have hmem := List.mem_of_mem_head? hhead
    exact absurd (hw.plain _ hmem) (by decide)
  | emptyObject hw => exact ⟨_, rfl, exec_plain hw.plain⟩
  | object hb => exact ⟨_, rfl, hb.exec⟩
  | string => cases hhead
  | emptyArray => cases hhead
  | array => cases hhead

/-- Without whitespace around it, a text is its value. -/
theorem IsText.value {s : List Char} (h : IsText s) (hhead : s.head? = some '{')
    (hlast : s.getLast? = some '}') : IsObject s := by
  cases h with
  | @element w v w' hw hv hw' =>
    obtain rfl : w = [] := by
      cases w with
      | nil => rfl
      | cons c w =>
        have hc : c = '{' := by simpa using hhead
        exact absurd (hw c List.mem_cons_self) (by rw [hc]; decide)
    obtain rfl : w' = [] := by
      rcases List.eq_nil_or_concat w' with rfl | ⟨w', c, rfl⟩
      · rfl
      · have hc : c = '}' := by simpa using hlast
        exact absurd (hw' c (by simp)) (by rw [hc]; decide)
    rw [List.nil_append, List.append_nil] at hhead ⊢
    exact ⟨hv, hhead⟩

/-- **A text that begins with a bracket does not become one value by an object behind it.** -/
theorem not_isText_append {p o : List Char} (hp : p.head? = some '{') (ho : IsObject o) :
    ¬ IsText (p ++ o) := by
  intro htext
  obtain ⟨b', rfl, hb'⟩ := ho.brackets
  have hlast : (p ++ '{' :: (b' ++ ['}'])).getLast? = some '}' := by
    rw [show p ++ '{' :: (b' ++ ['}']) = (p ++ '{' :: b') ++ ['}'] by simp, List.getLast?_concat]
  have hobject : IsObject (p ++ '{' :: (b' ++ ['}'])) :=
    htext.value (by rw [List.head?_append, hp, Option.some_or]) hlast
  obtain ⟨b, hb, hexec⟩ := hobject.brackets
  obtain ⟨q, rfl⟩ : ∃ q, p = '{' :: q := List.head?_eq_some_iff.mp hp
  have hbq : b = q ++ '{' :: b' := by
    have heq : q ++ '{' :: b' ++ ['}'] = b ++ ['}'] := by simpa using hb
    exact (List.append_cancel_right heq).symm
  -- where the scanner is before the object
  have hq := hexec 0
  rw [hbq, exec_append] at hq
  obtain ⟨⟨m, d⟩, hq, -⟩ := Option.bind_eq_some_iff.mp hq
  have hrest : exec next ⟨m, d + 1⟩ ('{' :: (b' ++ ['}'])) = some ⟨.out, 0⟩ := by
    have hall := hobject.1.exec 0
    rw [List.cons_append, exec_cons, show next ⟨.out, 0⟩ '{' = some ⟨.out, 0 + 1⟩ from rfl,
      Option.bind_some, exec_append, exec_deeper 1 hq] at hall
    exact hall
  cases m with
  | out =>
    rw [exec_brackets hb' (Or.inl rfl) (Or.inl rfl)] at hrest
    cases hrest
  | esc =>
    rw [exec_cons, show next ⟨.esc, d + 1⟩ '{' = none from rfl] at hrest
    cases hrest
  | str =>
    have hflip := exec_flip (Or.inl ⟨rfl, rfl⟩)
      (exec_brackets hb' (Or.inl rfl) (Or.inl rfl) 0) hrest
    rcases hflip with ⟨-, h⟩ | ⟨h, -⟩ <;> cases h

end Infra.Json
