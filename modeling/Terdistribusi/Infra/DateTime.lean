import Terdistribusi.Infra.FixedWidth
import Mathlib.Order.Monotone.Basic
import Mathlib.Algebra.Order.Group.Nat
import Mathlib.Data.Nat.Init

/-!
# Dates and times with an offset

A `datetime` with a timezone: the fields of the local time, which are those of a date of the
proleptic Gregorian calendar, and the offset from UTC in microseconds.

* `toordinal_lt` — later dates have greater ordinals
* `lex_isoformat_iff` — the order of the texts of `isoformat` is the order of the local times, and
  for one local time that of the texts of the offsets
-/

namespace Infra

/-! ## The calendar -/

def isLeap (year : ℕ) : Bool := year % 4 = 0 ∧ (year % 100 ≠ 0 ∨ year % 400 = 0)

def daysInMonth (leap : Bool) : ℕ → ℕ
  | 0 => 0
  | 2 => if leap then 29 else 28
  | 4 | 6 | 9 | 11 => 30
  | _ => 31

/-- The days of the year before a month. -/
def daysBeforeMonth (leap : Bool) : ℕ → ℕ
  | 0 => 0
  | month + 1 => daysBeforeMonth leap month + daysInMonth leap month

/-- The days before the first of January of a year. -/
def daysBeforeYear (year : ℕ) : ℕ :=
  let y := year - 1
  y * 365 + y / 4 - y / 100 + y / 400

/-- The number of a day, where the first of January of the year 1 has the number 1. -/
def toordinal (year month day : ℕ) : ℕ :=
  daysBeforeYear year + daysBeforeMonth (isLeap year) month + day

theorem daysBeforeMonth_mono (leap : Bool) : Monotone (daysBeforeMonth leap) :=
  monotone_nat_of_le_succ fun month => Nat.le_add_right _ (daysInMonth leap month)

theorem daysBeforeMonth_thirteen (leap : Bool) :
    daysBeforeMonth leap 13 = if leap then 366 else 365 := by
  cases leap <;> rfl

/-- Leap days: every fourth year has one, every hundredth not, every four hundredth does. -/
theorem leap_count (n : ℕ) :
    (if 4 ∣ n then 1 else 0) + (if 400 ∣ n then 1 else 0) =
      (if 100 ∣ n then 1 else 0) + if isLeap n then 1 else 0 := by
  have hleap : isLeap n = true ↔ 4 ∣ n ∧ (¬ 100 ∣ n ∨ 400 ∣ n) := by
    simp [isLeap, Nat.dvd_iff_mod_eq_zero]
  by_cases h400 : 400 ∣ n
  · have h100 : 100 ∣ n := Nat.dvd_trans (by decide) h400
    have h4 : 4 ∣ n := Nat.dvd_trans (by decide) h400
    simp [hleap, h4, h100, h400]
  · by_cases h100 : 100 ∣ n
    · have h4 : 4 ∣ n := Nat.dvd_trans (by decide) h100
      simp [hleap, h4, h100, h400]
    · simp [hleap, h100, h400]

theorem daysBeforeYear_succ {year : ℕ} (h : 1 ≤ year) :
    daysBeforeYear (year + 1) = daysBeforeYear year + if isLeap year then 366 else 365 := by
  obtain ⟨y, rfl⟩ := Nat.exists_eq_add_of_le' h
  have h4 : (y + 1) / 4 = y / 4 + if 4 ∣ y + 1 then 1 else 0 := Nat.succ_div
  have h100 : (y + 1) / 100 = y / 100 + if 100 ∣ y + 1 then 1 else 0 := Nat.succ_div
  have h400 : (y + 1) / 400 = y / 400 + if 400 ∣ y + 1 then 1 else 0 := Nat.succ_div
  have hle : y / 100 ≤ y / 4 := Nat.div_le_div_left (by decide) (by decide)
  have hle' : (y + 1) / 100 ≤ (y + 1) / 4 := Nat.div_le_div_left (by decide) (by decide)
  have hcount := leap_count (y + 1)
  have hdays : (if isLeap (y + 1) then 366 else 365) = 365 + if isLeap (y + 1) then 1 else 0 := by
    split <;> rfl
  unfold daysBeforeYear
  simp only [Nat.add_sub_cancel]
  rw [hdays]
  generalize (y + 1) / 4 = a' at h4 hle' ⊢
  generalize (y + 1) / 100 = b' at h100 hle' ⊢
  generalize (y + 1) / 400 = c' at h400 ⊢
  generalize y / 4 = a at *
  generalize y / 100 = b at *
  generalize y / 400 = c at *
  omega

theorem daysBeforeYear_mono {year year' : ℕ} (h : 1 ≤ year) (hle : year ≤ year') :
    daysBeforeYear year ≤ daysBeforeYear year' := by
  induction year', hle using Nat.le_induction with
  | base => exact Nat.le_refl _
  | succ year' hle ih =>
    rw [daysBeforeYear_succ (h.trans hle)]
    exact ih.trans (Nat.le_add_right _ _)

/-- The day is a day of the month. -/
structure ValidDate (year month day : ℕ) : Prop where
  hyear : 1 ≤ year ∧ year ≤ 9999
  hmonth : 1 ≤ month ∧ month ≤ 12
  hday : 1 ≤ day ∧ day ≤ daysInMonth (isLeap year) month

section Date

variable {year month day year' month' day' : ℕ}

/-- A date is before the first day of the next month. -/
theorem daysBeforeMonth_add_day (h : ValidDate year month day) :
    daysBeforeMonth (isLeap year) month + day ≤ daysBeforeMonth (isLeap year) (month + 1) :=
  Nat.add_le_add_left h.hday.2 _

/-- A date is before the first day of the next year. -/
theorem toordinal_le (h : ValidDate year month day) :
    toordinal year month day ≤ daysBeforeYear (year + 1) := by
  have hmonth := daysBeforeMonth_add_day h
  have hnext : month + 1 ≤ 13 := Nat.succ_le_succ h.hmonth.2
  have hyear := daysBeforeMonth_mono (isLeap year) hnext
  rw [daysBeforeMonth_thirteen] at hyear
  rw [daysBeforeYear_succ h.hyear.1]
  unfold toordinal
  omega

/-- **Later dates have greater ordinals.** -/
theorem toordinal_lt (h : ValidDate year month day) (h' : ValidDate year' month' day')
    (hlt : year < year' ∨ year = year' ∧ (month < month' ∨ month = month' ∧ day < day')) :
    toordinal year month day < toordinal year' month' day' := by
  rcases hlt with hyear | ⟨rfl, hmonth | ⟨rfl, hday⟩⟩
  · have hle := toordinal_le h
    have hmono := daysBeforeYear_mono (Nat.le_add_left 1 year) (Nat.succ_le_of_lt hyear)
    have hpos := h'.hday.1
    unfold toordinal at hle ⊢
    omega
  · have hle := daysBeforeMonth_add_day h
    have hmono := daysBeforeMonth_mono (isLeap year) (show month + 1 ≤ month' from hmonth)
    have hpos := h'.hday.1
    unfold toordinal
    omega
  · exact Nat.add_lt_add_left hday _

end Date

/-! ## Local times and instants -/

/-- A `datetime` with a timezone. -/
structure DateTime where
  year : ℕ
  month : ℕ
  day : ℕ
  hour : ℕ
  minute : ℕ
  second : ℕ
  microsecond : ℕ
  /-- What `utcoffset` returns, in microseconds. -/
  offset : ℤ
  hdate : ValidDate year month day
  hhour : hour < 24
  hminute : minute < 60
  hsecond : second < 60
  hmicrosecond : microsecond < 1000000
  hoffset : offset.natAbs < 86400000000

namespace DateTime

/-- The fields of the local time up to the second. -/
def localFields (t : DateTime) : List ℕ :=
  [t.year, t.month, t.day, t.hour, t.minute, t.second]

/-- The local time up to the second. -/
def localSecond (t : DateTime) : ℕ :=
  ((toordinal t.year t.month t.day * 24 + t.hour) * 60 + t.minute) * 60 + t.second

/-- The local time in microseconds. -/
def localTime (t : DateTime) : ℕ := t.localSecond * 1000000 + t.microsecond

/-- The time in UTC, in microseconds. -/
def instant (t : DateTime) : ℤ := t.localTime - t.offset

/-! ## The text -/

/-- `%04d-%02d-%02dT%02d:%02d:%02d` -/
def localFormat : List (ℕ × List Char) :=
  [(4, ['-']), (2, ['-']), (2, ['T']), (2, [':']), (2, [':']), (2, [])]

/-- The fraction of a second, which is left out when it is zero. -/
def fractionText (microsecond : ℕ) : List Char :=
  if microsecond = 0 then [] else '.' :: digits 6 microsecond

/-- The seconds of an offset, which are left out when they are zero. -/
def offsetSecondText (n : ℕ) : List Char :=
  if n = 0 then [] else ':' :: (digits 2 (n / 1000000) ++ fractionText (n % 1000000))

/-- An offset without its sign. -/
def offsetAbsText (n : ℕ) : List Char :=
  fields [(2, [':']), (2, [])] [n / 3600000000, n % 3600000000 / 60000000] ++
    offsetSecondText (n % 60000000)

def offsetText (offset : ℤ) : List Char :=
  (if offset < 0 then '-' else '+') :: offsetAbsText offset.natAbs

def isoformat (t : DateTime) : List Char :=
  fields localFormat t.localFields ++ (fractionText t.microsecond ++ offsetText t.offset)

/-! ## The order of the texts -/

theorem lex_fractionText_iff {m n : ℕ} (hm : m < 1000000) (hn : n < 1000000) :
    List.Lex CodeLT (fractionText m) (fractionText n) ↔ m < n :=
  lex_optional_iff (lex_digits_iff hm hn)

theorem fractionText_inj {m n : ℕ} (hm : m < 1000000) (hn : n < 1000000)
    (h : fractionText m = fractionText n) : m = n := by
  have hlt := lex_fractionText_iff hm hn
  have hgt := lex_fractionText_iff hn hm
  rw [h] at hlt hgt
  have hirrefl := List.lex_irrefl not_codeLT_self (fractionText n)
  have h1 := mt hlt.mpr hirrefl
  have h2 := mt hgt.mpr hirrefl
  omega

theorem lex_offsetSecondText_iff {m n : ℕ} (hm : m < 60000000) (hn : n < 60000000) :
    List.Lex CodeLT (offsetSecondText m) (offsetSecondText n) ↔ m < n := by
  have hm2 : m / 1000000 < 10 ^ 2 := by omega
  have hn2 : n / 1000000 < 10 ^ 2 := by omega
  refine lex_optional_iff (f := fun n => digits 2 (n / 1000000) ++ fractionText (n % 1000000)) ?_
  rw [lex_append_iff (by simp), lex_digits_iff hm2 hn2, digits_eq_iff hm2 hn2,
    lex_fractionText_iff (Nat.mod_lt _ (by decide)) (Nat.mod_lt _ (by decide))]
  omega

theorem fits_offset {n : ℕ} (h : n < 86400000000) :
    Fits [(2, [':']), (2, [])] [n / 3600000000, n % 3600000000 / 60000000] := by
  refine .cons ?_ (.cons ?_ .nil)
  · show n / 3600000000 < 10 ^ 2
    omega
  · show n % 3600000000 / 60000000 < 10 ^ 2
    omega

theorem lex_offsetAbsText_iff {m n : ℕ} (hm : m < 86400000000) (hn : n < 86400000000) :
    List.Lex CodeLT (offsetAbsText m) (offsetAbsText n) ↔ m < n := by
  have hfm := fits_offset hm
  have hfn := fits_offset hn
  unfold offsetAbsText
  rw [lex_append_iff (length_fields hfm hfn), lex_fields_iff hfm hfn, fields_eq_iff hfm hfn,
    lex_offsetSecondText_iff (Nat.mod_lt _ (by decide)) (Nat.mod_lt _ (by decide)),
    List.cons_lex_cons_iff, List.lex_singleton_iff]
  simp only [List.cons.injEq, and_true]
  omega

/-- The order of the texts of offsets: those that are not negative come first and in order, then the
negative ones in reverse. -/
def OffsetLT (a b : ℤ) : Prop := 0 ≤ a ∧ (b < 0 ∨ a < b) ∨ a < 0 ∧ b < a

theorem lex_offsetText_iff {a b : ℤ} (ha : a.natAbs < 86400000000) (hb : b.natAbs < 86400000000) :
    List.Lex CodeLT (offsetText a) (offsetText b) ↔ OffsetLT a b := by
  have hsign : CodeLT '+' '-' := by decide
  have hsign' : ¬ CodeLT '-' '+' := by decide
  unfold offsetText OffsetLT
  rw [List.cons_lex_cons_iff, lex_offsetAbsText_iff ha hb]
  by_cases ha0 : a < 0 <;> by_cases hb0 : b < 0
  · simp only [if_pos ha0, if_pos hb0, not_codeLT_self, false_or, true_and]
    omega
  · simp only [if_pos ha0, if_neg hb0, hsign', false_or]
    simp only [Char.reduceEq, false_and, false_iff]
    omega
  · simp only [if_neg ha0, if_pos hb0, hsign, true_or, true_iff]
    omega
  · simp only [if_neg ha0, if_neg hb0, not_codeLT_self, false_or, true_and]
    omega

/-- A fraction comes before a text that starts with a sign: the longer text is the greater one. -/
theorem lex_fractionText_append_iff {m n : ℕ} (hm : m < 1000000) (hn : n < 1000000) {c d : Char}
    (hc : CodeLT c '.') (hd : CodeLT d '.') (x y : List Char) :
    List.Lex CodeLT (fractionText m ++ c :: x) (fractionText n ++ d :: y) ↔
      m < n ∨ m = n ∧ List.Lex CodeLT (c :: x) (d :: y) := by
  have hne {e : Char} (he : CodeLT e '.') : '.' ≠ e := fun h => not_codeLT_self _ (h ▸ he)
  have hnot {e : Char} (he : CodeLT e '.') : ¬ CodeLT '.' e := Nat.lt_asymm he
  by_cases hm0 : m = 0 <;> by_cases hn0 : n = 0
  · simp [fractionText, hm0, hn0]
  · rw [hm0]
    refine iff_of_true ?_ (Or.inl (Nat.pos_of_ne_zero hn0))
    simp only [fractionText, if_true, if_neg hn0, List.nil_append, List.cons_append,
      List.cons_lex_cons_iff, hc, true_or]
  · rw [hn0]
    refine iff_of_false ?_ (by omega)
    simp only [fractionText, if_true, if_neg hm0, List.nil_append, List.cons_append,
      List.cons_lex_cons_iff, hnot hd, hne hd, false_or, false_and, not_false_eq_true]
  · have hlength : (fractionText m).length = (fractionText n).length := by
      simp [fractionText, hm0, hn0]
    have heq : fractionText m = fractionText n ↔ m = n := ⟨fractionText_inj hm hn, congrArg _⟩
    rw [lex_append_iff hlength, lex_fractionText_iff hm hn, heq]

theorem fits_localFields (t : DateTime) : Fits localFormat t.localFields := by
  have hdays (leap : Bool) (month : ℕ) : daysInMonth leap month ≤ 31 := by
    unfold daysInMonth
    split <;> cases leap <;> decide
  have hday := t.hdate.hday.2.trans (hdays _ _)
  have hyear := t.hdate.hyear.2
  have hmonth := t.hdate.hmonth.2
  have hhour := t.hhour
  have hminute := t.hminute
  have hsecond := t.hsecond
  exact .cons (show t.year < 10 ^ 4 by omega) (.cons (show t.month < 10 ^ 2 by omega)
    (.cons (show t.day < 10 ^ 2 by omega) (.cons (show t.hour < 10 ^ 2 by omega)
      (.cons (show t.minute < 10 ^ 2 by omega) (.cons (show t.second < 10 ^ 2 by omega) .nil)))))

/-- The fields are in order as the local times are. -/
theorem localSecond_lt {a b : DateTime}
    (h : List.Lex (fun m n => m < n) a.localFields b.localFields) :
    a.localSecond < b.localSecond := by
  have hlt := toordinal_lt a.hdate b.hdate
  have hah := a.hhour
  have ham := a.hminute
  have has := a.hsecond
  unfold localFields at h
  simp only [List.cons_lex_cons_iff, List.not_lex_nil, and_false, or_false] at h
  unfold localSecond
  rcases h with hy | ⟨hy, hm | ⟨hm, hd | ⟨hd, hrest⟩⟩⟩
  · have := hlt (Or.inl hy)
    omega
  · have := hlt (Or.inr ⟨hy, Or.inl hm⟩)
    omega
  · have := hlt (Or.inr ⟨hy, Or.inr ⟨hm, hd⟩⟩)
    omega
  · rw [hy, hm, hd]
    omega

theorem localSecond_eq {a b : DateTime} (h : a.localFields = b.localFields) :
    a.localSecond = b.localSecond := by
  simp only [localFields, List.cons.injEq, and_true] at h
  obtain ⟨hyear, hmonth, hday, hhour, hminute, hsecond⟩ := h
  simp only [localSecond, hyear, hmonth, hday, hhour, hminute, hsecond]

/-- Two local times have the same fields, or one of them is before the other. -/
theorem localFields_cases (a b : DateTime) :
    (List.Lex (fun m n => m < n) a.localFields b.localFields ∧ a.localSecond < b.localSecond) ∨
    (a.localFields = b.localFields ∧ a.localSecond = b.localSecond) ∨
    (List.Lex (fun m n => m < n) b.localFields a.localFields ∧ b.localSecond < a.localSecond) := by
  rcases trichotomous_of (List.Lex fun m n : ℕ => m < n) a.localFields b.localFields with h | h | h
  · exact Or.inl ⟨h, localSecond_lt h⟩
  · exact Or.inr (Or.inl ⟨h, localSecond_eq h⟩)
  · exact Or.inr (Or.inr ⟨h, localSecond_lt h⟩)

theorem lex_localFields_iff {a b : DateTime} :
    List.Lex (fun m n => m < n) a.localFields b.localFields ↔ a.localSecond < b.localSecond := by
  refine ⟨localSecond_lt, fun h => ?_⟩
  rcases localFields_cases a b with ⟨hlex, -⟩ | ⟨-, heq⟩ | ⟨-, hgt⟩
  · exact hlex
  · omega
  · omega

theorem localFields_eq_iff {a b : DateTime} :
    a.localFields = b.localFields ↔ a.localSecond = b.localSecond := by
  refine ⟨localSecond_eq, fun h => ?_⟩
  rcases localFields_cases a b with ⟨-, hlt⟩ | ⟨heq, -⟩ | ⟨-, hgt⟩
  · omega
  · exact heq
  · omega

theorem exists_offsetText (offset : ℤ) : ∃ c x, offsetText offset = c :: x ∧ CodeLT c '.' := by
  unfold offsetText
  refine ⟨_, _, rfl, ?_⟩
  split <;> decide

/-- **The order of the texts**: by local time, and for one local time by the texts of the
offsets. -/
theorem lex_isoformat_iff (a b : DateTime) : List.Lex CodeLT a.isoformat b.isoformat ↔
    a.localTime < b.localTime ∨ a.localTime = b.localTime ∧ OffsetLT a.offset b.offset := by
  have hfa := fits_localFields a
  have hfb := fits_localFields b
  obtain ⟨c, x, hc, hsign⟩ := exists_offsetText a.offset
  obtain ⟨d, y, hd, hsign'⟩ := exists_offsetText b.offset
  have hma := a.hmicrosecond
  have hmb := b.hmicrosecond
  unfold isoformat
  rw [lex_append_iff (length_fields hfa hfb), lex_fields_iff hfa hfb, lex_localFields_iff,
    fields_eq_iff hfa hfb, localFields_eq_iff, hc, hd,
    lex_fractionText_append_iff hma hmb hsign hsign', ← hc, ← hd,
    lex_offsetText_iff a.hoffset b.hoffset]
  unfold localTime
  by_cases ho : OffsetLT a.offset b.offset
  · simp only [ho, and_true]
    omega
  · simp only [ho, and_false, or_false]
    omega

/-- A text stands for one instant. -/
theorem instant_eq_of_isoformat {a b : DateTime} (h : a.isoformat = b.isoformat) :
    a.localTime = b.localTime ∧ a.offset = b.offset := by
  have hirrefl := List.lex_irrefl not_codeLT_self b.isoformat
  have hlt := lex_isoformat_iff a b
  have hgt := lex_isoformat_iff b a
  rw [h] at hlt hgt
  have h1 := mt hlt.mpr hirrefl
  have h2 := mt hgt.mpr hirrefl
  unfold OffsetLT at h1 h2
  omega

end DateTime

end Infra
