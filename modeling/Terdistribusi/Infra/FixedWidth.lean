import Mathlib.Algebra.GroupWithZero.Nat
import Mathlib.Data.List.Lex
import Mathlib.Tactic.Tauto

/-!
# Numbers in fixed width

Decimal numbers with leading zeros, and lists of them with separators between. Their texts are in
lexicographic order as the numbers are (`lex_digits_iff`, `lex_fields_iff`).

`CodeLT` compares characters by their code, so `List.Lex CodeLT` is the binary order of text.
-/

namespace Infra

/-! ## Lexicographic order -/

section Lex

variable {α : Type*} {r : α → α → Prop}

/-- Texts with parts of one length in front are compared by these first. -/
theorem lex_append_iff : ∀ {a b c d : List α}, a.length = b.length →
    (List.Lex r (a ++ c) (b ++ d) ↔ List.Lex r a b ∨ a = b ∧ List.Lex r c d)
  | [], [], c, d, _ => by simp
  | [], _ :: _, _, _, h => by cases h
  | _ :: _, [], _, _, h => by cases h
  | x :: a, y :: b, c, d, h => by
    rw [List.cons_append, List.cons_append, List.cons_lex_cons_iff, List.cons_lex_cons_iff,
      lex_append_iff (Nat.succ.inj h), List.cons.injEq]
    tauto

theorem lex_append_left_iff (hr : ∀ x, ¬ r x x) (a c d : List α) :
    List.Lex r (a ++ c) (a ++ d) ↔ List.Lex r c d := by
  rw [lex_append_iff rfl]
  simp [List.lex_irrefl hr a]

end Lex

/-- The order of characters by their code. -/
def CodeLT (c d : Char) : Prop := c.toNat < d.toNat

instance (c d : Char) : Decidable (CodeLT c d) := inferInstanceAs (Decidable (_ < _))

theorem not_codeLT_self (c : Char) : ¬ CodeLT c c := Nat.lt_irrefl _

instance : Std.Trichotomous CodeLT where
  trichotomous _ _ h h' := Char.toNat_inj.mp (Nat.le_antisymm (Nat.le_of_not_lt h')
    (Nat.le_of_not_lt h))

instance : Std.Asymm CodeLT where
  asymm _ _ := Nat.lt_asymm

/-- The binary order of text: `a` is not after `b`. -/
def TextLE (a b : List Char) : Prop := ¬ List.Lex CodeLT b a

instance (a b : List Char) : Decidable (TextLE a b) := inferInstanceAs (Decidable (¬ _))

theorem textLE_iff {a b : List Char} : TextLE a b ↔ List.Lex CodeLT a b ∨ a = b := by
  constructor
  · intro h
    rcases trichotomous_of (List.Lex CodeLT) a b with hlt | heq | hgt
    · exact Or.inl hlt
    · exact Or.inr heq
    · exact absurd hgt h
  · rintro (hlt | rfl)
    · exact fun hgt => asymm hlt hgt
    · exact List.lex_irrefl not_codeLT_self a

theorem TextLE.total (a b : List Char) : TextLE a b ∨ TextLE b a := by
  rw [or_iff_not_imp_left]
  intro h
  exact textLE_iff.mpr (Or.inl (not_not.mp h))

theorem TextLE.trans {a b c : List Char} (h : TextLE a b) (h' : TextLE b c) : TextLE a c := by
  rcases textLE_iff.mp h with hlt | rfl
  · rcases textLE_iff.mp h' with hlt' | rfl
    · exact textLE_iff.mpr (Or.inl (List.lex_trans Nat.lt_trans hlt hlt'))
    · exact h
  · exact h'

/-! ## Digits -/

/-- The last `w` digits of a number. -/
def digits : ℕ → ℕ → List Char
  | 0, _ => []
  | w + 1, n => digits w (n / 10) ++ [Nat.digitChar (n % 10)]

@[simp] theorem length_digits : ∀ w n : ℕ, (digits w n).length = w
  | 0, _ => rfl
  | w + 1, n => by
    rw [digits, List.length_append, length_digits w, List.length_singleton]

theorem digitChar_inj {d e : ℕ} (hd : d < 10) (he : e < 10)
    (h : Nat.digitChar d = Nat.digitChar e) : d = e := by
  have hcode := congrArg Char.toNat h
  rw [Nat.toNat_digitChar_of_lt_ten hd, Nat.toNat_digitChar_of_lt_ten he] at hcode
  omega

/-- Numbers that fit are the same when their digits are. -/
theorem digits_inj : ∀ {w m n : ℕ}, m < 10 ^ w → n < 10 ^ w → digits w m = digits w n → m = n
  | 0, m, n, hm, hn, _ => by
    rw [Nat.lt_one_iff.mp hm, Nat.lt_one_iff.mp hn]
  | w + 1, m, n, hm, hn, h => by
    rw [Nat.pow_succ] at hm hn
    obtain ⟨hfront, hlast⟩ := List.append_inj' h rfl
    have hdiv := digits_inj (Nat.div_lt_of_lt_mul (Nat.mul_comm _ 10 ▸ hm))
      (Nat.div_lt_of_lt_mul (Nat.mul_comm _ 10 ▸ hn)) hfront
    have hmod := digitChar_inj (Nat.mod_lt m (by decide)) (Nat.mod_lt n (by decide))
      (List.singleton_inj.mp hlast)
    omega

theorem digits_eq_iff {w m n : ℕ} (hm : m < 10 ^ w) (hn : n < 10 ^ w) :
    digits w m = digits w n ↔ m = n :=
  ⟨digits_inj hm hn, congrArg (digits w)⟩

/-- **Digits of one width are in order as the numbers are.** -/
theorem lex_digits_iff : ∀ {w m n : ℕ}, m < 10 ^ w → n < 10 ^ w →
    (List.Lex CodeLT (digits w m) (digits w n) ↔ m < n)
  | 0, m, n, hm, hn => by
    rw [Nat.lt_one_iff.mp hm, Nat.lt_one_iff.mp hn]
    simp [digits]
  | w + 1, m, n, hm, hn => by
    rw [Nat.pow_succ] at hm hn
    have hm' : m / 10 < 10 ^ w := Nat.div_lt_of_lt_mul (Nat.mul_comm _ 10 ▸ hm)
    have hn' : n / 10 < 10 ^ w := Nat.div_lt_of_lt_mul (Nat.mul_comm _ 10 ▸ hn)
    have hlast : CodeLT (Nat.digitChar (m % 10)) (Nat.digitChar (n % 10)) ↔ m % 10 < n % 10 := by
      unfold CodeLT
      rw [Nat.toNat_digitChar_of_lt_ten (Nat.mod_lt m (by decide)),
        Nat.toNat_digitChar_of_lt_ten (Nat.mod_lt n (by decide))]
      omega
    rw [digits, digits, lex_append_iff (by simp), lex_digits_iff hm' hn', digits_eq_iff hm' hn',
      List.lex_singleton_iff, hlast]
    omega

/-- What is left out for zero, and starts with one character otherwise. -/
theorem lex_optional_iff {f : ℕ → List Char} {c : Char} {m n : ℕ}
    (h : List.Lex CodeLT (f m) (f n) ↔ m < n) :
    List.Lex CodeLT (if m = 0 then [] else c :: f m) (if n = 0 then [] else c :: f n) ↔ m < n := by
  by_cases hm : m = 0 <;> by_cases hn : n = 0
  · simp [hm, hn]
  · simp [hm, hn, Nat.pos_of_ne_zero hn]
  · simp [hm, hn]
  · rw [if_neg hm, if_neg hn, List.cons_lex_cons_iff, h]
    simp [not_codeLT_self]

/-! ## Fields -/

/-- Numbers in fixed width, each with what follows it. -/
def fields : List (ℕ × List Char) → List ℕ → List Char
  | (w, sep) :: format, n :: ns => digits w n ++ (sep ++ fields format ns)
  | _, _ => []

/-- The numbers fit into the format. -/
def Fits (format : List (ℕ × List Char)) (ns : List ℕ) : Prop :=
  List.Forall₂ (fun f n => n < 10 ^ f.1) format ns

theorem length_fields : ∀ {format : List (ℕ × List Char)} {ns ms : List ℕ}, Fits format ns →
    Fits format ms → (fields format ns).length = (fields format ms).length
  | [], _, _, .nil, .nil => rfl
  | _ :: _, _ :: _, _ :: _, .cons _ hns, .cons _ hms => by
    have ih := length_fields hns hms
    simp only [fields, List.length_append, length_digits, ih]

theorem fields_inj : ∀ {format : List (ℕ × List Char)} {ns ms : List ℕ}, Fits format ns →
    Fits format ms → fields format ns = fields format ms → ns = ms
  | [], _, _, .nil, .nil, _ => rfl
  | _ :: _, _ :: _, _ :: _, .cons hn hns, .cons hm hms, h => by
    obtain ⟨hfirst, hrest⟩ := List.append_inj h (by simp)
    rw [digits_inj hn hm hfirst, fields_inj hns hms (List.append_cancel_left hrest)]

theorem fields_eq_iff {format : List (ℕ × List Char)} {ns ms : List ℕ} (hns : Fits format ns)
    (hms : Fits format ms) : fields format ns = fields format ms ↔ ns = ms :=
  ⟨fields_inj hns hms, congrArg (fields format)⟩

/-- **Fields of one format are in order as the lists of numbers are.** -/
theorem lex_fields_iff : ∀ {format : List (ℕ × List Char)} {ns ms : List ℕ}, Fits format ns →
    Fits format ms → (List.Lex CodeLT (fields format ns) (fields format ms) ↔
      List.Lex (fun m n => m < n) ns ms)
  | [], _, _, .nil, .nil => by simp [fields]
  | _ :: _, n :: _, m :: _, .cons hn hns, .cons hm hms => by
    rw [fields, fields, lex_append_iff (by simp), lex_digits_iff hn hm, digits_eq_iff hn hm,
      lex_append_left_iff not_codeLT_self, lex_fields_iff hns hms, List.cons_lex_cons_iff]

end Infra
