import Mathlib.Data.Int.Notation
import Mathlib.Data.List.Basic

/-! Decimal numerals as bytes: a number is known from its numeral, and a numeral ends at the
first byte that is not a digit. -/
namespace GDFileStore.Sequences

/-- The ASCII byte of a character. -/
def charByte (c : Char) : UInt8 := UInt8.ofNat c.toNat

/-- The decimal numeral, as `fmt` prints a non-negative integer. -/
def decimal (n : ℕ) : List UInt8 := (Nat.toDigits 10 n).map charByte

lemma toNat_of_isDigit {c : Char} (hc : c.isDigit) : 48 ≤ c.toNat ∧ c.toNat ≤ 57 :=
  Char.isDigit_iff_toNat.1 hc

lemma toNat_charByte {c : Char} (hc : c.isDigit) : (charByte c).toNat = c.toNat := by
  have hlt := (toNat_of_isDigit hc).2
  rw [charByte,UInt8.toNat_ofNat',Nat.mod_eq_of_lt (by omega)]

/-- The number that digits stand for. -/
def ofDecimal (digits : List UInt8) : ℕ :=
  Nat.ofDigitChars 10 (digits.map (fun b => Char.ofNat b.toNat)) 0

theorem ofDecimal_decimal (n : ℕ) : ofDecimal (decimal n) = n := by
  have hdigits : ∀ c ∈ Nat.toDigits 10 n, Char.ofNat (charByte c).toNat = c := by
    intro c hc
    rw [toNat_charByte (Nat.isDigit_of_mem_toDigits (by omega) (by omega) hc),Char.ofNat_toNat]
  have hback : (decimal n).map (fun b => Char.ofNat b.toNat) = Nat.toDigits 10 n := by
    rw [decimal,List.map_map]
    exact (List.map_congr_left hdigits).trans (List.map_id _)
  rw [ofDecimal,hback]
  exact Nat.ofDigitChars_ten_toDigits

theorem decimal_injective : Function.Injective decimal := by
  intro m n h
  rw [← ofDecimal_decimal m,h,ofDecimal_decimal]

lemma digit_of_mem_decimal {n : ℕ} {b : UInt8} (hb : b ∈ decimal n) : 48 ≤ b ∧ b ≤ 57 := by
  obtain ⟨c,hc,rfl⟩ := List.mem_map.1 hb
  have hdigit := Nat.isDigit_of_mem_toDigits (by omega) (by omega) hc
  rw [UInt8.le_iff_toNat_le,UInt8.le_iff_toNat_le,toNat_charByte hdigit]
  exact toNat_of_isDigit hdigit

lemma decimal_ne_nil (n : ℕ) : decimal n ≠ [] := by simp [decimal]

lemma notMem_decimal {n : ℕ} {b : UInt8} (hb : b < 48) : b ∉ decimal n := by
  intro hm
  exact absurd hb (by simpa using (digit_of_mem_decimal hm).1)

/-- What a numeral is filled up with on its left. -/
inductive Fill
  | zero
  | blank
  deriving DecidableEq, Repr

def Fill.byte : Fill → UInt8
  | zero => 48
  | blank => 32

/-- A numeral filled up to a width. -/
def filledDecimal (fill : Fill) (width n : ℕ) : List UInt8 :=
  List.replicate (width - (decimal n).length) fill.byte ++ decimal n

lemma ofDecimal_replicate_append (fill : Fill) (n : ℕ) (digits : List UInt8) :
    ofDecimal (List.replicate n fill.byte ++ digits) = ofDecimal digits := by
  induction n with
  | zero => rfl
  | succ n ih =>
    rw [← ih,List.replicate_succ,List.cons_append,ofDecimal,List.map_cons,Nat.ofDigitChars_cons]
    cases fill <;> rfl

theorem filledDecimal_injective (fill : Fill) (width : ℕ) :
    Function.Injective (filledDecimal fill width) := by
  intro m n h
  rw [← ofDecimal_decimal m,← ofDecimal_replicate_append fill (width - (decimal m).length)]
  change ofDecimal (filledDecimal fill width m) = n
  rw [h,filledDecimal,ofDecimal_replicate_append,ofDecimal_decimal]

lemma notMem_filledDecimal {fill : Fill} {b : UInt8} (hfill : fill.byte ≠ b) (hb : b < 48)
    (width n : ℕ) : b ∉ filledDecimal fill width n := by
  rw [filledDecimal,List.mem_append,not_or]
  exact ⟨fun hm => hfill (List.eq_of_mem_replicate hm).symm,notMem_decimal hb⟩

/-- The decimal numeral of an integer, with a minus sign where it is negative. -/
def signedDecimal (z : ℤ) : List UInt8 :=
  if z < 0 then 45::decimal z.natAbs else decimal z.natAbs

lemma signedDecimal_ne_nil (z : ℤ) : signedDecimal z ≠ [] := by
  rw [signedDecimal]
  split_ifs
  · exact List.cons_ne_nil _ _
  · exact decimal_ne_nil _

lemma signedDecimal_natCast (n : ℕ) : signedDecimal n = decimal n := by
  rw [signedDecimal,if_neg (by omega),Int.natAbs_natCast]

/-- A numeral ends in a digit, whatever stands before it. -/
lemma getLast?_append_signedDecimal (text : List UInt8) (z : ℤ) :
    ∃ b, (text ++ signedDecimal z).getLast? = some b ∧ 48 ≤ b ∧ b ≤ 57 := by
  obtain ⟨front,b,hb⟩ : ∃ front b, decimal z.natAbs = front ++ [b] :=
    ⟨_,_,(List.dropLast_append_getLast (decimal_ne_nil _)).symm⟩
  refine ⟨b,?_,digit_of_mem_decimal (hb ▸ List.mem_append_right _ List.mem_cons_self)⟩
  rw [signedDecimal,hb]
  split
  · rw [← List.cons_append,← List.append_assoc]
    exact List.getLast?_concat
  · rw [← List.append_assoc]
    exact List.getLast?_concat

/-- Two texts that stop at the first separator agree before it and after it. -/
lemma append_cons_inj_of_notMem_left {α : Type*} {sep : α} {xs ys zs ws : List α}
    (hxs : sep ∉ xs) (hys : sep ∉ ys) (h : xs ++ sep::zs = ys ++ sep::ws) : xs = ys ∧ zs = ws := by
  induction xs generalizing ys with
  | nil =>
    cases ys with
    | nil => simpa using h
    | cons y ys =>
      simp only [List.nil_append,List.cons_append,List.cons.injEq] at h
      exact absurd (List.mem_cons.2 (.inl h.1)) hys
  | cons x xs ih =>
    cases ys with
    | nil =>
      simp only [List.nil_append,List.cons_append,List.cons.injEq] at h
      exact absurd (List.mem_cons.2 (.inl h.1.symm)) hxs
    | cons y ys =>
      simp only [List.cons_append,List.cons.injEq] at h
      obtain ⟨rfl,htail⟩ := h
      obtain ⟨rfl,rfl⟩ := ih (by simp_all) (by simp_all) htail
      exact ⟨rfl,rfl⟩

end GDFileStore.Sequences
