import GDFileStore.Sequences.Decimal
import Mathlib.Algebra.Order.Group.Int
import Mathlib.Data.Nat.Log
import Mathlib.Tactic.Ring

/-! Numerals with a text before or after them that are numerals again: what the numbers then are to
each other. -/
namespace GDFileStore.Sequences

/-- The text has no bytes but digits. -/
def IsDigits (w : List UInt8) : Prop := ∀ b ∈ w, 48 ≤ b ∧ b ≤ 57

instance : DecidablePred IsDigits := fun w => inferInstanceAs (Decidable (∀ b ∈ w, _))

lemma isDigits_decimal (n : ℕ) : IsDigits (decimal n) := fun _ => digit_of_mem_decimal

lemma ofDecimal_append (u w : List UInt8) :
    ofDecimal (u ++ w) = ofDecimal u*10^w.length+ofDecimal w := by
  rw [ofDecimal,List.map_append,Nat.ofDigitChars_append,Nat.ofDigitChars_eq_ofDigitChars_zero,
    List.length_map,Nat.mul_comm]
  rfl

/-- The numeral of a number below ten is one digit. -/
lemma decimal_of_digit {b : UInt8} (h : 48 ≤ b ∧ b ≤ 57) : decimal (b.toNat-48) = [b] := by
  have hall : ∀ d < 10, decimal d = [UInt8.ofNat (d+48)] := by decide
  have hlow := UInt8.le_iff_toNat_le.1 h.1
  have hhigh := UInt8.le_iff_toNat_le.1 h.2
  change 48 ≤ b.toNat at hlow
  change b.toNat ≤ 57 at hhigh
  rw [hall _ (by omega),Nat.sub_add_cancel hlow,UInt8.ofNat_toNat]

lemma ofDecimal_lt {w : List UInt8} (h : IsDigits w) : ofDecimal w < 10^w.length := by
  induction w with
  | nil => exact Nat.one_pos
  | cons b w ih =>
    have hfirst : ofDecimal [b] = b.toNat-48 := by
      rw [← decimal_of_digit (h b List.mem_cons_self),ofDecimal_decimal]
    have hb := UInt8.le_iff_toNat_le.1 (h b List.mem_cons_self).2
    change b.toNat ≤ 57 at hb
    have hrest := ih (fun c hc => h c (List.mem_cons_of_mem b hc))
    have hle : ofDecimal [b]*10^w.length ≤ 9*10^w.length := Nat.mul_le_mul_right _ (by omega)
    rw [← List.singleton_append,ofDecimal_append,List.length_append,List.length_singleton,pow_add]
    omega

/-- Digits after the numeral of a positive number make a numeral. -/
lemma decimal_append {n : ℕ} (hn : 0 < n) {w : List UInt8} (hw : IsDigits w) :
    decimal n ++ w = decimal (n*10^w.length+ofDecimal w) := by
  induction w generalizing n with
  | nil => rw [List.append_nil,List.length_nil,pow_zero,Nat.mul_one]; rfl
  | cons b w ih =>
    have hb := hw b List.mem_cons_self
    have hdigit := decimal_of_digit hb
    have hhigh := UInt8.le_iff_toNat_le.1 hb.2
    change b.toNat ≤ 57 at hhigh
    have hone : decimal n ++ [b] = decimal (10*n+(b.toNat-48)) := by
      rw [← hdigit,decimal,decimal,← List.map_append,
        Nat.toDigits_append_toDigits (by decide) hn (by omega)]
      rfl
    have hvalue : ofDecimal (b::w) = (b.toNat-48)*10^w.length+ofDecimal w := by
      rw [← List.singleton_append,ofDecimal_append,← hdigit,ofDecimal_decimal]
    calc decimal n ++ b::w = (decimal n ++ [b]) ++ w := by simp
      _ = decimal ((10*n+(b.toNat-48))*10^w.length+ofDecimal w) := by
        rw [hone,ih (by omega) (fun c hc => hw c (List.mem_cons_of_mem b hc))]
      _ = decimal (n*10^(b::w).length+ofDecimal (b::w)) := by
        rw [hvalue,List.length_cons]
        congr 1
        ring

/-- A numeral has no more digits than its number needs. -/
lemma length_decimal_le {n k : ℕ} (hk : 0 < k) (h : n < 10^k) : (decimal n).length ≤ k := by
  rw [decimal,List.length_map]
  exact (Nat.length_toDigits_le_iff (by decide) hk).2 h

/-- The beginning of a numeral is a numeral. -/
lemma eq_decimal_of_append {n : ℕ} {y w : List UInt8} (hy : y ≠ []) (h : decimal n = y ++ w) :
    y = decimal (ofDecimal y) := by
  have hdigits : IsDigits (y ++ w) := h ▸ isDigits_decimal n
  have hw : IsDigits w := fun b hb => hdigits b (List.mem_append_right y hb)
  have hn : n = ofDecimal y*10^w.length+ofDecimal w := by
    rw [← ofDecimal_append,← h,ofDecimal_decimal]
  rcases Nat.eq_zero_or_pos (ofDecimal y) with hzero | hpos
  · -- Nothing can stand after a zero.
    rcases List.eq_nil_or_concat' w with rfl | ⟨init,last,rfl⟩
    · rw [List.append_nil] at h
      rw [← h,ofDecimal_decimal]
    · have hlt : n < 10^(init ++ [last]).length := by
        rw [hn,hzero,Nat.zero_mul,Nat.zero_add]
        exact ofDecimal_lt hw
      have hlength := length_decimal_le (by simp) hlt
      rw [h,List.length_append] at hlength
      have hsome := List.length_pos_iff.2 hy
      omega
  · rw [hn,← decimal_append hpos hw] at h
    exact (List.append_cancel_right h).symm

/-- A numeral goes on after another exactly where digits have been appended to the number. -/
lemma decimal_eq_append_iff {m n : ℕ} {w : List UInt8} : decimal n = decimal m ++ w ↔
    w = [] ∧ n = m ∨ IsDigits w ∧ 0 < m ∧ n = m*10^w.length+ofDecimal w := by
  constructor
  · intro h
    have hdigits : IsDigits (decimal m ++ w) := h ▸ isDigits_decimal n
    have hw : IsDigits w := fun b hb => hdigits b (List.mem_append_right _ hb)
    have hn : n = m*10^w.length+ofDecimal w := by
      rw [← ofDecimal_decimal n,h,ofDecimal_append,ofDecimal_decimal]
    rcases Nat.eq_zero_or_pos m with rfl | hpos
    · rw [Nat.zero_mul,Nat.zero_add] at hn
      by_cases hnil : w = []
      · exact .inl ⟨hnil,by rw [hn,hnil]; rfl⟩
      · have hlength := length_decimal_le (List.length_pos_iff.2 hnil) (hn ▸ ofDecimal_lt hw)
        have hsome := List.length_pos_iff.2 (decimal_ne_nil 0)
        rw [h,List.length_append] at hlength
        omega
    · exact .inr ⟨hw,hpos,hn⟩
  · rintro (⟨rfl,rfl⟩ | ⟨hw,hm,rfl⟩)
    · rw [List.append_nil]
    · exact (decimal_append hm hw).symm

/-- The numeral of a positive number does not begin with a zero. -/
lemma decimal_ne_zero_cons {n : ℕ} {w : List UInt8} (h : decimal n = 48::w) : w = [] ∧ n = 0 := by
  have hzero : [(48 : UInt8)] = decimal 0 := by decide
  rw [← List.singleton_append,hzero] at h
  rcases decimal_eq_append_iff.1 h with ⟨hw,hn⟩ | ⟨_,hpos,_⟩
  · exact ⟨hw,hn⟩
  · exact absurd hpos (by omega)

/-- The digits of a number, with no zero before them. -/
def ReadsNat (w : List UInt8) (n : ℕ) : Prop :=
  IsDigits w ∧ w ≠ [] ∧ (w.head? = some 48 → w = [48]) ∧ ofDecimal w = n

instance : DecidableRel ReadsNat := fun _ _ => inferInstanceAs (Decidable (_ ∧ _ ∧ _ ∧ _))

lemma readsNat_iff {w : List UInt8} {n : ℕ} : ReadsNat w n ↔ w = decimal n := by
  constructor
  · rintro ⟨hdigits,hne,hhead,rfl⟩
    obtain ⟨b,w,rfl⟩ := List.exists_cons_of_ne_nil hne
    have hb := hdigits b List.mem_cons_self
    by_cases hzero : b = 48
    · have hw := hhead (by rw [List.head?_cons,hzero])
      rw [hw]
      decide
    · have hlow := UInt8.le_iff_toNat_le.1 hb.1
      have hnot : b.toNat ≠ 48 := fun heq => hzero (UInt8.toNat_inj.1 heq)
      change 48 ≤ b.toNat at hlow
      have hpos : 0 < b.toNat-48 := by omega
      have hrest := decimal_append hpos (fun c hc => hdigits c (List.mem_cons_of_mem b hc))
      rw [decimal_of_digit hb,List.singleton_append] at hrest
      rw [hrest,ofDecimal_decimal]
  · rintro rfl
    refine ⟨isDigits_decimal n,decimal_ne_nil n,?_,ofDecimal_decimal n⟩
    intro hhead
    obtain ⟨w,hw⟩ : ∃ w, decimal n = 48::w := List.head?_eq_some_iff.1 hhead
    rw [hw,(decimal_ne_zero_cons hw).1]

/-- The digits of a number, after a minus sign where it is negative. -/
def Reads (w : List UInt8) (z : ℤ) : Prop :=
  if z < 0 then w.head? = some 45 ∧ ReadsNat w.tail z.natAbs else ReadsNat w z.natAbs

instance : DecidableRel Reads := fun _ _ => inferInstanceAs (Decidable (ite _ _ _))

lemma reads_iff {w : List UInt8} {z : ℤ} : Reads w z ↔ w = signedDecimal z := by
  rw [Reads,signedDecimal]
  split_ifs with hneg
  · rw [readsNat_iff]
    constructor
    · rintro ⟨hhead,htail⟩
      obtain ⟨v,rfl⟩ := List.head?_eq_some_iff.1 hhead
      rw [← htail,List.tail_cons]
    · rintro rfl
      exact ⟨rfl,rfl⟩
  · exact readsNat_iff

/-- The number of digits. -/
def digitCount (n : ℕ) : ℕ := Nat.log 10 n+1

lemma length_decimal (n : ℕ) : (decimal n).length = digitCount n := by
  have hle : (decimal n).length ≤ digitCount n :=
    length_decimal_le (Nat.succ_pos _) (Nat.lt_pow_succ_log_self (by decide) n)
  have hsome := List.length_pos_iff.2 (decimal_ne_nil n)
  have hdigits : IsDigits (decimal n) := isDigits_decimal n
  have hlt := ofDecimal_lt hdigits
  rw [ofDecimal_decimal] at hlt
  have hlog : Nat.log 10 n < (decimal n).length := Nat.log_lt_of_lt_pow' hsome.ne' hlt
  exact Nat.le_antisymm hle hlog

lemma isDigits_of_signedDecimal {z : ℤ} (h : IsDigits (signedDecimal z)) : 0 ≤ z := by
  by_contra hneg
  rw [signedDecimal,if_pos (by omega)] at h
  exact absurd (h 45 List.mem_cons_self).1 (by decide)

lemma signedDecimal_of_nonneg {z : ℤ} (h : 0 ≤ z) : signedDecimal z = decimal z.natAbs :=
  if_neg (by omega)

lemma signedDecimal_of_neg {z : ℤ} (h : z < 0) : signedDecimal z = 45::decimal z.natAbs := if_pos h

theorem signedDecimal_injective : Function.Injective signedDecimal := by
  intro y z h
  have hsame : ∀ {n : ℕ}, ¬IsDigits (45::decimal n) :=
    fun hdigits => absurd (hdigits 45 List.mem_cons_self).1 (by decide)
  rcases lt_or_ge y 0 with hy | hy <;> rcases lt_or_ge z 0 with hz | hz
  · rw [signedDecimal_of_neg hy,signedDecimal_of_neg hz,List.cons.injEq] at h
    have := decimal_injective h.2
    omega
  · rw [signedDecimal_of_neg hy,signedDecimal_of_nonneg hz] at h
    exact absurd (h ▸ isDigits_decimal _) hsame
  · rw [signedDecimal_of_nonneg hy,signedDecimal_of_neg hz] at h
    exact absurd (h ▸ isDigits_decimal _) hsame
  · rw [signedDecimal_of_nonneg hy,signedDecimal_of_nonneg hz] at h
    have := decimal_injective h
    omega

/-- `n` is `m` with the digits `w` put after it. -/
def Longer (m : ℤ) (w : List UInt8) (n : ℤ) : Prop :=
  w = [] ∧ n = m ∨ IsDigits w ∧ m ≠ 0 ∧ n = m*10^w.length+m.sign*ofDecimal w

/-- `n` is `m` with the text `w` put before it: nothing, a minus sign, or another number. -/
def Headed (w : List UInt8) (m n : ℤ) : Prop :=
  w = [] ∧ n = m ∨ 0 < m ∧ w = [45] ∧ n = -m ∨
    0 ≤ m ∧ ∃ k : ℤ, k ≠ 0 ∧ Reads w k ∧ n = k*10^digitCount m.natAbs+k.sign*m

/-- A text that begins with a digit does not begin with a minus sign. -/
lemma minus_cons_ne {n : ℕ} {v w : List UInt8} : 45::v ≠ decimal n ++ w := by
  intro h
  obtain ⟨b,u,hu⟩ := List.exists_cons_of_ne_nil (decimal_ne_nil n)
  have hb : (48 : UInt8) ≤ b := (digit_of_mem_decimal (hu ▸ List.mem_cons_self)).1
  rw [hu,List.cons_append,List.cons.injEq] at h
  rw [← h.1] at hb
  exact absurd hb (by decide)

lemma longer_iff {m n : ℤ} {w : List UInt8} :
    Longer m w n ↔ signedDecimal n = signedDecimal m ++ w := by
  constructor
  · rintro (⟨rfl,rfl⟩ | ⟨hw,hm,rfl⟩)
    · rw [List.append_nil]
    · rcases lt_or_gt_of_ne hm with hneg | hpos
      · obtain ⟨k,hk,rfl⟩ : ∃ k : ℕ, 0 < k ∧ m = -k := ⟨m.natAbs,by omega,by omega⟩
        have hn : (-(k : ℤ))*10^w.length+(-(k : ℤ)).sign*ofDecimal w =
            -((k*10^w.length+ofDecimal w : ℕ) : ℤ) := by
          rw [Int.sign_eq_neg_one_of_neg hneg]
          push_cast
          ring
        have hsome : 0 < k*10^w.length := Nat.mul_pos hk (Nat.pow_pos (by decide))
        rw [hn,signedDecimal_of_neg hneg,signedDecimal_of_neg (by omega),Int.natAbs_neg,
          Int.natAbs_neg,Int.natAbs_natCast,Int.natAbs_natCast,List.cons_append,
          decimal_append hk hw]
      · obtain ⟨k,hk,rfl⟩ : ∃ k : ℕ, 0 < k ∧ m = k := ⟨m.natAbs,by omega,by omega⟩
        have hn : (k : ℤ)*10^w.length+(k : ℤ).sign*ofDecimal w =
            ((k*10^w.length+ofDecimal w : ℕ) : ℤ) := by
          rw [Int.sign_eq_one_of_pos hpos]
          push_cast
          ring
        rw [hn,signedDecimal_natCast,signedDecimal_natCast,decimal_append hk hw]
  · intro h
    rcases lt_or_ge m 0 with hm | hm
    · rw [signedDecimal_of_neg hm] at h
      have hn : n < 0 := by
        by_contra hn
        rw [signedDecimal_of_nonneg (by omega)] at h
        exact minus_cons_ne (w := []) (by rw [List.append_nil]; exact h.symm)
      rw [signedDecimal_of_neg hn,List.cons_append,List.cons.injEq,decimal_eq_append_iff] at h
      rcases h.2 with ⟨hw,heq⟩ | ⟨hw,-,heq⟩
      · exact .inl ⟨hw,by omega⟩
      · refine .inr ⟨hw,by omega,?_⟩
        have hcast : (n.natAbs : ℤ) = m.natAbs*10^w.length+ofDecimal w := by exact_mod_cast heq
        rw [Int.sign_eq_neg_one_of_neg hm]
        rw [Int.ofNat_natAbs_of_nonpos hn.le,Int.ofNat_natAbs_of_nonpos hm.le] at hcast
        rw [neg_mul] at hcast
        omega
    · rw [signedDecimal_of_nonneg hm] at h
      have hn : 0 ≤ n := by
        by_contra hn
        rw [signedDecimal_of_neg (by omega)] at h
        exact minus_cons_ne h
      rw [signedDecimal_of_nonneg hn,decimal_eq_append_iff] at h
      rcases h with ⟨hw,heq⟩ | ⟨hw,hpos,heq⟩
      · exact .inl ⟨hw,by omega⟩
      · refine .inr ⟨hw,by omega,?_⟩
        have hcast : (n.natAbs : ℤ) = m.natAbs*10^w.length+ofDecimal w := by exact_mod_cast heq
        rw [Int.sign_eq_one_of_pos (by omega),one_mul]
        rwa [Int.natAbs_of_nonneg hn,Int.natAbs_of_nonneg hm] at hcast

/-- The beginning of a numeral is a minus sign or a numeral. -/
lemma eq_signedDecimal_of_append {n : ℤ} {y w : List UInt8} (hy : y ≠ [])
    (h : signedDecimal n = y ++ w) : y = [45] ∨ ∃ k : ℤ, Reads y k := by
  rcases lt_or_ge n 0 with hn | hn
  · rw [signedDecimal_of_neg hn] at h
    obtain ⟨b,v,rfl⟩ := List.exists_cons_of_ne_nil hy
    rw [List.cons_append,List.cons.injEq] at h
    obtain ⟨rfl,h⟩ := h
    by_cases hv : v = []
    · exact .inl (by rw [hv])
    · refine .inr ⟨-ofDecimal v,reads_iff.2 ?_⟩
      have hvalue := eq_decimal_of_append hv h
      have hpos : 0 < ofDecimal v := by
        by_contra hzero
        have hzero : ofDecimal v = 0 := by omega
        rw [hvalue,hzero] at h
        have hsome : n.natAbs = 0 := (decimal_ne_zero_cons (w := w) h).2
        omega
      rw [signedDecimal_of_neg (by omega),Int.natAbs_neg,Int.natAbs_natCast,← hvalue]
  · rw [signedDecimal_of_nonneg hn] at h
    refine .inr ⟨ofDecimal y,reads_iff.2 ?_⟩
    rw [signedDecimal_natCast,← eq_decimal_of_append hy h]

lemma headed_iff {m n : ℤ} {w : List UInt8} :
    Headed w m n ↔ signedDecimal n = w ++ signedDecimal m := by
  constructor
  · rintro (⟨rfl,rfl⟩ | ⟨hm,rfl,rfl⟩ | ⟨hm,k,hk,hreads,rfl⟩)
    · rfl
    · rw [signedDecimal_of_neg (by omega),signedDecimal_of_nonneg hm.le,Int.natAbs_neg]
      rfl
    · have hdigits := isDigits_decimal m.natAbs
      have hlonger : Longer k (decimal m.natAbs) (k*10^digitCount m.natAbs+k.sign*m) := by
        refine .inr ⟨hdigits,hk,?_⟩
        rw [length_decimal,ofDecimal_decimal,Int.natAbs_of_nonneg hm]
      rw [longer_iff.1 hlonger,reads_iff.1 hreads,signedDecimal_of_nonneg hm]
  · intro h
    by_cases hw : w = []
    · rw [hw,List.nil_append] at h
      exact .inl ⟨hw,signedDecimal_injective h⟩
    rcases eq_signedDecimal_of_append hw h with rfl | ⟨k,hk⟩
    · have hn : n < 0 := by
        by_contra hn
        rw [signedDecimal_of_nonneg (by omega)] at h
        exact minus_cons_ne (w := []) (by rw [List.append_nil]; exact h.symm)
      rw [signedDecimal_of_neg hn,List.singleton_append,List.cons.injEq] at h
      have hm : 0 ≤ m := isDigits_of_signedDecimal (h.2 ▸ isDigits_decimal _)
      rw [signedDecimal_of_nonneg hm] at h
      have := decimal_injective h.2
      exact .inr (.inl ⟨by omega,rfl,by omega⟩)
    · rw [reads_iff.1 hk] at h
      rcases longer_iff.2 h with ⟨hnil,-⟩ | ⟨hdigits,hne,hn⟩
      · exact absurd hnil (signedDecimal_ne_nil m)
      · have hm := isDigits_of_signedDecimal hdigits
        rw [signedDecimal_of_nonneg hm,length_decimal,ofDecimal_decimal,
          Int.natAbs_of_nonneg hm] at hn
        exact .inr (.inr ⟨hm,k,hne,hk,hn⟩)

end GDFileStore.Sequences
