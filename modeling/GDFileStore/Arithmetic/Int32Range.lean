import Mathlib.Tactic.Ring
import Mathlib.Tactic.SplitIfs

/-! Exactness of two's complement `int` arithmetic whenever the mathematical result
fits the type. -/
namespace GDFileStore.Int32Range

/-- The mathematical integers that a 32-bit signed word can hold. -/
def Fits (x : ℤ) : Prop := -2^31 ≤ x ∧ x < 2^31

lemma fits_toInt (a : Int32) : Fits a.toInt := ⟨a.le_toInt,a.toInt_lt⟩

lemma bmod_eq_of_fits {x : ℤ} (h : Fits x) : x.bmod (2^32) = x := by
  obtain ⟨hlow,hhigh⟩ := h
  exact Int.bmod_eq_of_le (by omega) (by omega)

theorem toInt_add_of_fits {a b : Int32} (h : Fits (a.toInt+b.toInt)) :
    (a+b).toInt = a.toInt+b.toInt := by
  rw [Int32.toInt_add,bmod_eq_of_fits h]

theorem toInt_sub_of_fits {a b : Int32} (h : Fits (a.toInt-b.toInt)) :
    (a-b).toInt = a.toInt-b.toInt := by
  rw [Int32.toInt_sub,bmod_eq_of_fits h]

/-- A sum of three words is exact as soon as the total fits, even where the first
partial sum has wrapped. -/
theorem toInt_add_add_of_fits {a b c : Int32} (h : Fits (a.toInt+b.toInt+c.toInt)) :
    (a+b+c).toInt = a.toInt+b.toInt+c.toInt := by
  rw [Int32.toInt_add,Int32.toInt_add,Int.bmod_add_bmod,bmod_eq_of_fits h]

lemma toInt_ofNat_of_lt {n : ℕ} (h : n < 2^31) : (Int32.ofNat n).toInt = n :=
  Int32.toInt_ofNat_of_lt h

lemma ofNat_toNat_toInt {n : Int32} (h : 0 ≤ n.toInt) : Int32.ofNat n.toInt.toNat = n := by
  have hlt := n.toInt_lt
  rw [← Int32.toInt_inj,toInt_ofNat_of_lt (by omega),Int.toNat_of_nonneg h]

/-- A size that is not negative is the `int` of the length it is the size of. -/
lemma eq_toNat_iff {n : Int32} (hn : ¬n.toInt < 0) {m : ℕ} :
    m = n.toInt.toNat ↔ m < 2^31 ∧ n = Int32.ofNat m := by
  have hlt := n.toInt_lt
  constructor
  · rintro rfl
    exact ⟨by omega,(ofNat_toNat_toInt (by omega)).symm⟩
  · rintro ⟨hm,rfl⟩
    rw [toInt_ofNat_of_lt hm,Int.toNat_natCast]

lemma ofNat_eq_zero_iff {n : ℕ} : Int32.ofNat n = 0 ↔ 2^32 ∣ n := by
  have hzero : (0 : Int32).toInt = 0 := rfl
  rw [← Int32.toInt_inj,hzero,Int32.toInt_ofNat',← Int.dvd_iff_bmod_eq_zero,Int.natCast_dvd_natCast]
  rfl

end GDFileStore.Int32Range
