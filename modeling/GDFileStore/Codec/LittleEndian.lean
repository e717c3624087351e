import Mathlib.Tactic.Ring

/-! Numbers as bytes, least significant first, and their way back. -/
namespace GDFileStore.Codec

/-- The `w` low bytes of a number. -/
def leBytes : ℕ → ℕ → List UInt8
  | 0,_ => []
  | w+1,n => UInt8.ofNat n::leBytes w (n/256)

def ofLeBytes : List UInt8 → ℕ
  | [] => 0
  | b::bytes => b.toNat+256*ofLeBytes bytes

@[simp] lemma length_leBytes (w n : ℕ) : (leBytes w n).length = w := by
  induction w generalizing n with
  | zero => rfl
  | succ w ih => rw [leBytes,List.length_cons,ih]

theorem ofLeBytes_leBytes (w n : ℕ) : ofLeBytes (leBytes w n) = n % 256^w := by
  induction w generalizing n with
  | zero => simp [leBytes,ofLeBytes,Nat.mod_one]
  | succ w ih =>
    have hbyte : (UInt8.ofNat n).toNat = n % 256 := UInt8.toNat_ofNat'
    rw [leBytes,ofLeBytes,ih,hbyte,pow_succ',Nat.mod_mul]

/-- The bytes of a machine word give the word back. -/
theorem ofLeBytes_bitVec (w : ℕ) (v : BitVec (8*w)) :
    BitVec.ofNat (8*w) (ofLeBytes (leBytes w v.toNat)) = v := by
  have hlt : v.toNat < 256^w := by
    have hpow : (256 : ℕ)^w = 2^(8*w) := by norm_num [pow_mul]
    rw [hpow]
    exact v.isLt
  rw [ofLeBytes_leBytes,Nat.mod_eq_of_lt hlt,BitVec.ofNat_toNat,BitVec.setWidth_eq]

lemma ofLeBytes_lt (bytes : List UInt8) : ofLeBytes bytes < 256^bytes.length := by
  induction bytes with
  | nil => simp [ofLeBytes]
  | cons b bytes ih =>
    have hb := b.toNat_lt
    rw [ofLeBytes,List.length_cons,pow_succ']
    omega

/-- Bytes give a number that gives them back. -/
theorem leBytes_ofLeBytes (bytes : List UInt8) : leBytes bytes.length (ofLeBytes bytes) = bytes := by
  induction bytes with
  | nil => rfl
  | cons b bytes ih =>
    have hb := b.toNat_lt
    have hbyte : UInt8.ofNat (b.toNat+256*ofLeBytes bytes) = b := by
      rw [← UInt8.toNat_inj,UInt8.toNat_ofNat']
      omega
    have hrest : (b.toNat+256*ofLeBytes bytes)/256 = ofLeBytes bytes := by omega
    rw [List.length_cons,ofLeBytes,leBytes,hbyte,hrest,ih]

lemma leBytes_bitVec {w : ℕ} {bytes : List UInt8} (h : bytes.length = w) :
    leBytes w (BitVec.ofNat (8*w) (ofLeBytes bytes)).toNat = bytes := by
  subst h
  have hpow : (256 : ℕ)^bytes.length = 2^(8*bytes.length) := by norm_num [pow_mul]
  rw [BitVec.toNat_ofNat,Nat.mod_eq_of_lt (hpow ▸ ofLeBytes_lt bytes),leBytes_ofLeBytes]

end GDFileStore.Codec
