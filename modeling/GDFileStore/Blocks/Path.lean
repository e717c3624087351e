import GDFileStore.Objects.Block
import GDFileStore.Sequences.Decimal

/-! Where a block's file lies under the two block roots of a store. -/
namespace GDFileStore
open Sequences

/-- `std::hash<int64_t>`, which is not part of the program. -/
structure SerialHash where
  toFun : Int64 → UInt64

/-- The hash separates the serials. A block's storage path is built from the hash alone, so that
distinct blocks have distinct files only as far as it does. -/
class SerialHash.Separates (hash : SerialHash) : Prop where
  injective : Function.Injective hash.toFun

/-- The hash of a library whose `std::hash<int64_t>` is the identity. -/
def identityHash : SerialHash := ⟨Int64.toUInt64⟩

instance : identityHash.Separates where
  injective := by
    rintro ⟨a⟩ ⟨b⟩ h
    exact congrArg Int64.ofUInt64 h

def getReferedBlockStoragePath (hash : SerialHash) (rb : ReferedBlock) (rootPath : Bytes) : Bytes :=
  let s := hash.toFun rb.serial
  let p1 := (s &&& 0xffff000000000000) >>> 48
  let p2 := (s &&& 0x0000ffff00000000) >>> 32
  let p3 := (s &&& 0x00000000ffff0000) >>> 16
  let p4 := (s &&& 0x000000000000ffff) >>> 0
  rootPath ++ slash::(decimal p1.toNat ++ slash::(decimal p2.toNat ++
    slash::(decimal p3.toNat ++ slash::(decimal p4.toNat ++ lit ".txt"))))

/-- `GetParentStr`: the path up to and with its last separator. -/
def getParentStr (path : Bytes) : Bytes :=
  (path.reverse.dropWhile (fun c => c != slash && c != 92)).reverse

/-- `filesystem::path::filename`. -/
def fileName (path : Bytes) : Bytes := (path.reverse.takeWhile (fun c => c != slash)).reverse

/-- `filesystem::path::operator/` for a relative right side. -/
def joinPath (directory name : Bytes) : Bytes :=
  if directory.getLast? = some slash then directory ++ name else directory ++ slash::name

/-- The configuration of a `GDFileStore`: its directory, its node and the library's hash. -/
structure FileStore where
  path : Bytes
  info : InfoForNetNode
  hash : SerialHash

def sampleStore : FileStore where
  path := lit "/s"
  info := {}
  hash := identityHash

instance : sampleStore.hash.Separates := inferInstanceAs identityHash.Separates

namespace FileStore

def getJournalRBRoot (fs : FileStore) : Bytes := fs.path ++ lit "/Journal/rb"

def getRBRoot (fs : FileStore) : Bytes := fs.path ++ lit "/rb"

/-- The file of a block under the journal block root. -/
def journalFile (fs : FileStore) (serial : Int64) : Bytes :=
  getReferedBlockStoragePath fs.hash { serial := serial } fs.getJournalRBRoot

/-- The file of a block under the disk block root. -/
def diskFile (fs : FileStore) (serial : Int64) : Bytes :=
  getReferedBlockStoragePath fs.hash { serial := serial } fs.getRBRoot

end FileStore

lemma and_mask_shiftRight (n k : ℕ) : (n &&& (65535 <<< k)) >>> k = n / 2^k % 65536 := by
  rw [Nat.shiftRight_and_distrib,Nat.shiftLeft_shiftRight,Nat.shiftRight_eq_div_pow]
  exact Nat.and_two_pow_sub_one_eq_mod _ 16

lemma part_toNat (s mask : UInt64) (k : ℕ) (shift : UInt64) (hk : shift.toNat = k) (hlt : k < 64)
    (hmask : mask.toNat = 65535 <<< k) :
    ((s &&& mask) >>> shift).toNat = s.toNat / 2^k % 65536 := by
  rw [UInt64.toNat_shiftRight,UInt64.toNat_and,hk,hmask,Nat.mod_eq_of_lt hlt,and_mask_shiftRight]

/-- The four parts keep all 64 bits. -/
lemma eq_of_parts {a b : UInt64}
    (h1 : ((a &&& 0xffff000000000000) >>> 48).toNat = ((b &&& 0xffff000000000000) >>> 48).toNat)
    (h2 : ((a &&& 0x0000ffff00000000) >>> 32).toNat = ((b &&& 0x0000ffff00000000) >>> 32).toNat)
    (h3 : ((a &&& 0x00000000ffff0000) >>> 16).toNat = ((b &&& 0x00000000ffff0000) >>> 16).toNat)
    (h4 : ((a &&& 0x000000000000ffff) >>> 0).toNat = ((b &&& 0x000000000000ffff) >>> 0).toNat) :
    a = b := by
  have e1 := fun s => part_toNat s 0xffff000000000000 48 48 rfl (by omega) rfl
  have e2 := fun s => part_toNat s 0x0000ffff00000000 32 32 rfl (by omega) rfl
  have e3 := fun s => part_toNat s 0x00000000ffff0000 16 16 rfl (by omega) rfl
  have e4 := fun s => part_toNat s 0x000000000000ffff 0 0 rfl (by omega) rfl
  rw [e1,e1] at h1
  rw [e2,e2] at h2
  rw [e3,e3] at h3
  rw [e4,e4] at h4
  have ha := a.toNat_lt
  have hb := b.toNat_lt
  apply UInt64.toNat.inj
  omega

lemma slash_notMem_decimal (n : ℕ) : slash ∉ decimal n := notMem_decimal (by decide)

lemma lit_txt : lit ".txt" = [46,116,120,116] := by decide

/-- Under one root, a path names its serial. -/
theorem getReferedBlockStoragePath_inj {hash : SerialHash} [hash.Separates] {a b : ReferedBlock}
    {root : Bytes}
    (h : getReferedBlockStoragePath hash a root = getReferedBlockStoragePath hash b root) :
    a.serial = b.serial := by
  have htail := List.cons.inj (List.append_cancel_left h)
  obtain ⟨h1,r1⟩ := append_cons_inj_of_notMem_left (slash_notMem_decimal _)
    (slash_notMem_decimal _) htail.2
  obtain ⟨h2,r2⟩ := append_cons_inj_of_notMem_left (slash_notMem_decimal _)
    (slash_notMem_decimal _) r1
  obtain ⟨h3,r3⟩ := append_cons_inj_of_notMem_left (slash_notMem_decimal _)
    (slash_notMem_decimal _) r2
  have h4 := List.append_cancel_right r3
  exact SerialHash.Separates.injective (eq_of_parts (decimal_injective h1) (decimal_injective h2)
    (decimal_injective h3) (decimal_injective h4))

/-- A block path is a directory under the root, then a file name that holds no separator and
does not depend on the root. -/
lemma getReferedBlockStoragePath_split (hash : SerialHash) (rb : ReferedBlock) :
    ∃ dir name, slash ∉ name ∧ (92 : UInt8) ∉ name ∧ ∀ root,
      getReferedBlockStoragePath hash rb root = (root ++ dir) ++ slash::name := by
  let s := hash.toFun rb.serial
  refine ⟨slash::(decimal ((s &&& 0xffff000000000000) >>> 48).toNat ++
    slash::(decimal ((s &&& 0x0000ffff00000000) >>> 32).toNat ++
    slash::decimal ((s &&& 0x00000000ffff0000) >>> 16).toNat)),
    decimal ((s &&& 0x000000000000ffff) >>> 0).toNat ++ lit ".txt",?_,?_,?_⟩
  · rw [lit_txt,List.mem_append]
    intro h
    exact h.elim (slash_notMem_decimal _) (by decide)
  · rw [lit_txt,List.mem_append]
    rintro (h | h)
    · exact absurd (digit_of_mem_decimal h).2 (by decide)
    · exact absurd h (by decide)
  · intro root
    simp [getReferedBlockStoragePath,s]

lemma getParentStr_split {dir name : Bytes} (hs : slash ∉ name) (hb : (92 : UInt8) ∉ name) :
    getParentStr (dir ++ slash::name) = dir ++ [slash] := by
  have hall : ∀ c ∈ name.reverse, (c != slash && c != 92) = true := by
    intro c hc
    have hm := List.mem_reverse.1 hc
    simp only [Bool.and_eq_true,bne_iff_ne,ne_eq]
    exact ⟨fun h => hs (h ▸ hm),fun h => hb (h ▸ hm)⟩
  have hrev : (dir ++ slash::name).reverse = name.reverse ++ slash::dir.reverse := by simp
  rw [getParentStr,hrev,List.dropWhile_append_of_pos hall]
  simp

lemma fileName_split {dir name : Bytes} (hs : slash ∉ name) :
    fileName (dir ++ slash::name) = name := by
  have hall : ∀ c ∈ name.reverse, (c != slash) = true := by
    intro c hc
    rw [bne_iff_ne]
    exact fun h => hs (h ▸ List.mem_reverse.1 hc)
  have hrev : (dir ++ slash::name).reverse = name.reverse ++ slash::dir.reverse := by simp
  rw [fileName,hrev,List.takeWhile_append_of_pos hall]
  simp

/-- Copying a block's file from one root into the parent directory of its path under another
root puts it at that path. -/
theorem joinPath_parent_fileName (hash : SerialHash) (rb : ReferedBlock) (root root' : Bytes) :
    joinPath (getParentStr (getReferedBlockStoragePath hash rb root'))
      (fileName (getReferedBlockStoragePath hash rb root)) =
      getReferedBlockStoragePath hash rb root' := by
  obtain ⟨dir,name,hs,hb,hsplit⟩ := getReferedBlockStoragePath_split hash rb
  rw [hsplit,hsplit,getParentStr_split hs hb,fileName_split hs]
  simp [joinPath]

namespace FileStore
variable (fs : FileStore)

lemma storagePath_journal (rb : ReferedBlock) :
    getReferedBlockStoragePath fs.hash rb fs.getJournalRBRoot = fs.journalFile rb.serial := rfl

lemma storagePath_disk (rb : ReferedBlock) :
    getReferedBlockStoragePath fs.hash rb fs.getRBRoot = fs.diskFile rb.serial := rfl

@[simp] lemma journalFile_inj [fs.hash.Separates]
    {a b : Int64} : fs.journalFile a = fs.journalFile b ↔ a = b :=
  ⟨fun h => getReferedBlockStoragePath_inj h,fun h => h ▸ rfl⟩

@[simp] lemma diskFile_inj [fs.hash.Separates]
    {a b : Int64} : fs.diskFile a = fs.diskFile b ↔ a = b :=
  ⟨fun h => getReferedBlockStoragePath_inj h,fun h => h ▸ rfl⟩

/-- The two roots never share a block file: they differ in the letter after the store's path. -/
@[simp] lemma journalFile_ne_diskFile (a b : Int64) : fs.journalFile a ≠ fs.diskFile b := by
  have hj : lit "/Journal/rb" = [47,74,111,117,114,110,97,108,47,114,98] := by decide
  have hd : lit "/rb" = [47,114,98] := by decide
  intro h
  rw [journalFile,diskFile,getReferedBlockStoragePath,getReferedBlockStoragePath,getJournalRBRoot,
    getRBRoot,hj,hd,List.append_assoc,List.append_assoc] at h
  have htail := List.append_cancel_left h
  simp at htail

@[simp] lemma diskFile_ne_journalFile (a b : Int64) : fs.diskFile a ≠ fs.journalFile b :=
  (fs.journalFile_ne_diskFile b a).symm

lemma copy_target (serial : Int64) :
    joinPath (getParentStr (fs.diskFile serial)) (fileName (fs.journalFile serial)) =
      fs.diskFile serial := joinPath_parent_fileName fs.hash _ _ _

end FileStore
end GDFileStore
