import GDFileStore.Blocks.DoWOPE

/-! The files of single blocks: a path names its serial and its root, so that a block reads back as
what was last written to it. -/
namespace GDFileStore
open Sequences Program Prog

/-- A masked part in the signed arithmetic of the source has the numeral of the unsigned one: the
mask leaves no sign. -/
lemma part_signed (s mask shift : UInt64) (hmask : mask.toNat < 2^63) (hshift : shift.toNat < 63) :
    signedDecimal ((s.toInt64 &&& mask.toInt64) >>> shift.toInt64).toInt =
      decimal ((s &&& mask) >>> shift).toNat := by
  have hand : (s &&& mask).toNat < 2^63 := by
    rw [UInt64.toNat_and]
    exact lt_of_le_of_lt Nat.and_le_right hmask
  have hmsb : (s &&& mask).toBitVec.msb = false := by
    rw [BitVec.msb_eq_decide]
    simpa using hand
  have hmod : (shift.toInt64.toBitVec.smod 64).toNat = shift.toNat := by
    have hshiftMsb : shift.toBitVec.msb = false := by
      rw [BitVec.msb_eq_decide]
      simpa using hshift.trans (by decide)
    have h64 : (64#64).msb = false := rfl
    change (shift.toBitVec.smod 64#64).toNat = _
    rw [BitVec.smod_eq,hshiftMsb,h64]
    exact Nat.mod_eq_of_lt (hshift.trans (by decide))
  have hpart : ((s.toInt64 &&& mask.toInt64) >>> shift.toInt64).toBitVec =
      (s &&& mask).toBitVec >>> shift.toNat := by
    rw [Int64.toBitVec_shiftRight]
    change (s &&& mask).toBitVec.sshiftRight' _ = _
    rw [BitVec.sshiftRight',hmod,BitVec.sshiftRight_eq_of_msb_false hmsb]
  have hnat : ((s &&& mask) >>> shift).toNat = ((s &&& mask).toBitVec >>> shift.toNat).toNat := by
    rw [UInt64.toNat_shiftRight,BitVec.toNat_ushiftRight,Nat.mod_eq_of_lt (by omega)]
    rfl
  have hint : ((s.toInt64 &&& mask.toInt64) >>> shift.toInt64).toInt =
      ((s &&& mask) >>> shift).toNat := by
    rw [hnat,← Int64.toInt_toBitVec,hpart,BitVec.toInt_eq_toNat_of_lt]
    have hle := Nat.div_le_self (s &&& mask).toNat (2^shift.toNat)
    rw [BitVec.toNat_ushiftRight,Nat.shiftRight_eq_div_pow]
    change 2*((s &&& mask).toNat / 2^shift.toNat) < 2^64
    omega
  rw [hint,signedDecimal_natCast]

/-- The path as the source computes it: the first mask is no `long long`, so its part is unsigned,
and the other three parts are signed. -/
theorem getReferedBlockStoragePath_signed (hash : SerialHash) (rb : ReferedBlock)
    (rootPath : Bytes) :
    getReferedBlockStoragePath hash rb rootPath =
      let s := (hash.toFun rb.serial).toInt64
      let p1 := (s.toUInt64 &&& 0xffff000000000000) >>> 48
      let p2 := (s &&& 0x0000ffff00000000) >>> 32
      let p3 := (s &&& 0x00000000ffff0000) >>> 16
      let p4 := (s &&& 0x000000000000ffff) >>> 0
      rootPath ++ slash::(decimal p1.toNat ++ slash::(signedDecimal p2.toInt ++
        slash::(signedDecimal p3.toInt ++ slash::(signedDecimal p4.toInt ++ lit ".txt")))) := by
  have h2 := part_signed (hash.toFun rb.serial) 0x0000ffff00000000 32 (by decide) (by decide)
  have h3 := part_signed (hash.toFun rb.serial) 0x00000000ffff0000 16 (by decide) (by decide)
  have h4 := part_signed (hash.toFun rb.serial) 0x000000000000ffff 0 (by decide) (by decide)
  rw [getReferedBlockStoragePath,← h2,← h3,← h4]
  rfl

/-- `ReadReferedBlock`. -/
def readReferedBlock (hash : SerialHash) (serial : Int64) (rootPath : Bytes) : Task Bytes :=
  ask (Request.readFile (getReferedBlockStoragePath hash { serial := serial } rootPath))

/-- `WriteReferedBlock`, which does not look at what `WriteFile` returns. -/
def writeReferedBlock (hash : SerialHash) (rb : ReferedBlock) (rootPath data : Bytes) :
    Task Unit := do
  let _ ← Task.writeFile (getReferedBlockStoragePath hash rb rootPath) data
  return ()

/-- The roots that a store keeps blocks under. -/
inductive BlockRoot where
  | journalRB | rb
  deriving DecidableEq, Repr

/-- The arguments of a call of `WriteReferedBlock`, with the root by its name. -/
structure BlockWrite where
  rb : ReferedBlock
  root : BlockRoot
  data : Bytes

/-- The data of the last write to a serial under a root. -/
def lastWritten (serial : Int64) (root : BlockRoot) (writes : List BlockWrite) : Option Bytes :=
  (writes.reverse.find? (fun e => e.rb.serial = serial ∧ e.root = root)).map BlockWrite.data

lemma lastWritten_cons (serial : Int64) (root : BlockRoot) (e : BlockWrite)
    (writes : List BlockWrite) : lastWritten serial root (e::writes) =
      (lastWritten serial root writes).or
        (if e.rb.serial = serial ∧ e.root = root then some e.data else none) := by
  rw [lastWritten,lastWritten,List.reverse_cons,List.find?_append,Option.map_or,List.find?_singleton]
  by_cases h : e.rb.serial = serial ∧ e.root = root
  · simp [h]
  · simp [h]

namespace FileStore
variable (fs : FileStore)

def blockRootPath : BlockRoot → Bytes
  | .journalRB => fs.getJournalRBRoot
  | .rb => fs.getRBRoot

/-- Blocks have one path only where serial and root are the same. -/
theorem storagePath_inj [fs.hash.Separates] {a b : ReferedBlock} {root root' : BlockRoot} :
    getReferedBlockStoragePath fs.hash a (fs.blockRootPath root) =
        getReferedBlockStoragePath fs.hash b (fs.blockRootPath root') ↔
      a.serial = b.serial ∧ root = root' := by
  cases root <;> cases root' <;> simp [blockRootPath,storagePath_journal,storagePath_disk]

/-- The new block of an edit is written as any other. -/
lemma addNewReferedBlock_eq (data rootPath : Bytes) : fs.addNewReferedBlock data rootPath = (do
    let serial ← Task.now
    let rb : ReferedBlock := { serial := serial, referCount := 0 }
    writeReferedBlock fs.hash rb rootPath data
    return rb) := rfl

/-- The calls of `WriteReferedBlock`, one after another. -/
def writeReferedBlocks (writes : List BlockWrite) : Task Unit :=
  writes.forM (fun e => writeReferedBlock fs.hash e.rb (fs.blockRootPath e.root) e.data)

/-- A block's file holds what was last written to the block, or else what it held before. -/
theorem run_writeReferedBlocks [fs.hash.Separates] (writes : List BlockWrite) (w : World) :
    ∃ w', run Request.handle (fs.writeReferedBlocks writes) w = some ((),w') ∧
      ∀ serial root, let path :=
          getReferedBlockStoragePath fs.hash { serial := serial } (fs.blockRootPath root)
        w'.files path = (lastWritten serial root writes).or (w.files path) := by
  induction writes generalizing w with
  | nil => exact ⟨w,rfl,fun _ _ => rfl⟩
  | cons e writes ih =>
    let path := getReferedBlockStoragePath fs.hash e.rb (fs.blockRootPath e.root)
    obtain ⟨w',hrun,hfiles⟩ := ih { w with files := Function.update w.files path (some e.data) }
    refine ⟨w',hrun,?_⟩
    intro serial root
    have hpath : getReferedBlockStoragePath fs.hash { serial := serial } (fs.blockRootPath root) =
        path ↔ e.rb.serial = serial ∧ e.root = root := by
      rw [fs.storagePath_inj]
      exact and_congr eq_comm eq_comm
    dsimp only at hfiles ⊢
    rw [hfiles,lastWritten_cons,Function.update_apply]
    simp only [hpath]
    by_cases hsame : e.rb.serial = serial ∧ e.root = root
    · simp [hsame]
    · simp [hsame]

/-- Two paths are the same only where serial and root are, so after any writes a read gives what was
last written to the serial under the root, or else what its file held before. -/
theorem blocks_read_back [fs.hash.Separates] :
    (∀ (a b : ReferedBlock) (root root' : BlockRoot),
      getReferedBlockStoragePath fs.hash a (fs.blockRootPath root) =
        getReferedBlockStoragePath fs.hash b (fs.blockRootPath root') ↔
      a.serial = b.serial ∧ root = root') ∧
    ∀ (writes : List BlockWrite) (serial : Int64) (root : BlockRoot) (w : World), ∃ w',
      run Request.handle (do
        fs.writeReferedBlocks writes
        readReferedBlock fs.hash serial (fs.blockRootPath root)) w =
      some ((lastWritten serial root writes).getD ((w.files (getReferedBlockStoragePath fs.hash
        { serial := serial } (fs.blockRootPath root))).getD []),w') := by
  refine ⟨fun a b root root' => fs.storagePath_inj,?_⟩
  intro writes serial root w
  obtain ⟨w',hrun,hfiles⟩ := fs.run_writeReferedBlocks writes w
  refine ⟨w',?_⟩
  rw [run_bind,hrun,Option.bind_some]
  change some ((w'.files _).getD [],w') = _
  rw [hfiles serial root]
  cases lastWritten serial root writes <;> rfl

/-- One serial under the two roots. -/
theorem blocks_read_back_roots :
    getReferedBlockStoragePath sampleStore.hash { serial := -1 } sampleStore.getJournalRBRoot ≠
      getReferedBlockStoragePath sampleStore.hash { serial := -1 } sampleStore.getRBRoot ∧
    ∃ w, run Request.handle (do
        sampleStore.writeReferedBlocks [⟨⟨-1,0⟩,.rb,lit "x"⟩,⟨⟨-1,1⟩,.journalRB,lit "y"⟩]
        readReferedBlock sampleStore.hash (-1) sampleStore.getRBRoot) {} = some (lit "x",w) := by
  obtain ⟨hpaths,hread⟩ := sampleStore.blocks_read_back
  refine ⟨?_,hread _ (-1) .rb {}⟩
  intro hpath
  have hroot := ((hpaths { serial := -1 } { serial := -1 } .journalRB .rb).1 hpath).2
  cases hroot

end FileStore

end GDFileStore
