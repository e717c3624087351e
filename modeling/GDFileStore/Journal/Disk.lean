import GDFileStore.Blocks.Path
import GDFileStore.Headers.Header
import GDFileStore.Journal.Content

/-! `flushJouranl`: it copies to their storage paths the objects that have a record under the journal
head. The statement of `_flushProcessor` that would make these records is a comment. -/
namespace GDFileStore
open Sequences Program Prog Operation

/-- `Header::FromTo_string`. It throws where `substr` or `stoul` does. -/
def Header.fromToString (headerStr : Bytes) : Option Header :=
  if headerStr.length < 2 then none
  else (stoull (headerStr.drop 2)).map (fun n => ⟨n.toUInt32⟩)

namespace RocksKV

def beginWith (pre str : Bytes) : Bool :=
  if pre.length > str.length then false else str.take pre.length == pre

/-- `GetMatchPrefix`. `SeekForPrev` stops at the last key that is not after the prefix, and nowhere
where there is none. -/
def getMatchPrefix (db : Database) (pre : Bytes) : List (Bytes × Bytes) :=
  match (db.entries.filter (fun e => ¬Bytes.lt pre e.1)).getLast? with
  | none => []
  | some e =>
    (e::db.entries.filter (fun e => Bytes.lt pre e.1)).filter (fun e => beginWith pre e.1)

end RocksKV

/-- What a mounted store shares with its journal: the files and the pending operations, and the
key-value store. -/
structure MountedStore where
  journal : JournalState := {}
  kv : RocksKV := {}

namespace FileStore
variable (fs : FileStore)

/-- The journal of a store whose path is absolute. -/
def journal (logJournalHead : Bytes) : Journal := ⟨fs.path ++ lit "/Journal",logJournalHead⟩

def getPageGroupsRoot : Bytes := fs.path ++ lit "/PG"

/-- `GetGHObjectStoragePath`, for the names that the hash of an object gives page groups. -/
def getGHObjectStoragePath (pageGroup : GHObject → Bytes) (gh : GHObject) : Bytes :=
  fs.getPageGroupsRoot ++ lit "/" ++ pageGroup gh ++ lit "/" ++ gh.hobj.oid.name ++ lit ".txt"

end FileStore

/-- `ReadObject`. -/
def Journal.readObject (journal : Journal) (s : MountedStore) (gh : GHObject) : Bool × Bytes :=
  let uni := getObjUniqueStrDesc gh
  match s.kv.db.find (journal.logJournalHead ++ uni) with
  | some _ => (true,readFile s.journal.files (journal.storagePath ++ lit "/" ++ uni))
  | none => (false,[])

section Flush
variable (fs : FileStore) (pageGroup : GHObject → Bytes) (logJournalHead : Bytes)
  (memory : GHObject)

/-- One turn of the loop of `flushJouranl`. -/
def flushRecord (s : MountedStore) (record : Bytes × Bytes) : Option MountedStore := do
  let head := record.1.drop logJournalHead.length
  let h ← Header.fromToString head
  let (gh,kv) ← s.kv.getObj memory h
  let s := { s with kv := kv }
  let journalRet := (fs.journal logJournalHead).readObject s gh
  let files :=
    if journalRet.1 then
      Function.update s.journal.files (fs.getGHObjectStoragePath pageGroup gh) (some journalRet.2)
    else s.journal.files
  let kv ← s.kv.eraseHeader gh
  return { journal := { s.journal with files := files },kv := kv }

/-- `flushJouranl`. It has no outcome while the lock is held, and none where a turn of its loop
throws. -/
def flushJouranl (s : MountedStore) : Option MountedStore :=
  if s.journal.locked then none
  else (RocksKV.getMatchPrefix s.kv.db logJournalHead).foldlM
    (flushRecord fs pageGroup logJournalHead memory) s

/-- A flush of the journal ends, has copied what the journal holds of the objects, has left no
record, and changes nothing when it is done again. -/
def FlushesJournal (written : Set GHObject) (s : MountedStore) : Prop :=
  ∃ u, flushJouranl fs pageGroup logJournalHead memory s = some u ∧
    (∀ gh ∈ written, u.journal.files (fs.getGHObjectStoragePath pageGroup gh) =
      u.journal.files ((fs.journal logJournalHead).path gh)) ∧
    (∀ key, RocksKV.beginWith logJournalHead key = true → u.kv.db.find key = none) ∧
    flushJouranl fs pageGroup logJournalHead memory u = some u

end Flush

/-- No key is a record under the journal head. -/
def NoRecord (logJournalHead : Bytes) (db : Database) : Prop :=
  ∀ e ∈ db.entries, RocksKV.beginWith logJournalHead e.1 = false

lemma NoRecord.find {logJournalHead : Bytes} {db : Database} (h : NoRecord logJournalHead db)
    {key : Bytes} (hkey : RocksKV.beginWith logJournalHead key = true) : db.find key = none := by
  rw [Option.eq_none_iff_forall_ne_some]
  intro v hv
  obtain ⟨q,hmem,hsame⟩ := OrderedMap.find_eq_some_iff.1 hv
  obtain rfl := SameKey.iff_eq.1 hsame
  have hfalse := h _ hmem
  rw [hkey] at hfalse
  cases hfalse

lemma NoRecord.getMatchPrefix {logJournalHead : Bytes} {db : Database}
    (h : NoRecord logJournalHead db) : RocksKV.getMatchPrefix db logJournalHead = [] := by
  rw [RocksKV.getMatchPrefix]
  split
  · rfl
  · rename_i e hlast
    rw [List.filter_eq_nil_iff]
    intro d hd
    have hmem : d ∈ db.entries := by
      rcases List.mem_cons.1 hd with rfl | hd
      · exact List.mem_of_mem_filter (List.mem_of_getLast? hlast)
      · exact List.mem_of_mem_filter hd
    simp [h d hmem]

lemma flushJouranl_of_noRecord (fs : FileStore) (pageGroup : GHObject → Bytes)
    {logJournalHead : Bytes} (memory : GHObject) {s : MountedStore} (hs : s.journal.locked = false)
    (h : NoRecord logJournalHead s.kv.db) :
    flushJouranl fs pageGroup logJournalHead memory s = some s := by
  rw [flushJouranl,hs,h.getMatchPrefix]
  rfl

/-- A storage path is no path of the journal. -/
lemma FileStore.storagePath_ne (fs : FileStore) (pageGroup : GHObject → Bytes)
    (logJournalHead : Bytes) (a b : GHObject) :
    fs.getGHObjectStoragePath pageGroup a ≠ (fs.journal logJournalHead).path b := by
  intro h
  simp only [getGHObjectStoragePath,getPageGroupsRoot,journal,Journal.path,List.append_assoc] at h
  have hrest := List.append_cancel_left h
  have hsecond := congrArg (fun l => l[1]?) hrest
  exact absurd hsecond (by simp [lit])

namespace Journal
variable {journal : Journal} {s t : JournalState}

lemma flushProcessor_other {path : Bytes} (hpath : ∀ gh, journal.path gh ≠ path)
    (h : run journal.handle journal.flushProcessor s = some ((),t)) :
    t.files path = s.files path := by
  obtain ⟨u,hloop,rfl⟩ := journal.run_flushProcessor h
  rcases journal.flushObjects_files hloop path with ⟨-,hfile⟩ | ⟨e,-,heq,-⟩
  · exact hfile
  · exact absurd heq (hpath e.1)

/-- A file that is none of the journal's stays as it is. -/
lemma handleAll_other {path : Bytes} (hpath : ∀ gh, journal.path gh ≠ path)
    {calls : List JournalCall} (h : run journal.handle (journal.handleAll calls) s = some ((),t)) :
    t.files path = s.files path := by
  refine handleAll_invariant (fun u => u.files path = s.files path) ?_ h rfl
  intro c u v hcall hu
  rcases run_handleWriteOperation hcall with ⟨-,rfl⟩ | ⟨-,hflush⟩
  · exact hu
  · exact (flushProcessor_other hpath hflush).trans hu

lemma handleAll_locked {calls : List JournalCall} (hs : s.locked = false)
    (h : run journal.handle (journal.handleAll calls) s = some ((),t)) : t.locked = false :=
  handleAll_invariant (fun u => u.locked = false)
    (fun hcall hu => (handleWriteOperation_memory hu hcall).1) h hs

end Journal

namespace JournalCall

/-- The calls of `HandleWriteOperation(op, true)`, one for each operation. -/
def urgent (ops : List Operation) : List JournalCall := ops.map (fun op => .one op true)

lemma operations_urgent (ops : List Operation) : operations (urgent ops) = ops := by
  rw [operations,urgent,List.flatMap_map]
  exact List.flatMap_singleton' ops

lemma urgent_endFlushed {ops : List Operation} (h : ops ≠ []) : EndFlushed (urgent ops) := by
  obtain ⟨front,op,rfl⟩ := (List.eq_nil_or_concat' ops).resolve_left h
  simp [EndFlushed,urgent,emengency]

end JournalCall

/-- On a store without a record under the journal head, and no write makes one: a flush of the
journal does what it is for exactly when the storage file of each written object holds, before the
first write, what the journal holds of it after the last. -/
theorem flushJouranl_iff (fs : FileStore) (pageGroup : GHObject → Bytes) (logJournalHead : Bytes)
    (memory : GHObject) {objs : Set GHObject} (hobjs : JournalObjects objs)
    (files : Bytes → Option Bytes) (kv : RocksKV) (hrecord : NoRecord logJournalHead kv.db)
    {ops : List Operation} (huse : ∀ op ∈ ops, op.obj ∈ objs)
    (hlegal : ∀ gh ∈ objs, Legal (files ((fs.journal logJournalHead).path gh))
      (ops.filter (fun op => op.obj = gh))) {t : JournalState}
    (hrun : run (fs.journal logJournalHead).handle
      ((fs.journal logJournalHead).handleAll (JournalCall.urgent ops)) { files := files } =
        some ((),t)) :
    FlushesJournal fs pageGroup logJournalHead memory {gh | ∃ op ∈ ops, op.obj = gh} ⟨t,kv⟩ ↔
      ∀ gh, (∃ op ∈ ops, op.obj = gh) → files (fs.getGHObjectStoragePath pageGroup gh) =
        edited (files ((fs.journal logJournalHead).path gh))
          (ops.filter (fun op => op.obj = gh)) := by
  have hflush : flushJouranl fs pageGroup logJournalHead memory ⟨t,kv⟩ = some ⟨t,kv⟩ :=
    flushJouranl_of_noRecord fs pageGroup memory (Journal.handleAll_locked rfl hrun) hrecord
  have hstorage : ∀ gh, t.files (fs.getGHObjectStoragePath pageGroup gh) =
      files (fs.getGHObjectStoragePath pageGroup gh) := fun gh =>
    Journal.handleAll_other (fun a => (fs.storagePath_ne pageGroup logJournalHead gh a).symm) hrun
  have hjournal : ∀ gh, (∃ op ∈ ops, op.obj = gh) →
      t.files ((fs.journal logJournalHead).path gh) =
        edited (files ((fs.journal logJournalHead).path gh))
          (ops.filter (fun op => op.obj = gh)) := by
    rintro gh ⟨op,hop,rfl⟩
    have hown := hobjs.onObject_eq (huse op hop) huse
    have hrecognized := hobjs.recognized (huse op hop) huse
    have hown' := hown ▸ hlegal _ (huse op hop)
    rw [← JournalCall.operations_urgent ops] at hrecognized hown'
    have hfile := Journal.handleAll_file hrecognized hown'
      (JournalCall.urgent_endFlushed (List.ne_nil_of_mem hop)) hrun
    rwa [JournalCall.operations_urgent,hown] at hfile
  constructor
  · rintro ⟨u,hu,hcopied,-⟩ gh hgh
    cases hflush.symm.trans hu
    rw [← hstorage gh,← hjournal gh hgh]
    exact hcopied gh hgh
  · intro hall
    refine ⟨⟨t,kv⟩,hflush,?_,fun key hkey => hrecord.find hkey,hflush⟩
    intro gh hgh
    rw [hstorage gh,hjournal gh hgh]
    exact hall gh hgh

def oneAppend : List Operation := [OperationWrapper.appendWrapper (generation 1) (lit "a")]

lemma oneAppend_objects : JournalObjects {gh | ∃ op ∈ oneAppend, op.obj = gh} := by
  rintro a ⟨o,ho,rfl⟩ b ⟨o',ho',rfl⟩ hne
  rw [List.mem_singleton.1 ho,List.mem_singleton.1 ho'] at hne
  exact absurd rfl hne

lemma oneAppend_legal : ∀ gh ∈ {gh | ∃ op ∈ oneAppend, op.obj = gh},
    Legal none (oneAppend.filter (fun op => op.obj = gh)) := by
  rintro gh ⟨o,ho,rfl⟩
  rw [List.mem_singleton.1 ho]
  exact ⟨by decide,by decide +kernel,by decide +kernel⟩

/-- An object whose storage file holds already what is appended to its journal. -/
theorem flushJouranl_iff_copied : ∃ t, FlushesJournal sampleStore (fun _ => lit "0000")
    (lit "journal::") {} {gh | ∃ op ∈ oneAppend, op.obj = gh} ⟨t,{}⟩ := by
  let pageGroup : GHObject → Bytes := fun _ => lit "0000"
  let journal := sampleStore.journal (lit "journal::")
  let files : Bytes → Option Bytes := Function.update (fun _ => none)
    (sampleStore.getGHObjectStoragePath pageGroup (generation 1)) (some (lit "a"))
  have hrun : (run journal.handle (journal.handleAll (JournalCall.urgent oneAppend))
      { files := files }).isSome := by decide +kernel
  obtain ⟨⟨_,t⟩,ht⟩ := Option.isSome_iff_exists.1 hrun
  have hnone : files (journal.path (generation 1)) = none := by decide +kernel
  refine ⟨t,(flushJouranl_iff sampleStore pageGroup (lit "journal::") {} oneAppend_objects files {}
    nofun (fun op hop => ⟨op,hop,rfl⟩) ?_ ht).2 ?_⟩
  · rintro gh ⟨o,ho,rfl⟩
    have hlegal := oneAppend_legal o.obj ⟨o,ho,rfl⟩
    rw [List.mem_singleton.1 ho] at hlegal ⊢
    exact hnone ▸ hlegal
  · rintro gh ⟨o,ho,rfl⟩
    rw [List.mem_singleton.1 ho]
    decide +kernel

/-- A fresh store: the append is in the journal, which has no record of it, and never gets to the
storage path. -/
theorem journal_not_flushed : ∃ (ops : List Operation) (t : JournalState),
    JournalObjects {gh | ∃ op ∈ ops, op.obj = gh} ∧
      (∀ gh ∈ {gh | ∃ op ∈ ops, op.obj = gh}, Legal none (ops.filter (fun op => op.obj = gh))) ∧
      run (sampleStore.journal (lit "journal::")).handle
        ((sampleStore.journal (lit "journal::")).handleAll (JournalCall.urgent ops)) {} =
          some ((),t) ∧
      ¬FlushesJournal sampleStore (fun _ => lit "0000") (lit "journal::") {}
        {gh | ∃ op ∈ ops, op.obj = gh} ⟨t,{}⟩ := by
  let journal := sampleStore.journal (lit "journal::")
  let storage := sampleStore.getGHObjectStoragePath (fun _ => lit "0000") (generation 1)
  have hrun : (run journal.handle (journal.handleAll (JournalCall.urgent oneAppend)) {}).map
      (fun r => (r.2.files storage,r.2.files (journal.path (generation 1)))) =
      some (none,some (lit "a")) := by decide +kernel
  obtain ⟨⟨_,t⟩,ht,hfiles⟩ := Option.map_eq_some_iff.1 hrun
  simp only [Prod.mk.injEq] at hfiles
  obtain ⟨hstorage,hjournal⟩ := hfiles
  refine ⟨oneAppend,t,oneAppend_objects,oneAppend_legal,ht,?_⟩
  rintro ⟨u,hu,hcopied,-⟩
  have hflush : flushJouranl sampleStore (fun _ => lit "0000") (lit "journal::") {} ⟨t,{}⟩ =
      some ⟨t,{}⟩ :=
    flushJouranl_of_noRecord _ _ _ (Journal.handleAll_locked rfl ht) nofun
  cases hflush.symm.trans hu
  have hsame := hcopied (generation 1) ⟨_,List.mem_singleton_self _,rfl⟩
  cases hstorage.symm.trans (hsame.trans hjournal)

end GDFileStore
