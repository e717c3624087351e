import GDFileStore.Queues.VersionStore
import GDFileStore.Queues.Server
import GDFileStore.Program.Crowd

/-! How far a phase of a write or a read has come at its worker: the view by which it is followed,
whatever its requests return. -/
namespace GDFileStore
open Sequences Program Prog

/-- Do the edits of a script up to the first that brings in an element. -/
def settle {α ι : Type*} : List (Sequences.Edit α) → List ι → List (Sequences.Edit α) × List ι
  | .delete p::es,l => settle es (l.eraseIdx p)
  | es,l => (es,l)

/-- What a worker is at. -/
inductive Work where
  /-- The init phase of a write that has not looked up its base version. -/
  | accepted (wopelog : WOpeLog)
  /-- The edits still to do and the list the others have left. -/
  | editing (wopelog : WOpeLog) (edits : List (Sequences.Edit Bytes)) (l : List Int64)
  /-- The first edit has its serial. -/
  | stamped (wopelog : WOpeLog) (edits : List (Sequences.Edit Bytes)) (l : List Int64) (serial : Int64)
  /-- The first edit has its serial, and the file of that serial is written. -/
  | written (wopelog : WOpeLog) (edits : List (Sequences.Edit Bytes)) (l : List Int64) (serial : Int64)
  /-- The edits are done, and a block of the list has its record in hand. -/
  | counting (wopelog : WOpeLog) (l : List Int64) (serial : Int64) (attr : ReferedBlock)
  | published (wopelog : WOpeLog)
  | moving
  /-- The list of a copying phase, and the block that has its record in hand. -/
  | copying (l : List Int64) (serial : Option Int64)
  | closing
  | asked (ropelog : ROpeLog)
  /-- The list of a version that is read, and the data read so far. -/
  | reading (ropelog : ROpeLog) (serials : List Int64) (datas : List Bytes)
  | free

namespace Work
variable (fs : FileStore)

def allowed : Work → Action → Prop
  | .accepted _,.doWOPEBegins _ => True
  | .accepted wopelog,.request (.getObjAttr key) => key = wopelog.wope.ghobj.key
  | .editing _ (_::_) _,.request .now => True
  | .editing _ [] l,.request (.getBlockAttr s) => s ∈ l
  | .editing wopelog [] l,.request (.setObjAttr key attr) =>
    key = wopelog.newKey ∧ attr.serialsList = l
  | .editing _ _ _,.request .outOfRange => True
  | .stamped _ (e::_) _ serial,.request (.writeFile path content) =>
    path = fs.journalFile serial ∧ e.value = some content
  | .written _ _ _ serial,.request (.setBlockAttr s attr) => s = serial ∧ attr = { serial := serial }
  | .written _ _ _ _,.request .outOfRange => True
  | .counting _ _ serial attr,.request (.setBlockAttr s attr') =>
    s = serial ∧ attr' = { attr with referCount := attr.referCount+1 }
  | .published _,.doWOPEReturns _ => True
  | .published wopelog,.httpSend reply => reply = .repWrite wopelog .primaryJournalWrite
  | .moving,.request (.getObjAttr _) => True
  | .copying l _,.request (.getBlockAttr s) => s ∈ l
  | .copying _ (some serial),.request (.copy source directory) =>
    source = fs.journalFile serial ∧ directory = getParentStr (fs.diskFile serial)
  | .copying _ _,.addWope _ => True
  | .closing,.httpSend reply => ∃ wopelog, reply = .repWrite wopelog .primaryDiskWrite
  | .asked ropelog,.request (.getObjAttr key) => key = ropelog.rope.ghobj.key
  | .reading ropelog serials datas,.request (.readFile path) =>
    ∃ block s, ropelog.rope.blocks[datas.length]? = some block ∧
      serials[block.toInt.toNat]? = some s ∧ path = fs.diskFile s
  | .reading _ _ _,.request .outOfRange => True
  | .reading ropelog _ datas,.httpSend reply =>
    datas.length = ropelog.rope.blocks.length ∧ reply = .repRead ropelog
      ⟨ropelog.opeId,ropelog.rope.ghobj,ropelog.rope.blocks,datas⟩
  | .free,.addWope _ => True
  | _,_ => False

def next : Work → (a : Action) → a.Resp → Work
  | .accepted wopelog,.request (.getObjAttr _),prb =>
    let orb := if prb.2 then prb.1 else { serialsList := [] }
    .editing wopelog (settle wopelog.wope.edits orb.serialsList).1
      (settle wopelog.wope.edits orb.serialsList).2
  | .editing wopelog edits l,.request .now,serial => .stamped wopelog edits l serial
  | .editing wopelog _ l,.request (.getBlockAttr s),attr => .counting wopelog l s attr.1
  | .editing wopelog _ _,.request (.setObjAttr _ _),_ => .published wopelog
  | .stamped wopelog edits l serial,.request (.writeFile _ _),_ => .written wopelog edits l serial
  | .written wopelog (e::es) l serial,.request (.setBlockAttr _ _),_ =>
    .editing wopelog (settle es ((e.map (fun _ => serial)).apply l)).1
      (settle es ((e.map (fun _ => serial)).apply l)).2
  | .counting wopelog l _ _,.request (.setBlockAttr _ _),_ => .editing wopelog [] l
  | .published _,.httpSend _,_ => .free
  | .moving,.request (.getObjAttr _),orb => .copying orb.1.serialsList none
  | .copying l _,.request (.getBlockAttr _),attr => .copying l (some attr.1.serial)
  | .copying l _,.request (.copy _ _),_ => .copying l none
  | .copying _ _,.addWope _,_ => .free
  | .closing,.httpSend _,_ => .free
  | .asked ropelog,.request (.getObjAttr _),orb => .reading ropelog orb.1.serialsList []
  | .reading ropelog serials datas,.request (.readFile _),data =>
    .reading ropelog serials (datas ++ [data])
  | .reading _ _ _,.httpSend _,_ => .free
  | v,_,_ => v

end Work

/-- The actions of the phases and reads of a server. -/
def workProtocol (fs : FileStore) : Protocol Action.Resp Work := ⟨Work.allowed fs,Work.next⟩

/-- Where a worker begins with a write in the given state. -/
def WOpeLog.begins (wopelog : WOpeLog) : Work :=
  match wopelog.wopeState with
  | .init => .accepted wopelog
  | .onJournal => .moving
  | .onDisk => .closing
  | .other => .free

lemma Task.actions_bind {α β : Type} (p : Task α) (f : α → Task β) :
    Task.actions (p >>= f) = Task.actions p >>= fun a => Task.actions (f a) := by
  induction p with
  | done a => rfl
  | call r rest ih => exact congrArg (Prog.call (Action.request r)) (funext ih)

namespace FileStore
variable (fs : FileStore) {wopelog : WOpeLog}

/-- The end of a job: nothing is left to do for its request. -/
abbrev Works {α : Type} (p : Activity α) (v : Work) (Q : α → Work → Prop) : Prop :=
  Follows (workProtocol fs) p v Q

lemma editLoop_works (types : List OpeType) (blockNums : List Int32) (blockDatas : List Bytes)
    (l : List Int64) : fs.Works (Task.actions (fs.editLoop types blockNums blockDatas l))
      (.editing wopelog (settle (toEdits types blockNums blockDatas) l).1
        (settle (toEdits types blockNums blockDatas) l).2)
      (fun l' v => v = .editing wopelog [] l') := by
  have hstuck : ∀ v : Work, v.allowed fs (.request .outOfRange) → fs.Works
      (Task.actions (outOfRange : Task (List Int64))) v (fun l' v => v = .editing wopelog [] l') :=
    fun v hv => ⟨hv,fun e => e.elim⟩
  induction blockNums generalizing types blockDatas l with
  | nil =>
    have hnil : toEdits types [] blockDatas = [] := by cases types <;> rfl
    rw [editLoop,hnil]
    exact rfl
  | cons blockNum blockNums ih =>
    cases types with
    | nil => exact hstuck _ trivial
    | cons opetype types =>
      cases blockDatas with
      | nil => exact hstuck _ trivial
      | cons blockData blockDatas =>
        simp only [editLoop]
        split
        · exact hstuck _ (by cases (settle (toEdits _ _ _) l).1 <;> exact trivial)
        · cases opetype with
          | delete =>
            simp only
            split
            · exact ih types blockDatas _
            · exact hstuck _ (by cases (settle (toEdits _ _ _) l).1 <;> exact trivial)
          | insert =>
            refine ⟨trivial,fun serial => ⟨⟨rfl,rfl⟩,fun _ => ⟨⟨rfl,rfl⟩,fun _ => ?_⟩⟩⟩
            exact ih types blockDatas _
          | overWrite =>
            refine ⟨trivial,fun serial => ⟨⟨rfl,rfl⟩,fun _ => ?_⟩⟩
            dsimp only
            split
            · exact ⟨⟨rfl,rfl⟩,fun _ => ih types blockDatas _⟩
            · exact hstuck _ trivial

lemma countLoop_works {l held : List Int64} (hl : l ⊆ held) :
    fs.Works (Task.actions (countLoop l)) (.editing wopelog [] held)
      (fun _ v => v = .editing wopelog [] held) := by
  induction l with
  | nil => exact rfl
  | cons s l ih =>
    refine ⟨hl List.mem_cons_self,fun attr => ⟨⟨rfl,rfl⟩,fun _ => ?_⟩⟩
    exact ih (fun t ht => hl (List.mem_cons_of_mem s ht))

lemma doWOPE_works : fs.Works (Task.actions (fs.doWOPE wopelog)) (.accepted wopelog)
    (fun _ v => v = .published wopelog) := by
  simp only [doWOPE,ask_eq,call_bind,done_bind]
  refine ⟨rfl,fun prb => ?_⟩
  change Follows _ (Task.actions (fs.editLoop _ _ _ _ >>= _)) _ _
  rw [Task.actions_bind]
  refine Follows.bind (fs.editLoop_works _ _ _ _) ?_
  rintro l _ rfl
  rw [Task.actions_bind]
  refine Follows.bind (fs.countLoop_works (fun s hs => hs)) ?_
  rintro _ _ rfl
  exact ⟨⟨rfl,rfl⟩,fun _ => rfl⟩

lemma copyLoop_works {last : Unit → Job Unit} {l held : List Int64} (hl : l ⊆ held)
    (serial : Option Int64) (hlast : ∀ serial : Option Int64,
      fs.Works (fs.jobActions (last ())) (.copying held serial) (fun _ v => v = .free)) :
    fs.Works (fs.jobActions (fs.copyLoop l >>= last)) (.copying held serial)
      (fun _ v => v = .free) := by
  induction l generalizing serial with
  | nil => exact hlast serial
  | cons s l ih =>
    have hrest := ih (fun t ht => hl (List.mem_cons_of_mem s ht))
    have hs : s ∈ held := hl List.mem_cons_self
    simp only [copyLoop,ask_eq,call_bind,done_bind]
    refine ⟨by cases serial <;> exact hs,fun attr => ?_⟩
    dsimp only
    split
    · exact ⟨⟨rfl,rfl⟩,fun _ => hrest none⟩
    · exact hrest _

/-- Every phase of a write keeps to the views, whatever its requests return. -/
theorem doWope_works (wopelog : WOpeLog) :
    fs.Works (fs.jobActions (fs.doWope wopelog)) wopelog.begins (fun _ v => v = .free) := by
  rw [WOpeLog.begins,doWope]
  cases wopelog.wopeState with
  | init =>
    refine ⟨trivial,fun _ => Follows.bind fs.doWOPE_works ?_⟩
    rintro _ _ rfl
    exact ⟨trivial,fun _ => ⟨rfl,fun _ => ⟨trivial,fun _ => rfl⟩⟩⟩
  | onJournal =>
    refine ⟨trivial,fun porb => fs.copyLoop_works (fun s hs => hs) none ?_⟩
    intro serial
    exact ⟨by cases serial <;> exact trivial,fun _ => by cases serial <;> rfl⟩
  | onDisk => exact ⟨⟨wopelog,rfl⟩,fun _ => rfl⟩
  | other => exact rfl

lemma readBlocks_works {ropelog : ROpeLog} (serials : List Int64) {last : List Bytes → Job Unit}
    (blocks : List Int32) (datas : List Bytes) (hblocks : ropelog.rope.blocks.drop datas.length = blocks)
    (hlast : ∀ rest : List Bytes, rest.length = blocks.length → fs.Works (fs.jobActions (last rest))
      (.reading ropelog serials (datas ++ rest)) (fun _ v => v = .free)) :
    fs.Works (fs.jobActions (fs.readBlocks serials blocks >>= last))
      (.reading ropelog serials datas) (fun _ v => v = .free) := by
  induction blocks generalizing datas last with
  | nil =>
    have hnil := hlast [] rfl
    rw [List.append_nil] at hnil
    exact hnil
  | cons block blocks ih =>
    have hblock : ropelog.rope.blocks[datas.length]? = some block := by
      rw [← List.head?_drop,hblocks]
      rfl
    rw [readBlocks]
    split
    · exact ⟨trivial,fun e => e.elim⟩
    · rename_i s hs
      split
      · simp only [ask_eq,call_bind,done_bind]
        refine ⟨⟨block,s,hblock,hs,rfl⟩,fun data => ?_⟩
        change Follows _ (fs.jobActions (fs.readBlocks serials blocks >>= _ >>= last)) _ _
        rw [bind_bind]
        apply ih (datas ++ [data])
        · rw [List.length_append,List.length_singleton,← List.drop_drop,hblocks]
          rfl
        · intro rest hrest
          rw [List.append_assoc]
          exact hlast (data::rest) (congrArg (·+1) hrest)
      · exact ⟨trivial,fun e => e.elim⟩

/-- And so does every read. -/
theorem doRope_works (ropelog : ROpeLog) :
    fs.Works (fs.jobActions (fs.doRope ropelog)) (.asked ropelog) (fun _ v => v = .free) := by
  simp only [doRope,ask_eq,call_bind,done_bind]
  refine ⟨rfl,fun orb => fs.readBlocks_works _ _ [] rfl ?_⟩
  intro datas hdatas
  exact ⟨⟨hdatas,rfl⟩,fun _ => rfl⟩

end FileStore
end GDFileStore
