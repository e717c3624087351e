import GDFileStore.Queues.Server
import GDFileStore.Program.Pool
import GDFileStore.Sequences.Tickets

/-! Every accepted write request is in one place at a time and goes through its phases once: it is
journaled, then answered, copied to the disk and answered again. -/
namespace GDFileStore
open Sequences Program Prog

/-- How far a request has come inside and between its phases. -/
inductive Progress where
  | received | writing | written | answered | handedOn | closed
  deriving DecidableEq, Repr

/-- The replies owed to a request, in order. -/
def WOpeLog.owed (wopelog : WOpeLog) : List Reply :=
  [.repWrite wopelog .primaryJournalWrite,
    .repWrite { wopelog with wopeState := .onDisk } .primaryDiskWrite]

namespace Progress

/-- What has happened to an accepted request at each stage. -/
def events (wopelog : WOpeLog) : Progress → List Event
  | .received => []
  | .writing => [.doWOPEBegun]
  | .written => [.doWOPEBegun,.doWOPEFinished]
  | .answered | .handedOn =>
    [.doWOPEBegun,.doWOPEFinished,.sent (.repWrite wopelog .primaryJournalWrite)]
  | .closed =>
    [.doWOPEBegun,.doWOPEFinished,.sent (.repWrite wopelog .primaryJournalWrite),
      .sent (.repWrite { wopelog with wopeState := .onDisk } .primaryDiskWrite)]

def allowed (wopelog : WOpeLog) : Progress → Action → Prop
  | .received,.doWOPEBegins wo => wo = wopelog
  | .writing,.request _ => True
  | .writing,.doWOPEReturns wo => wo = wopelog
  | .written,.httpSend reply => reply = .repWrite wopelog .primaryJournalWrite
  | .answered,.request _ => True
  | .answered,.addWope wo =>
    wo = { wopelog with wopeState := .onJournal } ∨ wo = { wopelog with wopeState := .onDisk }
  | .answered,.httpSend reply =>
    reply = .repWrite { wopelog with wopeState := .onDisk } .primaryDiskWrite
  | _,_ => False

def next : Progress → (a : Action) → a.Resp → Progress
  | .received,.doWOPEBegins _,_ => .writing
  | .writing,.doWOPEReturns _,_ => .written
  | .written,.httpSend _,_ => .answered
  | .answered,.addWope _,_ => .handedOn
  | .answered,.httpSend _,_ => .closed
  | v,_,_ => v

/-- Where a phase begins. -/
def entry : WopeStateType → Option Progress
  | .init => some .received
  | .onJournal => some .answered
  | .onDisk => some .answered
  | .other => none

/-- `do_wope` ends by handing the log on or by closing it. -/
def Ended (_ : Unit) (v : Progress) : Prop := v = .handedOn ∨ v = .closed

end Progress

/-- The life of an accepted request as a protocol for the workers that serve it. -/
def lifeProtocol (wopelog : WOpeLog) : Protocol Action.Resp Progress :=
  ⟨Progress.allowed wopelog,Progress.next⟩

namespace Progress
variable {wopelog : WOpeLog} {v : Progress} {a : Action}

lemma not_handedOn_of_allowed (h : allowed wopelog v a) : v ≠ .handedOn := by
  rintro rfl
  cases a <;> exact h

lemma not_closed_of_allowed (h : allowed wopelog v a) : v ≠ .closed := by
  rintro rfl
  cases a <;> exact h

/-- An allowed action adds its own events to those of the stage. -/
lemma events_next (h : allowed wopelog v a) (answer : a.Resp) :
    (next v a answer).events wopelog = v.events wopelog ++ a.events := by
  cases v with
  | received =>
    cases a with
    | doWOPEBegins => rfl
    | _ => exact h.elim
  | writing =>
    cases a with
    | request => rfl
    | doWOPEReturns => rfl
    | _ => exact h.elim
  | written =>
    cases a with
    | httpSend reply =>
      cases h
      rfl
    | _ => exact h.elim
  | answered =>
    cases a with
    | request => rfl
    | addWope => rfl
    | httpSend reply =>
      cases h
      rfl
    | _ => exact h.elim
  | handedOn => exact absurd rfl (not_handedOn_of_allowed h)
  | closed => exact absurd rfl (not_closed_of_allowed h)

/-- A log is put back exactly by the action that hands it on. -/
lemma queued_of_next (h : allowed wopelog v a) (answer : a.Resp) :
    (next v a answer = .handedOn ∧ ∃ state, entry state = some .answered ∧
      a.queued = [{ wopelog with wopeState := state }]) ∨
    (next v a answer ≠ .handedOn ∧ a.queued = []) := by
  cases v with
  | received =>
    cases a with
    | doWOPEBegins => exact .inr ⟨nofun,rfl⟩
    | _ => exact h.elim
  | writing =>
    cases a with
    | request => exact .inr ⟨nofun,rfl⟩
    | doWOPEReturns => exact .inr ⟨nofun,rfl⟩
    | _ => exact h.elim
  | written =>
    cases a with
    | httpSend => exact .inr ⟨nofun,rfl⟩
    | _ => exact h.elim
  | answered =>
    cases a with
    | request => exact .inr ⟨nofun,rfl⟩
    | addWope wo =>
      rcases h with rfl | rfl
      · exact .inl ⟨rfl,.onJournal,rfl,rfl⟩
      · exact .inl ⟨rfl,.onDisk,rfl,rfl⟩
    | httpSend => exact .inr ⟨nofun,rfl⟩
    | _ => exact h.elim
  | handedOn => exact absurd rfl (not_handedOn_of_allowed h)
  | closed => exact absurd rfl (not_closed_of_allowed h)

end Progress

section Follow
variable {wopelog : WOpeLog} {α : Type}

/-- Requests alone leave the stage as it is. -/
lemma Task.actions_follows (p : Task α) {v : Progress}
    (hv : ∀ r : Request, Progress.allowed wopelog v (.request r))
    (hnext : ∀ (r : Request) (answer : r.Resp), Progress.next v (.request r) answer = v) :
    Follows (lifeProtocol wopelog) (Task.actions p) v (fun _ u => u = v) := by
  induction p with
  | done a => rfl
  | call r rest ih =>
    refine ⟨hv r,fun answer => ?_⟩
    have hsame : (lifeProtocol wopelog).next v (.request r) answer = v := hnext r answer
    rw [hsame]
    exact ih answer

namespace FileStore
variable (fs : FileStore)

lemma copyLoop_follows {l : List Int64} {last : Job Unit}
    (hlast : Follows (lifeProtocol wopelog) (fs.jobActions last) .answered Progress.Ended) :
    Follows (lifeProtocol wopelog) (fs.jobActions (fs.copyLoop l >>= fun _ => last)) .answered
      Progress.Ended := by
  induction l with
  | nil => exact hlast
  | cons s l ih =>
    simp only [copyLoop,ask_eq,call_bind,done_bind]
    refine ⟨trivial,fun attr => ?_⟩
    dsimp only
    split
    · exact ⟨trivial,fun _ => ih⟩
    · exact ih

/-- Every phase of an accepted request keeps to its life. -/
theorem doWope_follows {state : WopeStateType} {v : Progress} (hinit : wopelog.wopeState = .init)
    (hentry : Progress.entry state = some v) : Follows (lifeProtocol wopelog)
      (fs.jobActions (fs.doWope { wopelog with wopeState := state })) v Progress.Ended := by
  cases state with
  | other => cases hentry
  | init =>
    obtain rfl : .received = v := Option.some.inj hentry
    have hsame : { wopelog with wopeState := .init } = wopelog := by rw [← hinit]
    rw [hsame,doWope,hinit]
    refine ⟨rfl,fun _ => ?_⟩
    refine Follows.bind (Task.actions_follows _ (fun _ => trivial) (fun _ _ => rfl)) ?_
    rintro _ _ rfl
    exact ⟨rfl,fun _ => ⟨rfl,fun _ => ⟨.inl rfl,fun _ => .inl rfl⟩⟩⟩
  | onJournal =>
    obtain rfl : .answered = v := Option.some.inj hentry
    simp only [doWope,ask_eq,call_bind,done_bind]
    refine ⟨trivial,fun orb => ?_⟩
    exact fs.copyLoop_follows ⟨.inr rfl,fun _ => .inl rfl⟩
  | onDisk =>
    obtain rfl : .answered = v := Option.some.inj hentry
    exact ⟨rfl,fun _ => .inr rfl⟩

end FileStore
end Follow
end GDFileStore
