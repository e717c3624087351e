import GDFileStore.Queues.Refinement

/-! Reads that begin when a write has been answered: the version that they look up is one of the
table after that write was published, also where the server has crashed in between. -/
namespace GDFileStore
open Sequences Program Prog

namespace VersionStore
variable {v₀ : Versions} {trace : List StoreEvent} {store store' mid : VersionStore} {e : StoreEvent}
  {wopelog : WOpeLog} {old : ROpeLog → Prop}

/-- A state that the run has been in after a write was published. -/
def MomentAfter (v₀ : Versions) (wopelog : WOpeLog) (trace : List StoreEvent) (mid : VersionStore) :
    Prop :=
  ∃ before, before <+: trace ∧ Traced Step { table := v₀ } before mid ∧ .published wopelog ∈ before

lemma MomentAfter.append (h : MomentAfter v₀ wopelog trace mid) (later : List StoreEvent) :
    MomentAfter v₀ wopelog (trace ++ later) mid := by
  obtain ⟨before,hbefore,hrun,hpublished⟩ := h
  exact ⟨before,hbefore.trans (List.prefix_append _ _),hrun,hpublished⟩

/-- From then on the version is in the table. -/
lemma MomentAfter.isSome (h : MomentAfter v₀ wopelog trace mid) :
    (mid.table wopelog.newKey).isSome := by
  obtain ⟨before,-,hrun,hpublished⟩ := h
  obtain ⟨writer,_,-,-,-,hstored⟩ := (history hrun).stored wopelog hpublished
  rw [hstored]
  rfl

/-- What reads that are not old have looked up, and what they are answered, is of such a state. -/
structure Fresh (v₀ : Versions) (old : ROpeLog → Prop) (wopelog : WOpeLog) (trace : List StoreEvent)
    (store : VersionStore) : Prop where
  found : ∀ x ∈ store.found, ¬old x.1 → ∃ mid, MomentAfter v₀ wopelog trace mid ∧
    x.2 = mid.table.blocks x.1.rope.ghobj.key
  read : ∀ ropelog result, .sent (.repRead ropelog result) ∈ trace → ¬old ropelog →
    ∃ datas mid, result = ⟨ropelog.opeId,ropelog.rope.ghobj,ropelog.rope.blocks,datas⟩ ∧
      MomentAfter v₀ wopelog trace mid ∧
      RightOrEmpty (mid.table.blocks ropelog.rope.ghobj.key) ropelog.rope.blocks datas

lemma Fresh.start (v₀ : Versions) (old : ROpeLog → Prop) (wopelog : WOpeLog) :
    Fresh v₀ old wopelog [] { table := v₀ } := ⟨by simp,by simp⟩

/-- A write that has been answered was published before, and not by the last step. -/
lemma published_before (hrun : Traced Step { table := v₀ } trace store) (hstep : Step store e store')
    (hsent : .sent (.repWrite wopelog .primaryJournalWrite) ∈ trace ++ [e]) :
    .published wopelog ∈ trace := by
  rcases List.mem_append.1 hsent with hold | hnew
  · exact (history hrun).journalWrite wopelog hold
  · obtain rfl := List.mem_singleton.1 hnew
    exact (history hrun).published wopelog (hstep.justified.journalWrite wopelog rfl)

theorem Fresh.step (h : Fresh v₀ old wopelog trace store)
    (hrun : Traced Step { table := v₀ } trace store) (hstep : Step store e store')
    (hmark : ∀ x ∈ store'.found, ¬old x.1 →
      .sent (.repWrite wopelog .primaryJournalWrite) ∈ trace ++ [e]) :
    Fresh v₀ old wopelog (trace ++ [e]) store' := by
  have hjustified := hstep.justified
  constructor
  · intro x hx hnew
    rcases hjustified.found x hx with hold | hnow
    · obtain ⟨mid,hmid,heq⟩ := h.found x hold hnew
      exact ⟨mid,hmid.append _,heq⟩
    · have hpublished := published_before hrun hstep (hmark x hx hnew)
      exact ⟨store,⟨trace,List.prefix_append _ _,hrun,hpublished⟩,hnow⟩
  · intro ropelog result hm hnew
    rcases List.mem_append.1 hm with hold | hlast
    · obtain ⟨datas,mid,heq,hmid,hright⟩ := h.read ropelog result hold hnew
      exact ⟨datas,mid,heq,hmid.append _,hright⟩
    · obtain ⟨x,hx,rfl,datas,heq,hright⟩ :=
        hjustified.read ropelog result (List.mem_singleton.1 hlast).symm
      obtain ⟨mid,hmid,hblocks⟩ := h.found x hx hnew
      exact ⟨datas,mid,heq,hmid.append _,hblocks ▸ hright⟩

end VersionStore

namespace Work
variable {fs : FileStore} {w : World} {v : Work}

/-- The read that a worker is at. -/
def ropelog : Work → Option ROpeLog
  | .asked ropelog => some ropelog
  | .reading ropelog _ _ => some ropelog
  | _ => none

lemma ropelog_of_found {x : ROpeLog × List Bytes} (h : x ∈ v.found fs w) : v.ropelog = some x.1 := by
  cases v with
  | reading ropelog serials datas =>
    obtain rfl := List.mem_singleton.1 h
    rfl
  | _ => cases h

/-- A worker does not change from one read to another. -/
lemma ropelog_next {a : Action} {answer : a.Resp} {ropelog : ROpeLog}
    (h : (v.next a answer).ropelog = some ropelog) : v.ropelog = some ropelog := by
  cases v with
  | asked =>
    cases a with
    | request r => cases r <;> exact h
    | _ => exact h
  | reading =>
    cases a with
    | request r => cases r <;> exact h
    | httpSend => cases h
    | _ => exact h
  | editing wopelog edits l =>
    cases a with
    | request r => cases r <;> cases edits <;> cases h
    | _ => cases edits <;> cases h
  | written wopelog edits l serial =>
    cases a with
    | request r => cases r <;> cases edits <;> cases h
    | _ => cases edits <;> cases h
  | copying l serial =>
    cases a with
    | request r => cases r <;> cases serial <;> cases h
    | _ => cases serial <;> cases h
  | _ =>
    cases a with
    | request r => cases r <;> cases h
    | _ => cases h

end Work

/-- As in `serving`, but a read begins only if it is old or a reply has been sent. -/
def servingAfter (fs : FileStore) (old : ROpeLog → Prop) (reply : Reply) :
    Setting Action.Resp Unit (World × List Reply) where
  begins s p := (∃ wopelog, p = fs.jobActions (fs.doWope wopelog)) ∨
    ∃ ropelog, (old ropelog ∨ reply ∈ s.2) ∧ p = fs.jobActions (fs.doRope ropelog)
  outcome := (serving fs).outcome

section fresh
variable {fs : FileStore} {threads : ℕ} {v₀ : Versions} {old : ROpeLog → Prop} {wopelog : WOpeLog}

/-- As `Mirrored`, with a read at a worker only if it is old or the write has been answered. -/
def FreshlyMirrored (fs : FileStore) (v₀ : Versions) (old : ROpeLog → Prop) (wopelog : WOpeLog)
    (vs : List Work) (s : World × List Reply) : Prop :=
  (∃ trace store, Traced VersionStore.Step { table := v₀ } trace store ∧ Shown fs vs s.1 store ∧
    StoreEvent.replies trace = s.2 ∧ VersionStore.Fresh v₀ old wopelog trace store) ∧
  ∀ v ∈ vs, ∀ ropelog, v.ropelog = some ropelog →
    old ropelog ∨ .repWrite wopelog .primaryJournalWrite ∈ s.2

/-- What is looked up is looked up by a worker. -/
lemma Shown.ropelog_of_found {vs : List Work} {w : World} {store : VersionStore}
    (h : Shown fs vs w store) {x : ROpeLog × List Bytes} (hx : x ∈ store.found) :
    ∃ v ∈ vs, v.ropelog = some x.1 := by
  rw [h.found,Multiset.mem_coe,List.mem_flatMap] at hx
  obtain ⟨v,hv,hfound⟩ := hx
  exact ⟨v,hv,Work.ropelog_of_found hfound⟩

theorem servingAfter_kept (fs : FileStore) [fs.hash.Separates] (v₀ : Versions)
    (old : ROpeLog → Prop) (wopelog : WOpeLog) :
    Kept (servingAfter fs old (.repWrite wopelog .primaryJournalWrite)) (workProtocol fs)
      (fun _ v => v = .free) (FreshlyMirrored fs v₀ old wopelog) where
  perm := by
    rintro us vs s hp ⟨⟨trace,store,hrun,hshown,hsent,hfresh⟩,hreads⟩
    exact ⟨⟨trace,store,hrun,hshown.perm hp,hsent,hfresh⟩,fun v hv => hreads v (hp.mem_iff.2 hv)⟩
  enter := by
    rintro p vs s hbegins ⟨⟨trace,store,hrun,hshown,hsent,hfresh⟩,hreads⟩
    rcases hbegins with ⟨wo,rfl⟩ | ⟨ropelog,hropelog,rfl⟩
    · have hidle : wo.begins.Idle ∧ wo.begins.ropelog = none := by
        rw [WOpeLog.begins]
        cases wo.wopeState <;> exact ⟨trivial,rfl⟩
      refine ⟨wo.begins,fs.doWope_works wo,
        ⟨trace,store,hrun,(Shown.idle_iff hidle.1).2 hshown,hsent,hfresh⟩,?_⟩
      intro v hv ropelog hsome
      rcases List.mem_cons.1 hv with rfl | hv
      · exact absurd (hidle.2.symm.trans hsome) (Option.some_ne_none ropelog).symm
      · exact hreads v hv ropelog hsome
    · refine ⟨.asked ropelog,fs.doRope_works ropelog,
        ⟨trace,store,hrun,(Shown.idle_iff (by exact trivial)).2 hshown,hsent,hfresh⟩,?_⟩
      intro v hv other hsome
      rcases List.mem_cons.1 hv with rfl | hv
      · obtain rfl := Option.some.inj hsome
        exact hropelog
      · exact hreads v hv other hsome
  step := by
    rintro v vs a ⟨w,sent⟩ ⟨w',sent'⟩ answer hallowed ⟨hop,rfl⟩
      ⟨⟨trace,store,hrun,hshown,rfl,hfresh⟩,hreads⟩
    have hreads' : ∀ u ∈ v.next a answer::vs, ∀ ropelog, u.ropelog = some ropelog →
        old ropelog ∨ .repWrite wopelog .primaryJournalWrite ∈ StoreEvent.replies trace ++ a.sent := by
      intro u hu ropelog hsome
      refine Or.imp_right (List.mem_append_left _) ?_
      rcases List.mem_cons.1 hu with rfl | hu
      · exact hreads v List.mem_cons_self ropelog (Work.ropelog_next hsome)
      · exact hreads u (List.mem_cons_of_mem _ hu) ropelog hsome
    refine ⟨?_,hreads'⟩
    rcases hshown.step hallowed hop with ⟨hnone,hnext⟩ | ⟨e,store',hstep,hreply,hnext⟩
    · exact ⟨trace,store,hrun,hnext,by rw [hnone,List.append_nil],hfresh⟩
    · refine ⟨_,store',hrun.step hstep,hnext,by rw [StoreEvent.replies_append,hreply],
        hfresh.step hrun hstep ?_⟩
      intro x hx hnew
      obtain ⟨u,hu,hsome⟩ := hnext.ropelog_of_found hx
      have hsent := (hreads' u hu x.1 hsome).resolve_left hnew
      rwa [← hreply,← StoreEvent.replies_append,StoreEvent.mem_replies] at hsent
  leave := by
    rintro _ vs _ s rfl ⟨⟨trace,store,hrun,hshown,hsent,hfresh⟩,hreads⟩
    exact ⟨⟨trace,store,hrun,(Shown.idle_iff (by exact trivial)).1 hshown,hsent,hfresh⟩,
      fun v hv => hreads v (List.mem_cons_of_mem _ hv)⟩

/-- The lives of a server in which a read begins only if it is old or a reply has been sent. -/
inductive LivesAfter (fs : FileStore) (old : ROpeLog → Prop) (reply : Reply) (w₀ : World) :
    List Reply → World → Prop
  | start : LivesAfter fs old reply w₀ [] w₀
  | life {sent sent' : List Reply} {w w' : World} {ps : List (Activity Unit)} :
      LivesAfter fs old reply w₀ sent w →
      Crowd (servingAfter fs old reply) (w,sent) ps (w',sent') → LivesAfter fs old reply w₀ sent' w'

/-- In these lives every read that is not old is answered as the table was after the write. -/
theorem LivesAfter.fresh [fs.hash.Separates] {w₀ w : World} {sent : List Reply}
    (hstart : Journaled fs w₀ v₀)
    (h : LivesAfter fs old (.repWrite wopelog .primaryJournalWrite) w₀ sent w) :
    ∃ trace store, Traced VersionStore.Step { table := v₀ } trace store ∧
      StoreEvent.replies trace = sent ∧ Journaled fs w store.table ∧
      VersionStore.Fresh v₀ old wopelog trace store := by
  induction h with
  | start => exact ⟨[],{ table := v₀ },.start,rfl,hstart,.start v₀ old wopelog⟩
  | @life sent sent' w w' ps _ hcrowd ih =>
    obtain ⟨trace,store,hrun,hsent,hjournaled,hfresh⟩ := ih
    -- The crash takes everything but the table.
    have hcrashed : FreshlyMirrored fs v₀ old wopelog [] (w,sent) := by
      refine ⟨⟨_,_,hrun.step (.crashed store),⟨.of_journaled hjournaled,rfl,rfl,rfl⟩,?_,
        hfresh.step hrun (.crashed store) (by simp)⟩,by simp⟩
      rw [StoreEvent.replies_append,hsent]
      exact List.append_nil _
    obtain ⟨ts,_,_,⟨trace',store',hrun',hshown,hsent',hfresh'⟩,_⟩ :=
      hcrowd.invariant (servingAfter_kept fs v₀ old wopelog) hcrashed
    exact ⟨trace',store',hrun',hsent',hshown.consistent.journaled,hfresh'⟩

end fresh
end GDFileStore
