import GDFileStore.Blocks.Recorded
import GDFileStore.Queues.Refinement

/-! A server on the records of a `RocksKV`, byte strings under byte strings: its runs are those of
a server on attributes under key members, as long as an `int` can index what is stored. -/
namespace GDFileStore
open Sequences Program Prog
variable {σ τ : Type}

namespace DataServer

/-- The same server on another database and other files. -/
def on (d : DataServer σ) (world : τ) : DataServer τ where
  writes :=
    { world := world
      wopeLogs := d.writes.wopeLogs
      wtmp := d.writes.wtmp
      jobs := d.writes.jobs
      running := d.writes.running
      finished := d.writes.finished
      accepted := d.writes.accepted
      trace := d.writes.trace }
  half := d.half
  ropeLogs := d.ropeLogs
  rtmp := d.rtmp
  jobs := d.jobs
  reading := d.reading
  finished := d.finished
  asked := d.asked
  answers := d.answers
  sent := d.sent

section embed
variable {fs : FileStore} {threads : ℕ} {outcome : (r : Request) → σ → r.Resp → σ → Prop}
  {outcome' : (r : Request) → τ → r.Resp → τ → Prop} {d d' : DataServer σ} {t : τ}

lemma changes_embed {R : σ → τ → Prop} (hembeds : Embeds outcome outcome' R) {a : Action} {s s' : σ}
    {answer : a.Resp} (hR : R s t) (hchanges : a.changes outcome s answer s') :
    ∃ t', a.changes outcome' t answer t' ∧ R s' t' := by
  cases a with
  | request r => exact hembeds hR hchanges
  | _ =>
    obtain rfl : s' = s := hchanges
    exact ⟨t,rfl,hR⟩

theorem step_embed {R : σ → τ → Prop} (hembeds : Embeds outcome outcome' R)
    (hR : R d.writes.world t) (hstep : Step fs threads outcome d d') :
    ∃ t', Step fs threads outcome' (d.on t) (d'.on t') ∧ R d'.writes.world t' := by
  cases hstep with
  | reqWrite opeId wope fromNode => exact ⟨t,.reqWrite _ opeId wope fromNode,hR⟩
  | reqRead ropelog => exact ⟨t,.reqRead _ ropelog,hR⟩
  | swapWopes hhalf hround hreads => exact ⟨t,.swapWopes hhalf hround hreads,hR⟩
  | swapRopes hhalf hround => exact ⟨t,.swapRopes hhalf hround,hR⟩
  | enqueueWope hbatch => exact ⟨t,.enqueueWope hbatch,hR⟩
  | enqueueRope hbatch => exact ⟨t,.enqueueRope hbatch,hR⟩
  | takeWope hjobs hidle => exact ⟨t,.takeWope hjobs hidle,hR⟩
  | takeRope hjobs hidle => exact ⟨t,.takeRope hjobs hidle,hR⟩
  | actWope before after answer hrunning hchanges =>
    obtain ⟨t',hchanges',hR'⟩ := changes_embed hembeds hR hchanges
    exact ⟨t',.actWope before after answer hrunning hchanges',hR'⟩
  | actRope before after answer hreading hchanges =>
    obtain ⟨t',hchanges',hR'⟩ := changes_embed hembeds hR hchanges
    exact ⟨t',.actRope before after answer hreading hchanges',hR'⟩

theorem reachable_embed {R : σ → τ → Prop} (hembeds : Embeds outcome outcome' R) {s₀ : σ} {t₀ : τ}
    (h₀ : R s₀ t₀) (h : Reachable fs threads outcome s₀ d) :
    ∃ t, Reachable fs threads outcome' t₀ (d.on t) ∧ R d.writes.world t := by
  induction h with
  | start => exact ⟨t₀,.start,h₀⟩
  | step _ hstep ih =>
    obtain ⟨t,ht,hR⟩ := ih
    obtain ⟨t',hstep',hR'⟩ := step_embed hembeds hR hstep
    exact ⟨t',ht.step hstep',hR'⟩

end embed
end DataServer

/-- On a `RocksKV` a server has exactly the runs that it has on typed attributes under key members,
as long as the strings of the keys and the lists that are stored are within the sizes of an `int`:
the same places and replies throughout, and records that hold the attributes. -/
theorem server_on_records (headers : TypeHeaders) {fs : FileStore} {threads : ℕ} {w₀ : World}
    {raw₀ : RecordWorld} (hstart : Recorded headers w₀ raw₀) :
    (∀ d, DataServer.Reachable fs threads (Request.Stores headers) raw₀ d → ∃ w,
      DataServer.Reachable fs threads Request.Gives w₀ (d.on w) ∧
        Recorded headers w d.writes.world) ∧
    ∀ d, DataServer.Reachable fs threads (fun r w answer w' => r.Sized ∧ r.Gives w answer w') w₀ d →
      ∃ raw, DataServer.Reachable fs threads (Request.Stores headers) raw₀ (d.on raw) ∧
        Recorded headers d.writes.world raw := by
  constructor
  · intro d hreach
    exact DataServer.reachable_embed stores_embeds hstart hreach
  · intro d hreach
    exact DataServer.reachable_embed gives_embeds hstart hreach

/-- The first write of an object on a database with no records, and a read of its block. -/
theorem server_on_records_block : ∃ (d : DataServer World) (raw : RecordWorld),
    DataServer.Reachable sampleStore 1 (Request.Stores ⟨lit "G",lit "R",by decide⟩)
      { clock := [7] } (d.on raw) ∧
    d.sent = [.repWrite firstWrite .primaryJournalWrite,
      .repRead readFirst ⟨lit "2",generation 0,[0],[lit "x"]⟩] ∧
    Recorded ⟨lit "G",lit "R",by decide⟩ d.writes.world raw := by
  have r0 : DataServer.Reachable sampleStore 1
      (fun r w answer w' => r.Sized ∧ r.Gives w answer w') (World.fresh [7])
      { writes := { world := World.fresh [7] } } := .start
  have r1 := (r0.step (.reqWrite _ [] firstWrite.wope {})).step (.swapWopes rfl rfl rfl)
  have r2 := (r1.step (.enqueueWope rfl)).step (.takeWope rfl (by decide))
  have r3 := r2.step (.actWope [] [] () rfl rfl)
  have r4 := r3.step (.actWope [] [] _ rfl ⟨⟨by decide,by decide⟩,rfl⟩)
  have r5 := r4.step (.actWope [] [] _ rfl ⟨trivial,rfl⟩)
  have r6 := r5.step (.actWope [] [] _ rfl ⟨trivial,rfl⟩)
  have r7 := r6.step (.actWope [] [] _ rfl ⟨trivial,rfl⟩)
  have r8 := r7.step (.actWope [] [] _ rfl ⟨trivial,rfl⟩)
  have r9 := r8.step (.actWope [] [] _ rfl ⟨trivial,rfl⟩)
  have r10 := r9.step (.actWope [] [] _ rfl ⟨⟨⟨by decide,by decide⟩,by decide⟩,rfl⟩)
  have r11 := (r10.step (.actWope [] [] () rfl rfl)).step (.actWope [] [] true rfl rfl)
  -- The block is copied to the disk, and read there.
  have r12 := (r11.step (.actWope [] [] () rfl rfl)).step (.reqRead _ readFirst)
  have r13 := ((r12.step (.swapRopes rfl rfl)).step (.enqueueRope rfl)).step (.swapWopes rfl rfl rfl)
  have r14 := (r13.step (.enqueueWope rfl)).step (.takeWope rfl (by decide))
  have r15 := r14.step (.actWope [] [] _ rfl ⟨⟨by decide,by decide⟩,rfl⟩)
  have r16 := r15.step (.actWope [] [] _ rfl ⟨trivial,rfl⟩)
  have r17 := r16.step (.actWope [] [] _ rfl ⟨trivial,rfl⟩)
  have r18 := r17.step (.takeRope rfl (by decide))
  have r19 := r18.step (.actRope [] [] _ rfl ⟨⟨by decide,by decide⟩,rfl⟩)
  have r20 := (r19.step (.actRope [] [] _ rfl ⟨trivial,rfl⟩)).step (.actRope [] [] true rfl rfl)
  obtain ⟨raw,hreach,hrecorded⟩ :=
    (server_on_records ⟨lit "G",lit "R",by decide⟩ (Recorded.start _ [7])).2 _ r20
  exact ⟨_,raw,hreach,rfl,hrecorded⟩

end GDFileStore
