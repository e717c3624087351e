import GDFileStore.Network.EndToEnd
import GDFileStore.Queues.Fresh

/-! What a client reads after another, or itself, has been told of a write: whatever is lost and
wherever the server crashes, the answer is of the table as it was after the write. -/
namespace GDFileStore
open Sequences Program Serializable

/-- A job of the read pool has been asked. -/
lemma DataServer.Inv.asked_of_job {σ : Type} {d : DataServer σ} (h : d.Inv) {ro : ℕ × ROpeLog}
    (hm : ro ∈ d.jobs) : ro.2 ∈ d.asked := by
  have hentry : (ro.1,ReadPresence.queued ro.2) ∈ d.entries := by
    simp only [entries]
    exact List.mem_append_left _ (List.mem_append_left _ (List.mem_append_right _
      (List.mem_map.2 ⟨ro,hm,rfl⟩)))
  obtain ⟨ropelog,hasked,heq,-⟩ := h.register.good _ hentry
  exact List.mem_of_getElem? (hasked.trans (congrArg some heq.symm))

namespace Network
variable {fs : FileStore} {threads workers : ℕ} {info : InfoForNetNode} {w₀ : World}
  {n n' : Network} {v₀ : Versions} {old : ROpeLog → Prop} {reply : Reply}

lemma Step.grows (h : Step fs threads workers info n n') : Grows n n' := by
  cases h with
  | asynWrite => exact ⟨List.subset_append_left _ _,fun _ hm => hm,fun _ hm => hm⟩
  | asynRead => exact ⟨fun _ hm => hm,List.subset_append_left _ _,fun _ hm => hm⟩
  | serve hstep =>
    exact ⟨fun _ hm => hm,fun _ hm => hm,fun _ hm => (List.mem_append.1 hm).elim
      (List.mem_append_left _) (fun hnow => List.mem_append_right _ (hstep.sent_subset hnow))⟩
  | httpSend hstep =>
    exact ⟨fun _ hm => hm,fun _ hm => hm,fun _ hm => (List.mem_append.1 hm).elim
      (List.mem_append_left _) (fun hnow => List.mem_append_right _ (hstep.sent_subset hnow))⟩
  | client => exact ⟨fun _ hm => hm,fun _ hm => hm,fun _ hm => hm⟩
  | crash => exact ⟨fun _ hm => hm,fun _ hm => hm,List.subset_append_left _ _⟩

/-- The server of a network has begun no reads but old ones before it sent a reply. -/
def ReadsAfter (fs : FileStore) (old : ROpeLog → Prop) (reply : Reply) (w₀ : World) (n : Network) :
    Prop :=
  ∃ w, LivesAfter fs old reply w₀ n.past w ∧
    Crowd (servingAfter fs old reply) (w,n.past) n.server.workers (n.server.writes.world,n.sent)

namespace ReadsAfter

lemma serve (h : n.ReadsAfter fs old reply w₀) {d : DataServer World}
    (hstep : DataServer.Step fs threads Request.Gives n.server d)
    (hjobs : ∀ ro ∈ n.server.jobs, old ro.2 ∨ reply ∈ n.sent) :
    ReadsAfter fs old reply w₀ { n with server := d } := by
  obtain ⟨w,hlives,hcrowd⟩ := h
  exact ⟨w,hlives,DataServer.crowd_step rfl (fun wopelog => .inl ⟨wopelog,rfl⟩)
    (fun ro hro => .inr ⟨ro.2,hjobs ro hro,rfl⟩) hcrowd hstep⟩

theorem step (h : n.ReadsAfter fs old reply w₀) (hstep : Step fs threads workers info n n')
    (hjobs : ∀ ro ∈ n.server.jobs, old ro.2 ∨ reply ∈ n.sent) : n'.ReadsAfter fs old reply w₀ := by
  cases hstep with
  | @asynWrite _ _ _ _ _ _ _ m =>
    have hreqWrite : DataServer.Step fs threads Request.Gives n.server _ :=
      .reqWrite _ m.opeId m.wope m.fromNode
    exact h.serve hreqWrite hjobs
  | @asynRead _ _ _ _ _ _ _ m =>
    have hreqRead : DataServer.Step fs threads Request.Gives n.server _ := .reqRead _ m.ropelog
    exact h.serve hreqRead hjobs
  | serve hstep => exact h.serve hstep hjobs
  | httpSend hstep => exact h.serve hstep hjobs
  | client => exact h
  | crash =>
    obtain ⟨w,hlives,hcrowd⟩ := h
    refine ⟨_,hlives.life hcrowd,?_⟩
    change Crowd _ (_,n.sent) [] (_,n.sent ++ [])
    rw [List.append_nil]
    exact .start

/-- Up to a state of the network, all reads are those that have been posted by then. -/
lemma before (h : Reachable fs threads workers info w₀ n) (hasked : n.asked ⊆ n'.asked)
    (reply : Reply) : n.ReadsAfter fs n'.Asked reply w₀ := by
  induction h with
  | start => exact ⟨w₀,.start,.start⟩
  | @step m m' hreach hstep ih =>
    have hgrows := hstep.grows
    refine (ih (fun _ hm => hasked (hgrows.asked hm))).step hstep ?_
    intro ro hro
    obtain ⟨_,_,hserver⟩ := hreach.inv.lives
    obtain ⟨rope,hposted,hes⟩ := hreach.inv.asked ro.2 (hserver.inv.asked_of_job hro)
    exact .inl ⟨rope,hasked (hgrows.asked hposted),hes⟩

/-- After it, the reply has been sent. -/
theorem later (h : Reachable fs threads workers info w₀ n) (hsent : reply ∈ n.sent)
    (hlater : Relation.ReflTransGen (Step fs threads workers info) n n') :
    reply ∈ n'.sent ∧ n'.ReadsAfter fs n.Asked reply w₀ := by
  induction hlater with
  | refl => exact ⟨hsent,before h (fun _ hm => hm) reply⟩
  | tail _ hstep ih => exact ⟨hstep.grows.sent ih.1,ih.2.step hstep (fun _ _ => .inr ih.1)⟩

end ReadsAfter

end Network
end GDFileStore
