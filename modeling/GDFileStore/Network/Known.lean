import GDFileStore.Attributes.Key
import GDFileStore.Network.Cluster

/-! What a client's tables say of its requests has happened: a state is recorded only after the
reply that tells it, and a reply is sent only for a request that the client has posted. -/
namespace GDFileStore
open Sequences Program Serializable

section members

lemma ROPE.of_es {a b : ROPE} (h : es a = es b) :
    a.ghobj.key = b.ghobj.key ∧ a.blocks = b.blocks := by
  obtain ⟨hghobj,h⟩ := Prod.mk.inj h
  exact ⟨GHObject.es_eq_iff.1 hghobj,Complete.es_injective (Prod.mk.inj h).1⟩

lemma ROPEResult.of_es {a b : ROPEResult} (h : es a = es b) : a.opeId = b.opeId ∧
    a.ghobj.key = b.ghobj.key ∧ a.blocks = b.blocks ∧ a.datas = b.datas := by
  obtain ⟨hopeId,h⟩ := Prod.mk.inj h
  obtain ⟨hghobj,h⟩ := Prod.mk.inj h
  obtain ⟨hblocks,h⟩ := Prod.mk.inj h
  exact ⟨hopeId,GHObject.es_eq_iff.1 hghobj,Complete.es_injective hblocks,
    Complete.es_injective (Prod.mk.inj h).1⟩

end members

/-- What a job tells the client is what the reply says. -/
def Reply.Tells : Reply → ClientJob → Prop
  | .repWrite wopelog rt,job => job = .repWrite rt wopelog.opeId
  | .repRead _ result,job => ∃ r, job = .repRead r ∧ es r = es result

lemma Reply.Arrives.tells {info : InfoForNetNode} {reply : Reply} {job : ClientJob}
    (h : reply.Arrives info job) : reply.Tells job := by
  cases h with
  | repWrite hsize hbody hread =>
    obtain ⟨_,hbody',m,hread',-,-,-,rfl,hopeId,-⟩ := writeReplyDelivered hsize
    obtain rfl := Option.some.inj (hbody.symm.trans hbody')
    obtain rfl := Option.some.inj (hread.symm.trans hread')
    rw [hopeId]
    rfl
  | @repRead _ _ memory _ _ hsize hbody hread =>
    obtain ⟨_,hbody',hreads⟩ := readReplyDelivered hsize
    obtain rfl := Option.some.inj (hbody.symm.trans hbody')
    obtain ⟨m,hread',-,-,hes,-⟩ := hreads memory
    obtain rfl := Option.some.inj (hread.symm.trans hread')
    exact ⟨_,rfl,hes⟩

namespace AsynClient
variable (c : AsynClient) {opeId opeId' : Bytes}

lemma handleRepRead_self (opeId : Bytes) (result : ROPEResult) :
    (c.handleRepRead .primaryRead opeId result).ropeStates opeId =
      (c.ropeStates opeId).set (.success,result) := Function.update_self ..

lemma handleRepRead_ne (result : ROPEResult) (h : opeId' ≠ opeId) :
    (c.handleRepRead .primaryRead opeId result).ropeStates opeId' = c.ropeStates opeId' :=
  Function.update_of_ne h _ _

end AsynClient

/-- Nothing is recorded that has not been told. -/
structure AsynClient.Knows (told : ClientJob → Prop) (c : AsynClient) : Prop where
  onJournal : ∀ opeId, c.getWopeState opeId = .onJournal → told (.repWrite .primaryJournalWrite opeId)
  onDisk : ∀ opeId, c.getWopeState opeId = .onDisk → told (.repWrite .primaryDiskWrite opeId)
  success : ∀ opeId, (c.getRopeState opeId).1 = .success →
    (c.getRopeState opeId).2.opeId = opeId ∧ told (.repRead (c.getRopeState opeId).2)

namespace AsynClient.Knows
variable {told told' : ClientJob → Prop} {c : AsynClient}

lemma start (told : ClientJob → Prop) : Knows told {} :=
  ⟨fun _ h => WOpeState.noConfusion h,fun _ h => WOpeState.noConfusion h,
    fun _ h => ROpeState.noConfusion h⟩

lemma mono (h : c.Knows told) (htold : ∀ job, told job → told' job) : c.Knows told' :=
  ⟨fun opeId hs => htold _ (h.onJournal opeId hs),fun opeId hs => htold _ (h.onDisk opeId hs),
    fun opeId hs => ⟨(h.success opeId hs).1,htold _ (h.success opeId hs).2⟩⟩

lemma repWrite (h : c.Knows told) {rt : RepType} {opeId : Bytes}
    (hjob : told (.repWrite rt opeId)) : (c.handleRepWrite rt opeId).Knows told := by
  have hother : ∀ opeId', opeId' ≠ opeId →
      (c.handleRepWrite rt opeId).getWopeState opeId' = c.getWopeState opeId' :=
    fun _ hne => congrArg Guarded.value (c.handleRepWrite_ne rt hne)
  have hropes : (c.handleRepWrite rt opeId).ropeStates = c.ropeStates := by cases rt <;> rfl
  have hself : (c.handleRepWrite rt opeId).getWopeState opeId = .onJournal ∧
        rt = .primaryJournalWrite ∨
      (c.handleRepWrite rt opeId).getWopeState opeId = .onDisk ∧ rt = .primaryDiskWrite ∨
      (c.handleRepWrite rt opeId).getWopeState opeId = c.getWopeState opeId := by
    cases rt with
    | primaryJournalWrite => exact .inl ⟨congrArg Guarded.value (c.handleRepWrite_journal opeId),rfl⟩
    | primaryDiskWrite => exact .inr (.inl ⟨congrArg Guarded.value (c.handleRepWrite_disk opeId),rfl⟩)
    | _ => exact .inr (.inr rfl)
  refine ⟨?_,?_,?_⟩
  · intro opeId' hs
    by_cases hid : opeId' = opeId
    · subst hid
      rcases hself with ⟨-,rfl⟩ | ⟨hdisk,-⟩ | hold
      · exact hjob
      · exact absurd (hdisk.symm.trans hs) WOpeState.noConfusion
      · exact h.onJournal _ (hold ▸ hs)
    · exact h.onJournal _ (hother _ hid ▸ hs)
  · intro opeId' hs
    by_cases hid : opeId' = opeId
    · subst hid
      rcases hself with ⟨hjournal,-⟩ | ⟨-,rfl⟩ | hold
      · exact absurd (hjournal.symm.trans hs) WOpeState.noConfusion
      · exact hjob
      · exact h.onDisk _ (hold ▸ hs)
    · exact h.onDisk _ (hother _ hid ▸ hs)
  · intro opeId' hs
    rw [getRopeState,hropes] at hs ⊢
    exact h.success opeId' hs

lemma repRead (h : c.Knows told) {result : ROPEResult} (hjob : told (.repRead result)) :
    (c.handleRepRead .primaryRead result.opeId result).Knows told := by
  refine ⟨h.onJournal,h.onDisk,?_⟩
  intro opeId hs
  by_cases hid : opeId = result.opeId
  · subst hid
    have hself : (c.handleRepRead .primaryRead result.opeId result).getRopeState result.opeId =
        (.success,result) := congrArg Guarded.value (c.handleRepRead_self _ result)
    rw [hself]
    exact ⟨rfl,hjob⟩
  · have hother : (c.handleRepRead .primaryRead result.opeId result).getRopeState opeId =
        c.getRopeState opeId := congrArg Guarded.value (c.handleRepRead_ne result hid)
    rw [hother] at hs ⊢
    exact h.success opeId hs

theorem handle (h : c.Knows told) {job : ClientJob} (hjob : told job) : (c.handle job).Knows told := by
  cases job with
  | repWrite rt opeId => exact h.repWrite hjob
  | repRead result => exact h.repRead hjob

end AsynClient.Knows

/-- Nothing is on its way to a client, or recorded, that has not been told. -/
structure ReplyPool.Knows (told : ClientJob → Prop) (s : ReplyPool) : Prop where
  jobs : ∀ job ∈ s.arriving ++ s.jobs ++ s.taken, told job
  client : s.client.Knows told

namespace ReplyPool.Knows
variable {told told' : ClientJob → Prop} {s s' : ReplyPool}

lemma mono (h : s.Knows told) (htold : ∀ job, told job → told' job) : s.Knows told' :=
  ⟨fun job hm => htold job (h.jobs job hm),h.client.mono htold⟩

lemma deliver (h : s.Knows told) {job : ClientJob} (hjob : told job) :
    Knows told { s with jobs := s.jobs ++ [job] } := by
  refine ⟨?_,h.client⟩
  intro other hm
  by_cases hother : other = job
  · exact hother ▸ hjob
  · apply h.jobs
    simpa [hother] using hm

theorem step (h : s.Knows told) {workers : ℕ} {m : Move} (hstep : s.step workers m = some s') :
    s'.Knows told := by
  cases m with
  | arrive =>
    cases harriving : s.arriving with
    | nil => simp [ReplyPool.step,harriving] at hstep
    | cons job arriving =>
      simp only [ReplyPool.step,harriving,Option.some.injEq] at hstep
      subst hstep
      refine ⟨?_,h.client⟩
      intro other hm
      apply h.jobs
      rw [harriving]
      simp only [List.mem_append,List.mem_cons] at hm ⊢
      tauto
  | take =>
    cases hjobs : s.jobs with
    | nil => simp [ReplyPool.step,hjobs] at hstep
    | cons job jobs =>
      simp only [ReplyPool.step,hjobs] at hstep
      split at hstep
      · cases hstep
        refine ⟨?_,h.client⟩
        intro other hm
        apply h.jobs
        rw [hjobs]
        simp only [List.mem_append,List.mem_cons] at hm ⊢
        tauto
      · cases hstep
  | handle i =>
    cases hdrop : s.taken.drop i with
    | nil => simp [ReplyPool.step,hdrop] at hstep
    | cons job after =>
      simp only [ReplyPool.step,hdrop,Option.some.injEq] at hstep
      subst hstep
      have htaken : s.taken = s.taken.take i ++ job::after := by
        rw [← hdrop,List.take_append_drop]
      have hmem : ∀ other, other ∈ s.taken.take i ∨ other = job ∨ other ∈ after →
          other ∈ s.taken := by
        intro other hother
        rw [htaken]
        simpa using hother
      refine ⟨?_,h.client.handle (h.jobs job ?_)⟩
      · intro other hm
        apply h.jobs
        simp only [List.mem_append] at hm ⊢
        rcases hm with hm | hm | hm
        · exact .inl hm
        · exact .inr (hmem other (.inl hm))
        · exact .inr (hmem other (.inr (.inr hm)))
      · exact List.mem_append_right _ (hmem job (.inr (.inl rfl)))

end ReplyPool.Knows
end GDFileStore
