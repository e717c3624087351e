import GDFileStore.Blocks.DiskWrite
import GDFileStore.Blocks.ReadBack
import GDFileStore.Program.Trace
import Mathlib.Algebra.Order.Sub.Unbundled.Basic
import Mathlib.Data.Multiset.AddSub

/-! What a server is for, with its lists, files and threads left out: a table of versions. A write
looks up its base version once and puts its new version into the table once; a read looks up one
version once, and each block of its answer is the one of that version or is empty. -/
namespace GDFileStore
open Sequences Program

/-- The table, and what the requests under way have taken from it: the version that each write has
made and not yet published, the writes that are published and not yet answered, and the version
that each read has looked up. -/
structure VersionStore where
  table : Versions
  drafts : Multiset (WOpeLog × List Bytes) := 0
  published : Multiset WOpeLog := 0
  found : Multiset (ROpeLog × List Bytes) := 0

inductive StoreEvent where
  | drafted (wopelog : WOpeLog)
  | published (wopelog : WOpeLog)
  | found (ropelog : ROpeLog)
  | sent (reply : Reply)
  | crashed

/-- Datum by datum, the block of the version or nothing. -/
def RightOrEmpty (contents : List Bytes) (blocks : List Int32) (datas : List Bytes) : Prop :=
  List.Forall₂ (fun block data => data = contents.getD block.toInt.toNat [] ∨ data = []) blocks datas

/-- The version that a write makes. -/
def Versions.draft (v : Versions) (wope : WOPE) : List Bytes :=
  applyEdits wope.edits (v.blocks wope.ghobj.key)

namespace VersionStore

/-- The answers that tell of the disk say nothing about the table. After a crash the requests that
were under way are gone. -/
inductive Step : VersionStore → StoreEvent → VersionStore → Prop
  | drafted (s : VersionStore) (wopelog : WOpeLog) : Step s (.drafted wopelog)
      { s with drafts := (wopelog,s.table.draft wopelog.wope) ::ₘ s.drafts }
  | published {s : VersionStore} {wopelog : WOpeLog} {contents : List Bytes}
      {drafts : Multiset (WOpeLog × List Bytes)} (hdraft : s.drafts = (wopelog,contents) ::ₘ drafts) :
      Step s (.published wopelog) { s with
        table := Function.update s.table wopelog.newKey (some contents)
        drafts := drafts
        published := wopelog ::ₘ s.published }
  | journalWrite {s : VersionStore} {wopelog : WOpeLog} {published : Multiset WOpeLog}
      (hpublished : s.published = wopelog ::ₘ published) :
      Step s (.sent (.repWrite wopelog .primaryJournalWrite)) { s with published := published }
  | diskWrite (s : VersionStore) (wopelog : WOpeLog) :
      Step s (.sent (.repWrite wopelog .primaryDiskWrite)) s
  | found (s : VersionStore) (ropelog : ROpeLog) : Step s (.found ropelog)
      { s with found := (ropelog,s.table.blocks ropelog.rope.ghobj.key) ::ₘ s.found }
  | read {s : VersionStore} {ropelog : ROpeLog} {contents datas : List Bytes}
      {found : Multiset (ROpeLog × List Bytes)} (hfound : s.found = (ropelog,contents) ::ₘ found)
      (hdatas : RightOrEmpty contents ropelog.rope.blocks datas) :
      Step s (.sent (.repRead ropelog
        ⟨ropelog.opeId,ropelog.rope.ghobj,ropelog.rope.blocks,datas⟩)) { s with found := found }
  | crashed (s : VersionStore) : Step s .crashed { table := s.table }

end VersionStore

/-- The replies of a run, in order. -/
def StoreEvent.replies (trace : List StoreEvent) : List Reply :=
  trace.filterMap fun
    | .sent reply => some reply
    | _ => none

lemma StoreEvent.mem_replies {trace : List StoreEvent} {reply : Reply} :
    reply ∈ replies trace ↔ .sent reply ∈ trace := by
  rw [replies,List.mem_filterMap]
  constructor
  · rintro ⟨e,he,hreply⟩
    cases e with
    | sent other =>
      cases hreply
      exact he
    | _ => cases hreply
  · exact fun he => ⟨_,he,rfl⟩

lemma StoreEvent.replies_append (trace later : List StoreEvent) :
    replies (trace ++ later) = replies trace ++ replies later := List.filterMap_append

namespace VersionStore

/-- What a step adds comes from the table as it was, and what it sends from what it takes away. -/
structure Justified (s : VersionStore) (e : StoreEvent) (s' : VersionStore) : Prop where
  drafts : ∀ x ∈ s'.drafts, x ∈ s.drafts ∨ x.2 = s.table.draft x.1.wope
  published : ∀ wopelog ∈ s'.published, wopelog ∈ s.published ∨ e = .published wopelog
  found : ∀ x ∈ s'.found, x ∈ s.found ∨ x.2 = s.table.blocks x.1.rope.ghobj.key
  table : s'.table = s.table ∧ (∀ wopelog, e ≠ .published wopelog) ∨ ∃ x ∈ s.drafts,
    e = .published x.1 ∧ s'.table = Function.update s.table x.1.newKey (some x.2)
  journalWrite : ∀ wopelog, e = .sent (.repWrite wopelog .primaryJournalWrite) →
    wopelog ∈ s.published
  read : ∀ ropelog result, e = .sent (.repRead ropelog result) → ∃ x ∈ s.found, x.1 = ropelog ∧
    ∃ datas, result = ⟨ropelog.opeId,ropelog.rope.ghobj,ropelog.rope.blocks,datas⟩ ∧
      RightOrEmpty x.2 ropelog.rope.blocks datas

lemma Step.justified {s s' : VersionStore} {e : StoreEvent} (h : Step s e s') :
    Justified s e s' := by
  cases h with
  | drafted wopelog =>
    refine ⟨?_,fun _ hm => .inl hm,fun _ hm => .inl hm,.inl ⟨rfl,by simp⟩,by simp,by simp⟩
    intro x hx
    rcases Multiset.mem_cons.1 hx with rfl | hm
    · exact .inr rfl
    · exact .inl hm
  | @published wopelog contents drafts hdraft =>
    have hmem : ∀ x, x = (wopelog,contents) ∨ x ∈ drafts → x ∈ s.drafts := by
      intro x hx
      rw [hdraft]
      exact Multiset.mem_cons.2 hx
    refine ⟨fun x hm => .inl (hmem x (.inr hm)),?_,fun _ hm => .inl hm,
      .inr ⟨_,hmem _ (.inl rfl),rfl,rfl⟩,by simp,by simp⟩
    intro wo hwo
    rcases Multiset.mem_cons.1 hwo with rfl | hm
    · exact .inr rfl
    · exact .inl hm
  | @journalWrite wopelog published hpublished =>
    refine ⟨fun _ hm => .inl hm,?_,fun _ hm => .inl hm,.inl ⟨rfl,by simp⟩,?_,by simp⟩
    · intro wo hwo
      rw [hpublished]
      exact .inl (Multiset.mem_cons_of_mem hwo)
    · intro wo hwo
      cases hwo
      rw [hpublished]
      exact Multiset.mem_cons_self _ _
  | diskWrite wopelog =>
    exact ⟨fun _ hm => .inl hm,fun _ hm => .inl hm,fun _ hm => .inl hm,.inl ⟨rfl,by simp⟩,by simp,
      by simp⟩
  | found ropelog =>
    refine ⟨fun _ hm => .inl hm,fun _ hm => .inl hm,?_,.inl ⟨rfl,by simp⟩,by simp,by simp⟩
    intro x hx
    rcases Multiset.mem_cons.1 hx with rfl | hm
    · exact .inr rfl
    · exact .inl hm
  | @read ropelog contents datas found hfound hdatas =>
    refine ⟨fun _ hm => .inl hm,fun _ hm => .inl hm,?_,.inl ⟨rfl,by simp⟩,by simp,?_⟩
    · intro x hx
      rw [hfound]
      exact .inl (Multiset.mem_cons_of_mem hx)
    · intro ro result hro
      cases hro
      rw [hfound]
      exact ⟨_,Multiset.mem_cons_self _ _,rfl,datas,rfl,hdatas⟩
  | crashed =>
    exact ⟨by simp,by simp,by simp,.inl ⟨rfl,by simp⟩,by simp,by simp⟩

/-- A state that the run has been in. -/
def Moment (v₀ : Versions) (trace : List StoreEvent) (mid : VersionStore) : Prop :=
  ∃ before, before <+: trace ∧ Traced Step { table := v₀ } before mid

/-- Where everything in the table and in the replies of a run comes from. -/
structure History (v₀ : Versions) (trace : List StoreEvent) (store : VersionStore) : Prop where
  drafts : ∀ x ∈ store.drafts, ∃ mid, Moment v₀ trace mid ∧ x.2 = mid.table.draft x.1.wope
  published : ∀ wopelog ∈ store.published, .published wopelog ∈ trace
  found : ∀ x ∈ store.found, ∃ mid, Moment v₀ trace mid ∧
    x.2 = mid.table.blocks x.1.rope.ghobj.key
  table : ∀ key contents, store.table key = some contents → v₀ key = some contents ∨
    ∃ wopelog mid, .published wopelog ∈ trace ∧ wopelog.newKey = key ∧ Moment v₀ trace mid ∧
      contents = mid.table.draft wopelog.wope
  stored : ∀ wopelog, .published wopelog ∈ trace → ∃ writer mid, .published writer ∈ trace ∧
    writer.newKey = wopelog.newKey ∧ Moment v₀ trace mid ∧
      store.table wopelog.newKey = some (mid.table.draft writer.wope)
  journalWrite : ∀ wopelog, .sent (.repWrite wopelog .primaryJournalWrite) ∈ trace →
    .published wopelog ∈ trace
  read : ∀ ropelog result, .sent (.repRead ropelog result) ∈ trace →
    ∃ datas mid, result = ⟨ropelog.opeId,ropelog.rope.ghobj,ropelog.rope.blocks,datas⟩ ∧
      Moment v₀ trace mid ∧
      RightOrEmpty (mid.table.blocks ropelog.rope.ghobj.key) ropelog.rope.blocks datas

variable {v₀ : Versions} {trace : List StoreEvent} {store store' mid : VersionStore} {e : StoreEvent}

lemma Moment.append (h : Moment v₀ trace mid) (later : List StoreEvent) :
    Moment v₀ (trace ++ later) mid := by
  obtain ⟨before,hbefore,hrun⟩ := h
  exact ⟨before,hbefore.trans (List.prefix_append _ _),hrun⟩

lemma History.start (v₀ : Versions) : History v₀ [] { table := v₀ } :=
  ⟨by simp,by simp,by simp,fun _ _ h => .inl h,by simp,by simp,by simp⟩

theorem History.step (h : History v₀ trace store) (hnow : Moment v₀ trace store)
    (hstep : Step store e store') : History v₀ (trace ++ [e]) store' := by
  obtain ⟨hdrafts,hpublished,hfound,htable,hjournalWrite,hread⟩ := hstep.justified
  have hlast : ∀ e', e' ∈ trace ++ [e] ↔ e' ∈ trace ∨ e' = e := by simp
  constructor
  · intro x hx
    rcases hdrafts x hx with hold | hnew
    · obtain ⟨mid,hmid,heq⟩ := h.drafts x hold
      exact ⟨mid,hmid.append _,heq⟩
    · exact ⟨store,hnow.append _,hnew⟩
  · intro wopelog hm
    rcases hpublished wopelog hm with hold | hnew
    · exact (hlast _).2 (.inl (h.published wopelog hold))
    · exact (hlast _).2 (.inr hnew.symm)
  · intro x hx
    rcases hfound x hx with hold | hnew
    · obtain ⟨mid,hmid,heq⟩ := h.found x hold
      exact ⟨mid,hmid.append _,heq⟩
    · exact ⟨store,hnow.append _,hnew⟩
  · intro key contents hkey
    have hold : store.table key = some contents → v₀ key = some contents ∨
        ∃ wopelog mid, .published wopelog ∈ trace ++ [e] ∧ wopelog.newKey = key ∧
          Moment v₀ (trace ++ [e]) mid ∧ contents = mid.table.draft wopelog.wope := by
      intro hsome
      rcases h.table key contents hsome with hfirst | ⟨wopelog,mid,hm,hnew,hmid,heq⟩
      · exact .inl hfirst
      · exact .inr ⟨wopelog,mid,(hlast _).2 (.inl hm),hnew,hmid.append _,heq⟩
    rcases htable with ⟨hsame,_⟩ | ⟨x,hx,rfl,hupdate⟩
    · exact hold (hsame ▸ hkey)
    · rw [hupdate] at hkey
      by_cases hk : key = x.1.newKey
      · subst hk
        rw [Function.update_self] at hkey
        obtain ⟨mid,hmid,heq⟩ := h.drafts x hx
        exact .inr ⟨x.1,mid,(hlast _).2 (.inr rfl),rfl,hmid.append _,
          (Option.some.inj hkey).symm.trans heq⟩
      · rw [Function.update_of_ne hk] at hkey
        exact hold hkey
  · intro wopelog hm
    have hold : .published wopelog ∈ trace → ∃ writer mid, .published writer ∈ trace ++ [e] ∧
        writer.newKey = wopelog.newKey ∧ Moment v₀ (trace ++ [e]) mid ∧
          store.table wopelog.newKey = some (mid.table.draft writer.wope) := by
      intro hbefore
      obtain ⟨writer,mid,hwriter,hkey,hmid,heq⟩ := h.stored wopelog hbefore
      exact ⟨writer,mid,(hlast _).2 (.inl hwriter),hkey,hmid.append _,heq⟩
    rcases htable with ⟨hsame,hother⟩ | ⟨x,hx,rfl,hupdate⟩
    · rw [hsame]
      exact hold (((hlast _).1 hm).resolve_right (fun heq => hother wopelog heq.symm))
    · rw [hupdate]
      by_cases hk : wopelog.newKey = x.1.newKey
      · obtain ⟨mid,hmid,heq⟩ := h.drafts x hx
        refine ⟨x.1,mid,(hlast _).2 (.inr rfl),hk.symm,hmid.append _,?_⟩
        rw [hk,Function.update_self,heq]
      · rw [Function.update_of_ne hk]
        refine hold (((hlast _).1 hm).resolve_right ?_)
        intro heq
        cases heq
        exact hk rfl
  · intro wopelog hm
    rcases (hlast _).1 hm with hold | hnew
    · exact (hlast _).2 (.inl (h.journalWrite wopelog hold))
    · exact (hlast _).2 (.inl (h.published wopelog (hjournalWrite wopelog hnew.symm)))
  · intro ropelog result hm
    rcases (hlast _).1 hm with hold | hnew
    · obtain ⟨datas,mid,heq,hmid,hright⟩ := h.read ropelog result hold
      exact ⟨datas,mid,heq,hmid.append _,hright⟩
    · obtain ⟨x,hx,rfl,datas,heq,hright⟩ := hread ropelog result hnew.symm
      obtain ⟨mid,hmid,hblocks⟩ := h.found x hx
      exact ⟨datas,mid,heq,hmid.append _,hblocks ▸ hright⟩

theorem history (h : Traced Step { table := v₀ } trace store) : History v₀ trace store := by
  induction h with
  | start => exact .start v₀
  | step hrun hs ih => exact ih.step ⟨_,List.prefix_refl _,hrun⟩ hs

end VersionStore
end GDFileStore
