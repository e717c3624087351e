import GDFileStore.Queues.Consistent
import GDFileStore.Queues.ReadsOnce

/-! A server does what a table of versions does. Its writes and reads go on side by side, request
by request; to each run there is a run of the table with the same replies, in which every write
publishes its version at once and every read looks up one version at once. -/
namespace GDFileStore
open Sequences Program Prog
variable {σ : Type}

/-- The phases and the reads that a server may begin at any time, on its world and the replies that
it has sent. -/
def serving (fs : FileStore) : Setting Action.Resp Unit (World × List Reply) where
  begins _ p := (∃ wopelog, p = fs.jobActions (fs.doWope wopelog)) ∨
    ∃ ropelog, p = fs.jobActions (fs.doRope ropelog)
  outcome a s answer s' := a.changes Request.Gives s.1 answer s'.1 ∧ s'.2 = s.2 ++ a.sent

/-- The table has the versions that are stored, and each worker the share of it that its request
has taken. -/
structure Shown (fs : FileStore) (vs : List Work) (w : World) (store : VersionStore) : Prop where
  consistent : Consistent fs vs w store.table
  drafts : store.drafts = (vs.flatMap (Work.drafts fs w) : List _)
  published : store.published = (vs.flatMap Work.unanswered : List _)
  found : store.found = (vs.flatMap (Work.found fs w) : List _)

namespace Shown
variable {fs : FileStore} {vs others : List Work} {w w' : World} {store store' : VersionStore}
  {v v' : Work}

lemma perm {us : List Work} (hp : us.Perm vs) (h : Shown fs us w store) : Shown fs vs w store :=
  ⟨h.consistent.perm hp,h.drafts.trans (Multiset.coe_eq_coe.2 (hp.flatMap_right _)),
    h.published.trans (Multiset.coe_eq_coe.2 (hp.flatMap_right _)),
    h.found.trans (Multiset.coe_eq_coe.2 (hp.flatMap_right _))⟩

/-- One worker goes from `v` to `v'`, and the table changes in that worker's share. -/
lemma move (h : Shown fs (v::others) w store) (hconsistent : Consistent fs (v'::others) w' store'.table)
    (hsame : SameFiles fs others w w')
    (hdrafts : ∀ rest, store.drafts = (v.drafts fs w : Multiset _) + rest →
      store'.drafts = (v'.drafts fs w' : Multiset _) + rest)
    (hpublished : ∀ rest, store.published = (v.unanswered : Multiset _) + rest →
      store'.published = (v'.unanswered : Multiset _) + rest)
    (hfound : ∀ rest, store.found = (v.found fs w : Multiset _) + rest →
      store'.found = (v'.found fs w' : Multiset _) + rest) : Shown fs (v'::others) w' store' where
  consistent := hconsistent
  drafts := by
    rw [List.flatMap_cons,hsame.drafts,← Multiset.coe_add]
    exact hdrafts _ h.drafts
  published := by
    rw [List.flatMap_cons,← Multiset.coe_add]
    exact hpublished _ h.published
  found := by
    rw [List.flatMap_cons,hsame.found,← Multiset.coe_add]
    exact hfound _ h.found

/-- A step that the table does not see. -/
lemma silent (h : Shown fs (v::others) w store) (hconsistent : Consistent fs (v'::others) w' store.table)
    (hsame : SameFiles fs others w w') (hdrafts : v'.drafts fs w' = v.drafts fs w)
    (hpublished : v'.unanswered = v.unanswered) (hfound : v'.found fs w' = v.found fs w) :
    Shown fs (v'::others) w' store :=
  h.move hconsistent hsame (fun _ hrest => hdrafts ▸ hrest) (fun _ hrest => hpublished ▸ hrest)
    (fun _ hrest => hfound ▸ hrest)

/-- A worker that has nothing in hand comes or goes. -/
lemma idle_iff (hv : v.Idle) : Shown fs (v::vs) w store ↔ Shown fs vs w store := by
  have hnone : v.drafts fs w = [] ∧ v.unanswered = [] ∧ v.found fs w = [] := by
    cases v <;> first | exact hv.elim | exact ⟨rfl,rfl,rfl⟩
  obtain ⟨hd,hp,hf⟩ := hnone
  constructor
  · rintro ⟨hconsistent,hdrafts,hpublished,hfound⟩
    rw [List.flatMap_cons,hd] at hdrafts
    rw [List.flatMap_cons,hp] at hpublished
    rw [List.flatMap_cons,hf] at hfound
    exact ⟨(Consistent.idle_iff hv).1 hconsistent,hdrafts,hpublished,hfound⟩
  · rintro ⟨hconsistent,hdrafts,hpublished,hfound⟩
    refine ⟨(Consistent.idle_iff hv).2 hconsistent,?_,?_,?_⟩
    · rwa [List.flatMap_cons,hd]
    · rwa [List.flatMap_cons,hp]
    · rwa [List.flatMap_cons,hf]

end Shown

/-- What one action of one worker comes to: the table takes a step, seen in the replies, or none. -/
def Tracked (fs : FileStore) (others : List Work) (v' : Work) (w' : World) (sent : List Reply)
    (store : VersionStore) : Prop :=
  (sent = [] ∧ Shown fs (v'::others) w' store) ∨
  ∃ e store', VersionStore.Step store e store' ∧ StoreEvent.replies [e] = sent ∧
    Shown fs (v'::others) w' store'

namespace Shown
variable {fs : FileStore} {others : List Work} {w w' : World} {store : VersionStore}
  {wopelog : WOpeLog} {a : Action} {answer : a.Resp}

/-- The base version is looked up: the write's version is the one that the table makes of it now. -/
lemma base (h : Shown fs (.accepted wopelog::others) w store) {l : List Int64}
    (hl : l = w.serials wopelog.wope.ghobj.key) :
    Tracked fs others (.editing wopelog (settle wopelog.wope.edits l).1
      (settle wopelog.wope.edits l).2) w [] store := by
  subst hl
  have hjournaled := h.consistent.journaled
  have hblocks : (w.serials wopelog.wope.ghobj.key).map (w.data fs) =
      store.table.blocks wopelog.wope.ghobj.key := by
    exact hjournaled.datas wopelog.wope.ghobj.key
  refine .inr ⟨_,_,.drafted store wopelog,rfl,h.move ?_ (fun _ _ _ _ => rfl) ?_ (fun _ hrest => hrest)
    (fun _ hrest => hrest)⟩
  · refine h.consistent.look rfl (fun s hs => .inr ⟨_,settle_mem hs⟩) ?_
    exact settle_nodup (hjournaled.tidy.serials_nodup _)
  · intro rest hrest
    rw [Work.drafts,applyEdits_settle,hblocks]
    exact congrArg ((wopelog,store.table.draft wopelog.wope) ::ₘ ·) (hrest.trans (Multiset.zero_add rest))

lemma accepted (h : Shown fs (.accepted wopelog::others) w store)
    (hallowed : Work.allowed fs (.accepted wopelog) a) (hop : a.changes Request.Gives w answer w') :
    Tracked fs others (Work.next (.accepted wopelog) a answer) w' a.sent store := by
  cases a with
  | doWOPEBegins wo =>
    obtain rfl : w' = w := hop
    exact .inl ⟨rfl,h⟩
  | request r =>
    cases r with
    | getObjAttr key =>
      obtain rfl : key = wopelog.wope.ghobj.key := hallowed
      obtain ⟨rfl,rfl⟩ := Prod.mk.inj (Option.some.inj hop)
      exact h.base (FileStore.base_serialsList w _)
    | _ => exact hallowed.elim
  | _ => exact hallowed.elim

/-- A write with edits to do draws a serial; one without counts a block of its list or stores it. -/
lemma editing {edits : List (Sequences.Edit Bytes)} {l : List Int64}
    (h : Shown fs (.editing wopelog edits l::others) w store)
    (hallowed : Work.allowed fs (.editing wopelog edits l) a)
    (hop : a.changes Request.Gives w answer w') :
    Tracked fs others (Work.next (.editing wopelog edits l) a answer) w' a.sent store := by
  cases a with
  | request r =>
    cases r with
    | now =>
      cases hclock : w.clock with
      | nil => simp [Action.changes,Request.Gives,Request.handle,hclock] at hop
      | cons serial clock =>
        simp only [Action.changes,Request.Gives,Request.handle,hclock,Option.some.injEq,
          Prod.mk.injEq] at hop
        obtain ⟨rfl,rfl⟩ := hop
        exact .inl ⟨rfl,h.silent (h.consistent.now hclock) (fun _ _ _ _ => rfl) rfl rfl rfl⟩
    | getBlockAttr s =>
      cases edits with
      | cons e es => exact hallowed.elim
      | nil =>
        obtain ⟨rfl,rfl⟩ := Prod.mk.inj (Option.some.inj hop)
        have hs : s ∈ l := hallowed
        obtain ⟨rb,hrb,hserial⟩ := (h.consistent.sound s (List.mem_append_left _ hs)).recorded
        refine .inl ⟨rfl,h.silent (h.consistent.look rfl ?_ ?_) (fun _ _ _ _ => rfl) rfl rfl rfl⟩
        · intro t ht
          rcases List.mem_cons.1 ht with rfl | ht
          · exact .inl hs
          · exact .inl ht
        · refine ⟨h.consistent.holds _ List.mem_cons_self,?_⟩
          simp [getAttr,hrb,hserial]
    | setObjAttr key attr =>
      cases edits with
      | cons e es => exact hallowed.elim
      | nil =>
        obtain ⟨rfl,rfl⟩ := hallowed
        obtain ⟨_,rfl⟩ := Prod.mk.inj (Option.some.inj hop)
        obtain ⟨rest,hrest⟩ : ∃ rest, store.drafts = (wopelog,attr.serialsList.map (w.data fs)) ::ₘ rest :=
          ⟨(others.flatMap (Work.drafts fs w) : List _),h.drafts⟩
        refine .inr ⟨_,_,.published hrest,rfl,h.move h.consistent.publish (fun _ _ _ _ => rfl) ?_ ?_
          (fun _ hrest => hrest)⟩
        · intro rest' hrest'
          have hsame := (Multiset.cons_inj_right _).1 (hrest.symm.trans hrest')
          exact hsame.trans (Multiset.zero_add rest').symm
        · intro rest' hrest'
          exact congrArg (wopelog ::ₘ ·) (hrest'.trans (Multiset.zero_add rest'))
    | outOfRange => cases hop
    | _ => cases edits <;> exact hallowed.elim
  | _ => cases edits <;> exact hallowed.elim

lemma stamped [fs.hash.Separates] {edits : List (Sequences.Edit Bytes)} {l : List Int64}
    {serial : Int64}
    (h : Shown fs (.stamped wopelog edits l serial::others) w store)
    (hallowed : Work.allowed fs (.stamped wopelog edits l serial) a)
    (hop : a.changes Request.Gives w answer w') :
    Tracked fs others (Work.next (.stamped wopelog edits l serial) a answer) w' a.sent store := by
  cases edits with
  | nil => exact hallowed.elim
  | cons e es =>
    cases a with
    | request r =>
      cases r with
      | writeFile path content =>
        obtain ⟨rfl,he⟩ := hallowed
        obtain ⟨_,rfl⟩ := Prod.mk.inj (Option.some.inj hop)
        have hfiles : ∀ s, s ≠ serial → Function.update w.files (fs.journalFile serial)
            (some content) (fs.journalFile s) = w.files (fs.journalFile s) := by
          intro s hs
          exact Function.update_of_ne (fun heq => hs (fs.journalFile_inj.1 heq)) _ _
        obtain ⟨hl,_,hothers⟩ := h.consistent.drawn_unused (List.mem_singleton_self serial)
        have hdata : l.map (World.data fs { w with
            files := Function.update w.files (fs.journalFile serial) (some content) }) =
            l.map (w.data fs) := by
          apply List.map_congr_left
          intro s hs
          exact congrArg (fun file => file.getD []) (hfiles s (fun heq => hl (heq ▸ hs)))
        refine .inl ⟨rfl,h.silent (h.consistent.write he rfl rfl rfl rfl) ?_ ?_ rfl rfl⟩
        · intro v hv s hs
          exact hfiles s (fun heq => hothers v hv (heq ▸ hs))
        · exact congrArg (fun l => [(wopelog,applyEdits (e::es) l)]) hdata
      | _ => exact hallowed.elim
    | _ => exact hallowed.elim

lemma written {edits : List (Sequences.Edit Bytes)} {l : List Int64} {serial : Int64}
    (h : Shown fs (.written wopelog edits l serial::others) w store)
    (hallowed : Work.allowed fs (.written wopelog edits l serial) a)
    (hop : a.changes Request.Gives w answer w') :
    Tracked fs others (Work.next (.written wopelog edits l serial) a answer) w' a.sent store := by
  obtain ⟨_,e,es,data,rfl,he,hfile⟩ := h.consistent.holds _ List.mem_cons_self
  cases a with
  | request r =>
    cases r with
    | setBlockAttr s attr =>
      obtain ⟨rfl,rfl⟩ := hallowed
      obtain ⟨_,rfl⟩ := Prod.mk.inj (Option.some.inj hop)
      refine .inl ⟨rfl,h.silent (h.consistent.record rfl rfl rfl rfl) (fun _ _ _ _ => rfl) ?_ rfl rfl⟩
      -- The edit done on the serials is the edit done on the data.
      have hdata : w.data fs s = data := by rw [World.data,hfile,Option.getD_some]
      have hedit : ((e.map (fun _ => s)).apply l).map (w.data fs) = e.apply (l.map (w.data fs)) := by
        rw [Sequences.Edit.map_apply,Sequences.Edit.map_map]
        cases e with
        | insert p x =>
          obtain rfl : x = data := Option.some.inj he
          rw [Sequences.Edit.map,hdata]
        | delete p => cases he
        | overWrite p x =>
          obtain rfl : x = data := Option.some.inj he
          rw [Sequences.Edit.map,hdata]
      change [(wopelog,applyEdits (settle es _).1 ((settle es _).2.map (w.data fs)))] = _
      rw [applyEdits_settle,hedit]
      rfl
    | outOfRange => cases hop
    | _ => exact hallowed.elim
  | _ => exact hallowed.elim

lemma counting {l : List Int64} {serial : Int64} {attr : ReferedBlock}
    (h : Shown fs (.counting wopelog l serial attr::others) w store)
    (hallowed : Work.allowed fs (.counting wopelog l serial attr) a)
    (hop : a.changes Request.Gives w answer w') :
    Tracked fs others (Work.next (.counting wopelog l serial attr) a answer) w' a.sent store := by
  cases a with
  | request r =>
    cases r with
    | setBlockAttr s attr' =>
      obtain ⟨rfl,rfl⟩ := hallowed
      obtain ⟨_,rfl⟩ := Prod.mk.inj (Option.some.inj hop)
      refine .inl ⟨rfl,h.silent (h.consistent.count ?_ rfl rfl rfl rfl) (fun _ _ _ _ => rfl) rfl rfl
        rfl⟩
      rfl
    | _ => exact hallowed.elim
  | _ => exact hallowed.elim

/-- A worker that has done with its request has nothing in hand. -/
lemma freed {v : Work} (h : Shown fs (v::others) w store) (hdrawn : v.drawn = [])
    (hdrafts : v.drafts fs w = []) (hpublished : v.unanswered = []) (hfound : v.found fs w = []) :
    Shown fs (.free::others) w store :=
  h.silent (h.consistent.look hdrawn.symm (fun _ hs => absurd hs List.not_mem_nil) trivial)
    (fun _ _ _ _ => rfl) hdrafts.symm hpublished.symm hfound.symm

lemma stored (h : Shown fs (.published wopelog::others) w store)
    (hallowed : Work.allowed fs (.published wopelog) a) (hop : a.changes Request.Gives w answer w') :
    Tracked fs others (Work.next (.published wopelog) a answer) w' a.sent store := by
  cases a with
  | doWOPEReturns wo =>
    obtain rfl : w' = w := hop
    exact .inl ⟨rfl,h⟩
  | httpSend reply =>
    obtain rfl : w' = w := hop
    obtain rfl : reply = .repWrite wopelog .primaryJournalWrite := hallowed
    obtain ⟨rest,hrest⟩ : ∃ rest, store.published = wopelog ::ₘ rest :=
      ⟨(others.flatMap Work.unanswered : List _),h.published⟩
    refine .inr ⟨_,_,.journalWrite hrest,rfl,h.move
      (h.consistent.look rfl (fun _ hs => absurd hs List.not_mem_nil) trivial)
      (fun _ _ _ _ => rfl) (fun _ hrest => hrest) ?_ (fun _ hrest => hrest)⟩
    intro rest' hrest'
    have hsame := (Multiset.cons_inj_right _).1 (hrest.symm.trans hrest')
    exact hsame.trans (Multiset.zero_add rest').symm
  | _ => exact hallowed.elim

lemma moving (h : Shown fs (.moving::others) w store) (hallowed : Work.allowed fs .moving a)
    (hop : a.changes Request.Gives w answer w') :
    Tracked fs others (Work.next .moving a answer) w' a.sent store := by
  cases a with
  | request r =>
    cases r with
    | getObjAttr key =>
      obtain ⟨rfl,rfl⟩ := Prod.mk.inj (Option.some.inj hop)
      refine .inl ⟨rfl,h.silent (h.consistent.look rfl ?_ trivial) (fun _ _ _ _ => rfl) rfl rfl rfl⟩
      exact fun s hs => .inr ⟨key,hs⟩
    | _ => exact hallowed.elim
  | _ => exact hallowed.elim

lemma copying [fs.hash.Separates] {l : List Int64} {serial : Option Int64}
    (h : Shown fs (.copying l serial::others) w store)
    (hallowed : Work.allowed fs (.copying l serial) a) (hop : a.changes Request.Gives w answer w') :
    Tracked fs others (Work.next (.copying l serial) a answer) w' a.sent store := by
  cases a with
  | request r =>
    cases r with
    | getBlockAttr s =>
      obtain ⟨rfl,rfl⟩ := Prod.mk.inj (Option.some.inj hop)
      have hs : s ∈ l := by cases serial <;> exact hallowed
      obtain ⟨rb,hrb,hserial⟩ := (h.consistent.sound s (List.mem_append_left _
        (List.mem_append_right _ hs))).recorded
      have hattr : (getAttr (w.blocks s) ({} : ReferedBlock)).1.serial = s := by
        simp [getAttr,hrb,hserial]
      refine .inl ⟨rfl,h.silent (h.consistent.look rfl ?_ trivial) (fun _ _ _ _ => rfl) rfl rfl rfl⟩
      intro t ht
      rcases List.mem_cons.1 ht with rfl | ht
      · exact .inl (List.mem_append_right _ (hattr.symm ▸ hs))
      · exact .inl (List.mem_append_right _ ht)
    | copy source directory =>
      cases serial with
      | none => exact hallowed.elim
      | some s =>
        obtain ⟨rfl,rfl⟩ := hallowed
        have hcopied := hop.symm.trans (w.handle_copy fs s)
        obtain ⟨_,rfl⟩ := Prod.mk.inj (Option.some.inj hcopied)
        refine .inl ⟨rfl,h.silent h.consistent.copy ?_ rfl rfl rfl⟩
        intro v _ t _
        rw [World.copyFile_eq]
        exact Function.update_of_ne (fs.journalFile_ne_diskFile t s) _ _
    | _ => cases serial <;> exact hallowed.elim
  | addWope wo =>
    obtain rfl : w' = w := hop
    exact .inl ⟨rfl,h.freed rfl rfl rfl rfl⟩
  | _ => cases serial <;> exact hallowed.elim

lemma closing (h : Shown fs (.closing::others) w store) (hallowed : Work.allowed fs .closing a)
    (hop : a.changes Request.Gives w answer w') :
    Tracked fs others (Work.next .closing a answer) w' a.sent store := by
  cases a with
  | httpSend reply =>
    obtain rfl : w' = w := hop
    obtain ⟨wopelog,rfl⟩ := hallowed
    exact .inr ⟨_,_,.diskWrite store wopelog,rfl,h.freed rfl rfl rfl rfl⟩
  | _ => exact hallowed.elim

variable {ropelog : ROpeLog}

/-- The version of a read is looked up. -/
lemma asked (h : Shown fs (.asked ropelog::others) w store)
    (hallowed : Work.allowed fs (.asked ropelog) a) (hop : a.changes Request.Gives w answer w') :
    Tracked fs others (Work.next (.asked ropelog) a answer) w' a.sent store := by
  cases a with
  | request r =>
    cases r with
    | getObjAttr key =>
      obtain rfl : key = ropelog.rope.ghobj.key := hallowed
      obtain ⟨rfl,rfl⟩ := Prod.mk.inj (Option.some.inj hop)
      have hblocks := h.consistent.journaled.datas ropelog.rope.ghobj.key
      refine .inr ⟨_,_,.found store ropelog,rfl,h.move (h.consistent.look rfl ?_ ?_)
        (fun _ _ _ _ => rfl) (fun _ hrest => hrest) (fun _ hrest => hrest) ?_⟩
      · exact fun s hs => .inr ⟨_,hs⟩
      · exact List.Forall₂.nil
      · intro rest hrest
        change _ = (ropelog,(w.serials ropelog.rope.ghobj.key).map (w.data fs)) ::ₘ rest
        rw [hblocks]
        exact congrArg ((ropelog,store.table.blocks ropelog.rope.ghobj.key) ::ₘ ·)
          (hrest.trans (Multiset.zero_add rest))
    | _ => exact hallowed.elim
  | _ => exact hallowed.elim

/-- A block is read: it is the one of the version where it is on disk, and nothing elsewhere. -/
lemma reading {serials : List Int64} {datas : List Bytes}
    (h : Shown fs (.reading ropelog serials datas::others) w store)
    (hallowed : Work.allowed fs (.reading ropelog serials datas) a)
    (hop : a.changes Request.Gives w answer w') :
    Tracked fs others (Work.next (.reading ropelog serials datas) a answer) w' a.sent store := by
  have hholds := h.consistent.holds _ List.mem_cons_self
  cases a with
  | request r =>
    cases r with
    | readFile path =>
      obtain ⟨block,s,hblock,hs,rfl⟩ := hallowed
      obtain ⟨rfl,rfl⟩ := Prod.mk.inj (Option.some.inj hop)
      refine .inl ⟨rfl,h.silent (h.consistent.look rfl (fun s hs => .inl hs) ?_)
        (fun _ _ _ _ => rfl) rfl rfl rfl⟩
      have hsound := h.consistent.sound s (List.mem_append_left _ (List.mem_of_getElem? hs))
      have hget : (serials.map (w.data fs)).getD block.toInt.toNat [] = w.data fs s := by
        rw [List.getD_eq_getElem?_getD,List.getElem?_map,hs,Option.map_some,Option.getD_some]
      have hdatum : (w.files (fs.diskFile s)).getD [] =
          (serials.map (w.data fs)).getD block.toInt.toNat [] ∨
          (w.files (fs.diskFile s)).getD [] = [] := by
        by_cases hdisk : w.OnDisk fs s
        · rw [hget,hsound.disk hdisk]
          exact .inl rfl
        · rw [World.OnDisk,Option.not_isSome_iff_eq_none] at hdisk
          rw [hdisk]
          exact .inr rfl
      change RightOrEmpty _ (ropelog.rope.blocks.take (datas ++ [_]).length) _
      rw [List.length_append,List.length_singleton,List.take_add_one,hblock]
      exact List.rel_append hholds (.cons hdatum .nil)
    | outOfRange => cases hop
    | _ => exact hallowed.elim
  | httpSend reply =>
    obtain rfl : w = w' := Eq.symm hop
    obtain ⟨hlen,rfl⟩ := hallowed
    obtain ⟨rest,hrest⟩ : ∃ rest, store.found = (ropelog,serials.map (w.data fs)) ::ₘ rest :=
      ⟨(others.flatMap (Work.found fs w) : List _),h.found⟩
    have hdatas : RightOrEmpty (serials.map (w.data fs)) ropelog.rope.blocks datas := by
      rw [Work.Holds,hlen,List.take_length] at hholds
      exact hholds
    refine .inr ⟨_,_,.read hrest hdatas,rfl,h.move
      (h.consistent.look rfl (fun _ hs => absurd hs List.not_mem_nil) trivial)
      (fun _ _ _ _ => rfl) (fun _ hrest => hrest) (fun _ hrest => hrest) ?_⟩
    intro rest' hrest'
    have hsame := (Multiset.cons_inj_right _).1 (hrest.symm.trans hrest')
    exact hsame.trans (Multiset.zero_add rest').symm
  | _ => exact hallowed.elim

/-- Every action of every worker is a step of the table or none. -/
theorem step [fs.hash.Separates] {v : Work} (h : Shown fs (v::others) w store)
    (hallowed : v.allowed fs a)
    (hop : a.changes Request.Gives w answer w') :
    Tracked fs others (v.next a answer) w' a.sent store := by
  cases v with
  | accepted => exact h.accepted hallowed hop
  | editing => exact h.editing hallowed hop
  | stamped => exact h.stamped hallowed hop
  | written => exact h.written hallowed hop
  | counting => exact h.counting hallowed hop
  | published => exact h.stored hallowed hop
  | moving => exact h.moving hallowed hop
  | copying => exact h.copying hallowed hop
  | closing => exact h.closing hallowed hop
  | asked => exact h.asked hallowed hop
  | reading => exact h.reading hallowed hop
  | free =>
    cases a with
    | addWope wo =>
      obtain rfl : w' = w := hop
      exact .inl ⟨rfl,h⟩
    | _ => exact hallowed.elim

end Shown

namespace DataServer

/-- The workers of both pools. -/
def workers (d : DataServer World) : List (Activity Unit) :=
  d.writes.running.map Prod.snd ++ d.reading.map Prod.snd

lemma crowd_occupied {C : Setting Action.Resp Unit σ} {s₀ s : σ} {before after : List (Activity Unit)}
    {p : Activity Unit} (t : ℕ) (h : Crowd C s₀ (before ++ p::after) s) :
    Crowd C s₀ (before ++ (Server.occupied t p).map Prod.snd ++ after) s := by
  cases p with
  | done u =>
    rw [Server.occupied,List.map_nil,List.append_nil]
    exact h.leave
  | call a rest =>
    rw [List.append_assoc]
    exact h

variable {fs : FileStore} {threads : ℕ} {w₀ : World}

/-- A step of a server is one of its workers' crowd, in any setting that lets its jobs begin. -/
lemma crowd_step {C : Setting Action.Resp Unit (World × List Reply)} {s₀ : World × List Reply}
    {d d' : DataServer World} {sent : List Reply} (houtcome : C.outcome = (serving fs).outcome)
    (hwopes : ∀ wopelog, C.begins (d.writes.world,sent ++ d.sent) (fs.jobActions (fs.doWope wopelog)))
    (hropes : ∀ ro ∈ d.jobs, C.begins (d.writes.world,sent ++ d.sent)
      (fs.jobActions (fs.doRope ro.2)))
    (h : Crowd C s₀ d.workers (d.writes.world,sent ++ d.sent))
    (hstep : Step fs threads Request.Gives d d') :
    Crowd C s₀ d'.workers (d'.writes.world,sent ++ d'.sent) := by
  have hacts : ∀ {a : Action} {answer : a.Resp} {world : World},
      a.changes Request.Gives d.writes.world answer world →
      C.outcome a (d.writes.world,sent ++ d.sent) answer (world,sent ++ d.sent ++ a.sent) :=
    fun hchanges => houtcome ▸ ⟨hchanges,rfl⟩
  cases hstep with
  | reqWrite => exact h
  | reqRead => exact h
  | swapWopes => exact h
  | swapRopes => exact h
  | enqueueWope => exact h
  | enqueueRope => exact h
  | @takeWope wo _ _ _ =>
    have hentered := crowd_occupied wo.1 (h.enter (hwopes wo.2))
    simpa [workers,Server.take] using hentered
  | @takeRope ro _ hjobs _ =>
    rw [← List.append_nil (workers _)] at h
    have hentered := crowd_occupied ro.1 (h.enter (hropes ro (hjobs ▸ List.mem_cons_self)))
    simpa [workers,takeRope] using hentered
  | @actWope before after t a rest answer world hrunning hchanges =>
    rw [workers,hrunning,List.map_append,List.map_cons,List.append_assoc,List.cons_append] at h
    have hstepped := crowd_occupied t (h.step (hacts hchanges))
    simpa [workers,actWope,Server.act] using hstepped
  | @actRope before after t a rest answer world hreading hchanges =>
    rw [workers,hreading,List.map_append,List.map_cons,← List.append_assoc] at h
    have hstepped := crowd_occupied t (h.step (hacts hchanges))
    simpa [workers,actRope] using hstepped

end DataServer

/-- The lives of a server, with all the replies sent: each goes from its start to a crash, or to
now, on the database and the files that the one before has left. -/
inductive Lives (fs : FileStore) (threads : ℕ) (w₀ : World) : List Reply → World → Prop
  | start : Lives fs threads w₀ [] w₀
  | life {sent : List Reply} {w : World} {d : DataServer World} : Lives fs threads w₀ sent w →
      DataServer.Reachable fs threads Request.Gives w d →
      Lives fs threads w₀ (sent ++ d.sent) d.writes.world

section lives
variable {fs : FileStore} {threads : ℕ} {w₀ w : World} {v₀ : Versions} {sent : List Reply}

end lives
end GDFileStore
