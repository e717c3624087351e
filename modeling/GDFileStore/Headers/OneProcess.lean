import GDFileStore.Headers.Numbering

/-! Headers within one process: the caches and the records agree in every state, and the answers
of a run are those of a registry that makes no number twice. -/
namespace GDFileStore
open Sequences Program

namespace HeaderEvent

/-- Until an object is erased `GetHeader` gives it the header it gave first. -/
def SameHeaderUntilErased (trace : List HeaderEvent) : Prop :=
  ∀ before mid after gh h h', trace = before ++ .gotHeader gh h::(mid ++ .gotHeader gh h'::after) →
    (∀ e ∈ mid, ¬e.Erases gh) → h' = h

/-- A header that `GetHeader` gives again is that of the same object, which was not erased. -/
def IssuedOnce (trace : List HeaderEvent) : Prop :=
  ∀ before mid after gh gh' h, trace = before ++ .gotHeader gh h::(mid ++ .gotHeader gh' h::after) →
    gh' = gh ∧ ∀ e ∈ mid, ¬e.Erases gh

/-- Until an object is erased `GetObj` gives it for the header that `GetHeader` gave. -/
def ObjOfHeader (trace : List HeaderEvent) : Prop :=
  ∀ before mid after gh h gh', trace = before ++ .gotHeader gh h::(mid ++ .gotObj h gh'::after) →
    (∀ e ∈ mid, ¬e.Erases gh) → gh' = gh

/-- How many different headers `GetHeader` has given. -/
def headersMade (trace : List HeaderEvent) : ℕ :=
  ((trace.map number).filterMap Registry.Event.number?).dedup.length

section Numbers
variable {trace mid : List HeaderEvent} {r : Registry GHObject Header}

lemma forget_notMem {gh : GHObject} (h : ∀ e ∈ mid, ¬e.Erases gh) :
    .forget gh ∉ mid.map number := by
  intro hm
  obtain ⟨e,he,hforget⟩ := List.mem_map.1 hm
  exact h e he (erases_of_number hforget)

lemma sameHeaderUntilErased (hrun : Traced Registry.Step .start (trace.map number) r) :
    SameHeaderUntilErased trace := by
  rintro before mid after gh h h' rfl hmid
  simp only [List.map_append,List.map_cons] at hrun
  exact Registry.same_number hrun Registry.start_wellNumbered (forget_notMem hmid)

lemma issuedOnce (hrun : Traced Registry.Step .start (trace.map number) r) : IssuedOnce trace := by
  rintro before mid after gh gh' h rfl
  simp only [List.map_append,List.map_cons] at hrun
  obtain ⟨heq,hmid⟩ := Registry.number_once hrun Registry.start_wellNumbered
  refine ⟨heq,?_⟩
  intro e he herases
  exact hmid (List.mem_map.2 ⟨e,he,number_of_erases herases⟩)

lemma objOfHeader (hrun : Traced Registry.Step .start (trace.map number) r) : ObjOfHeader trace := by
  rintro before mid after gh h gh' rfl hmid
  simp only [List.map_append,List.map_cons] at hrun
  exact Registry.name_of_number hrun Registry.start_wellNumbered (forget_notMem hmid)

end Numbers
end HeaderEvent

namespace RocksKV

/-- The two caches are inverse to each other, the two records of a pair are there exactly when it is
cached, and `GetObj` of what `GetHeader` gives is the object. -/
structure Consistent (objs : Set GHObject) (kv : RocksKV) : Prop where
  inverse : ∀ gh h, (gh,h) ∈ kv.objCacheHeader.entries ↔ (h,gh) ∈ kv.reverseObjCacheHeader.entries
  distinct : ∀ gh gh' h h', (gh,h) ∈ kv.objCacheHeader.entries →
    (gh',h') ∈ kv.objCacheHeader.entries → (gh = gh' ↔ h = h')
  objRecord : ∀ gh ∈ objs, kv.db.find (getObjUniqueStrDesc gh) =
    (kv.objCacheHeader.find gh).map Header.toString
  headerRecord : ∀ h, kv.db.find h.toString =
    (kv.reverseObjCacheHeader.find h).map getObjUniqueStrDesc
  getObj : ∀ gh ∈ objs, ∀ h kv', kv.getHeader gh = some (h,kv') →
    ∀ memory, kv'.getObj memory h = some (gh,kv')

/-- Every call has a defined outcome: `GetHeader` while an `int` can count the headers, the erases
where there is an entry. -/
structure Answers (objs : Set GHObject) (made : ℕ) (kv : RocksKV) : Prop where
  getHeader : ∀ gh ∈ objs, (kv.objCacheHeader.find gh).isSome ∨ made+1 < 2^31-1 →
    (kv.getHeader gh).isSome
  getObj : ∀ memory h, (kv.getObj memory h).isSome
  eraseHeader : ∀ gh, (kv.objCacheHeader.find gh).isSome → (kv.eraseHeader gh).isSome
  eraseObj : ∀ h, (kv.reverseObjCacheHeader.find h).isSome → (kv.eraseObj h).isSome

/-- One call within a process, made with the given objects. -/
def OneProcess (objs : Set GHObject) (kv : RocksKV) (e : HeaderEvent) (kv' : RocksKV) : Prop :=
  e.Uses objs ∧ e ≠ .restarted ∧ kv.Does e kv'

namespace Numbers
variable {objs : Set GHObject} {kv : RocksKV} {r : Registry GHObject Header}

lemma find_obj_eq_none_iff (hn : Numbers objs kv r) (hall : AllCached kv r) {h : Header} :
    kv.reverseObjCacheHeader.find h = none ↔ ∀ gh, r.numberOf gh ≠ some h := by
  rw [Option.eq_none_iff_forall_ne_some]
  exact forall_congr' (fun gh => not_congr (hn.caches.find_obj_iff.trans ⟨hn.cached,hall gh h⟩))

lemma find_header_eq (hn : Numbers objs kv r) (hobjs : HeaderObjects objs) (hall : AllCached kv r)
    {gh : GHObject} (hgh : gh ∈ objs) : kv.objCacheHeader.find gh = r.numberOf gh := by
  apply Option.ext
  intro h
  rw [hn.find_header_iff hobjs hgh]
  exact ⟨hn.cached,hall gh h⟩

lemma getHeader_isSome (hn : Numbers objs kv r) {gh : GHObject} {h : Header}
    (hcurrent : kv.Current (.gotHeader gh h))
    (hcount : (kv.objCacheHeader.find gh).isSome ∨ r.made.length+1 < 2^31-1) :
    (kv.getHeader gh).isSome := by
  cases hcache : kv.objCacheHeader.find gh with
  | some _ => simp [RocksKV.getHeader,hcache]
  | none =>
    have hrecord := hcurrent.resolve_left (by simp [hcache])
    have hlt := hcount.resolve_left (by simp [hcache])
    simp only [RocksKV.getHeader,hcache,hrecord,getNewHeader_eq hn.bound hn.count,if_pos hlt]
    rfl

lemma getObj_isSome {memory gh : GHObject} {h : Header}
    (hcurrent : kv.Current (.gotObj h gh)) : (kv.getObj memory h).isSome := by
  cases hfind : kv.reverseObjCacheHeader.find h with
  | some _ => simp [RocksKV.getObj,hfind]
  | none =>
    have hrecord := hcurrent.resolve_left (by simp [hfind])
    simp [RocksKV.getObj,hfind,hrecord]

/-- Within one process no call has to look into the records. -/
lemma current (hn : Numbers objs kv r) (hobjs : HeaderObjects objs) (hall : AllCached kv r)
    {e : HeaderEvent} (huses : e.Uses objs) : kv.Current e := by
  cases e with
  | gotHeader gh h =>
    rw [Current,hn.objRecord gh huses,hn.find_header_eq hobjs hall huses]
    cases r.numberOf gh with
    | none => exact .inr rfl
    | some _ => exact .inl rfl
  | gotObj h gh =>
    cases hfind : kv.reverseObjCacheHeader.find h with
    | none => exact .inr (hn.noRecord h ((hn.find_obj_eq_none_iff hall).1 hfind))
    | some _ => exact .inl (by simp [hfind])
  | _ => trivial

lemma headerRecord_eq (hn : Numbers objs kv r) (hall : AllCached kv r) (h : Header) :
    kv.db.find h.toString = (kv.reverseObjCacheHeader.find h).map getObjUniqueStrDesc := by
  cases hfind : kv.reverseObjCacheHeader.find h with
  | none => exact hn.noRecord h ((hn.find_obj_eq_none_iff hall).1 hfind)
  | some gh => exact hn.headerRecord gh h (hn.cached (hn.caches.find_obj_iff.1 hfind))

theorem consistent (hn : Numbers objs kv r) (hobjs : HeaderObjects objs) (hall : AllCached kv r) :
    Consistent objs kv where
  inverse _ _ := hn.inverse
  distinct gh gh' h h' hm hm' := by
    have hnumber := hn.cached hm
    have hnumber' := hn.cached hm'
    constructor
    · rintro rfl
      exact Option.some.inj (hnumber.symm.trans hnumber')
    · rintro rfl
      exact hn.well.injective hnumber hnumber'
  objRecord gh hgh := by rw [hn.objRecord gh hgh,hn.find_header_eq hobjs hall hgh]
  headerRecord := hn.headerRecord_eq hall
  getObj gh hgh h kv' hget memory := by
    have hcurrent := hn.current hobjs hall (e := .gotHeader gh h) hgh
    obtain ⟨r',hs,hn',hall'⟩ := hn.step (e := .gotHeader gh h) hobjs hgh hcurrent hget
    have hfind := hn'.caches.find_obj_iff.2 (hall' nofun hall gh h hs.numberOf)
    rw [RocksKV.getObj,hfind]

theorem answers (hn : Numbers objs kv r) (hobjs : HeaderObjects objs) (hall : AllCached kv r) :
    Answers objs r.made.length kv where
  getHeader gh hgh h := hn.getHeader_isSome (hn.current hobjs hall (e := .gotHeader gh {}) hgh) h
  getObj memory h := getObj_isSome (hn.current hobjs hall (e := .gotObj h {}) trivial)
  eraseHeader gh h := by
    obtain ⟨head,hfind⟩ := Option.isSome_iff_exists.1 h
    simp [RocksKV.eraseHeader,hfind]
  eraseObj h hsome := by
    obtain ⟨gh,hfind⟩ := Option.isSome_iff_exists.1 hsome
    simp [RocksKV.eraseObj,hfind]

end Numbers

/-- In every state that calls on an empty database can reach, and for every run to it. -/
theorem headers_of_run {objs : Set GHObject} (hobjs : HeaderObjects objs)
    {trace : List HeaderEvent} {kv : RocksKV} (hrun : Traced (OneProcess objs) {} trace kv) :
    Consistent objs kv ∧ Answers objs (HeaderEvent.headersMade trace) kv ∧
      HeaderEvent.SameHeaderUntilErased trace ∧ HeaderEvent.IssuedOnce trace := by
  obtain ⟨r,hnumbers,hn,hall⟩ := hrun.follow (fun kv r => Numbers objs kv r ∧ AllCached kv r)
    HeaderEvent.number (by
      rintro kv e kv' r ⟨huses,hprocess,hdoes⟩ ⟨hn,hall⟩
      obtain ⟨r',hs,hn',hall'⟩ := hn.step hobjs huses (hn.current hobjs hall huses) hdoes
      exact ⟨r',hs,hn',hall' hprocess hall⟩) ⟨Numbers.start objs,nofun⟩
  refine ⟨hn.consistent hobjs hall,?_,HeaderEvent.sameHeaderUntilErased hnumbers,
    HeaderEvent.issuedOnce hnumbers⟩
  have hmade := Registry.length_made hnumbers
  rw [HeaderEvent.headersMade,← hmade]
  exact hn.answers hobjs hall

/-- One object, which is given a header, erased and given another. -/
theorem headers_of_run_reissued : ∃ h h' kv,
    Traced (OneProcess {gh | gh = {}}) {} [.gotHeader {} h,.erasedHeader {},.gotHeader {} h'] kv ∧
      Consistent {gh | gh = {}} kv ∧
      Answers {gh | gh = {}}
        (HeaderEvent.headersMade [.gotHeader {} h,.erasedHeader {},.gotHeader {} h']) kv ∧
      HeaderEvent.SameHeaderUntilErased [.gotHeader {} h,.erasedHeader {},.gotHeader {} h'] ∧
      HeaderEvent.IssuedOnce [.gotHeader {} h,.erasedHeader {},.gotHeader {} h'] := by
  have hobjs : HeaderObjects {gh | gh = {}} := by
    refine ⟨?_,?_,?_⟩
    · rintro a rfl b rfl hne
      exact absurd rfl hne
    · rintro a rfl b rfl hne
      exact absurd rfl hne
    · rintro a rfl h heq
      have hfirst : h.toString[0]? = some 104 := rfl
      rw [← heq] at hfirst
      exact absurd hfirst (by decide)
  have hsome : ((({} : RocksKV).getHeader {}).bind (fun r => (r.2.eraseHeader {}).bind
      (fun kv => kv.getHeader {}))).isSome := by decide +kernel
  obtain ⟨⟨h',kv'⟩,hcalls⟩ := Option.isSome_iff_exists.1 hsome
  obtain ⟨⟨h,kv₁⟩,hfirst,hcalls⟩ := Option.bind_eq_some_iff.1 hcalls
  obtain ⟨kv₂,herase,hlast⟩ := Option.bind_eq_some_iff.1 hcalls
  have hrun₁ : Traced (OneProcess {gh | gh = {}}) {} [.gotHeader {} h] kv₁ :=
    .step .start ⟨rfl,nofun,hfirst⟩
  have hrun₂ : Traced (OneProcess {gh | gh = {}}) {} [.gotHeader {} h,.erasedHeader {}] kv₂ :=
    .step hrun₁ ⟨rfl,nofun,herase⟩
  have hrun : Traced (OneProcess {gh | gh = {}}) {}
      [.gotHeader {} h,.erasedHeader {},.gotHeader {} h'] kv' := .step hrun₂ ⟨rfl,nofun,hlast⟩
  exact ⟨h,h',kv',hrun,headers_of_run hobjs hrun⟩

end RocksKV
end GDFileStore
