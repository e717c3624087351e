import GDFileStore.Headers.OneProcess

/-! Headers across restarts. The records are text, but the calls that look into them decode binary
members, so a number survives as long as no call has to look into a record. -/
namespace GDFileStore
open Sequences Program

namespace RocksKV

/-- One call, made with the given objects, or a restart. -/
def AcrossRestarts (objs : Set GHObject) (kv : RocksKV) (e : HeaderEvent) (kv' : RocksKV) : Prop :=
  e.Uses objs ∧ kv.Does e kv'

/-- The same, where the call need not look into a record. -/
def CurrentOnly (objs : Set GHObject) (kv : RocksKV) (e : HeaderEvent) (kv' : RocksKV) : Prop :=
  AcrossRestarts objs kv e kv' ∧ kv.Current e

/-- In a run whose calls find their answers in the caches, or find no record, `GetHeader` keeps to
the header it gave first, `GetObj` gives its object back, and both go on doing so. -/
theorem headers_across_restarts {objs : Set GHObject} (hobjs : HeaderObjects objs)
    {trace : List HeaderEvent} {kv : RocksKV} (hrun : Traced (CurrentOnly objs) {} trace kv) :
    HeaderEvent.SameHeaderUntilErased trace ∧ HeaderEvent.ObjOfHeader trace ∧
      (∀ gh h, kv.Current (.gotHeader gh h) → (kv.objCacheHeader.find gh).isSome ∨
        HeaderEvent.headersMade trace+1 < 2^31-1 → (kv.getHeader gh).isSome) ∧
      ∀ h gh memory, kv.Current (.gotObj h gh) → (kv.getObj memory h).isSome := by
  obtain ⟨r,hnumbers,hn⟩ := hrun.follow (Numbers objs) HeaderEvent.number (by
    rintro kv e kv' r ⟨⟨huses,hdoes⟩,hcurrent⟩ hn
    obtain ⟨r',hs,hn',-⟩ := hn.step hobjs huses hcurrent hdoes
    exact ⟨r',hs,hn'⟩) (Numbers.start objs)
  refine ⟨HeaderEvent.sameHeaderUntilErased hnumbers,HeaderEvent.objOfHeader hnumbers,?_,?_⟩
  · intro gh h hcurrent hcount
    rw [HeaderEvent.headersMade,← Registry.length_made hnumbers] at hcount
    exact hn.getHeader_isSome hcurrent hcount
  · exact fun h gh memory hcurrent => Numbers.getObj_isSome hcurrent

/-- An object that is new after the restart. -/
theorem headers_across_restarts_new : ∃ h h' gh kv, Traced
    (CurrentOnly {gh | gh = {} ∨ gh = generation 1}) {}
      [.gotHeader {} h,.restarted,.gotHeader (generation 1) h',.gotObj h' gh] kv ∧ gh = generation 1 := by
  have hfirstByte : ∀ gh ∈ {gh : GHObject | gh = {} ∨ gh = generation 1}, ∀ h : Header,
      getObjUniqueStrDesc gh ≠ h.toString := by
    intro gh hgh h heq
    have hfirst : h.toString[0]? = some 104 := rfl
    rw [← heq] at hfirst
    rcases hgh with rfl | rfl <;> exact absurd hfirst (by decide +kernel)
  have hobjs : HeaderObjects {gh | gh = {} ∨ gh = generation 1} := by
    refine ⟨?_,?_,hfirstByte⟩
    · rintro a (rfl | rfl) b (rfl | rfl) hne
      · exact absurd rfl hne
      · exact .inr (by decide)
      · exact .inr (by decide)
      · exact absurd rfl hne
    · rintro a (rfl | rfl) b (rfl | rfl) hne
      · exact absurd rfl hne
      · decide +kernel
      · decide +kernel
      · exact absurd rfl hne
  have hcalls : ((({} : RocksKV).getHeader {}).bind (fun r =>
      (r.2.restart.getHeader (generation 1)).bind (fun r' => (r'.2.getObj {} r'.1).map (fun r'' =>
        (r.2.restart.db.find (getObjUniqueStrDesc (generation 1)),
          (r'.2.reverseObjCacheHeader.find r'.1).isSome))))) = some (none,true) := by decide +kernel
  obtain ⟨⟨h,kv₁⟩,hfirst,hcalls⟩ := Option.bind_eq_some_iff.1 hcalls
  obtain ⟨⟨h',kv₂⟩,hsecond,hcalls⟩ := Option.bind_eq_some_iff.1 hcalls
  obtain ⟨⟨gh,kv₃⟩,hlast,heq⟩ := Option.map_eq_some_iff.1 hcalls
  obtain ⟨hrecord,hcached⟩ := Prod.mk.inj heq
  have hrun₁ : Traced (CurrentOnly {gh | gh = {} ∨ gh = generation 1}) {} [.gotHeader {} h] kv₁ :=
    .step .start ⟨⟨.inl rfl,hfirst⟩,.inr rfl⟩
  have hrun₂ : Traced (CurrentOnly {gh | gh = {} ∨ gh = generation 1}) {}
      [.gotHeader {} h,.restarted] kv₁.restart := .step hrun₁ ⟨⟨trivial,rfl⟩,trivial⟩
  have hrun₃ : Traced (CurrentOnly {gh | gh = {} ∨ gh = generation 1}) {}
      [.gotHeader {} h,.restarted,.gotHeader (generation 1) h'] kv₂ :=
    .step hrun₂ ⟨⟨.inr rfl,hsecond⟩,.inr hrecord⟩
  have hrun : Traced (CurrentOnly {gh | gh = {} ∨ gh = generation 1}) {}
      [.gotHeader {} h,.restarted,.gotHeader (generation 1) h',.gotObj h' gh] kv₃ :=
    .step hrun₃ ⟨⟨trivial,{},hlast⟩,.inl hcached⟩
  obtain ⟨-,hobj,-⟩ := headers_across_restarts hobjs hrun
  exact ⟨h,h',gh,kv₃,hrun,hobj [.gotHeader {} h,.restarted] [] [] (generation 1) h' gh rfl
    (by simp)⟩

/-- After a restart the record "h_1" is read as the number that its first bytes make. -/
theorem header_changed_by_restart :
    ¬ ∀ objs : Set GHObject,
      (∀ a ∈ objs, ∀ b ∈ objs, a ≠ b →
        a.hobj.oid.name ≠ b.hobj.oid.name ∨ a.generation ≠ b.generation) →
      (∀ a ∈ objs, ∀ b ∈ objs, a ≠ b → getObjUniqueStrDesc a ≠ getObjUniqueStrDesc b) →
      ∀ trace kv, Traced (AcrossRestarts objs) {} trace kv →
        HeaderEvent.SameHeaderUntilErased trace ∧ HeaderEvent.ObjOfHeader trace := by
  intro hclaim
  have hone : ∀ a ∈ {gh : GHObject | gh = {}}, ∀ b ∈ {gh : GHObject | gh = {}}, a = b := by
    rintro a rfl b rfl
    rfl
  have hcalls : (({} : RocksKV).getHeader {}).bind (fun r => (r.2.restart.getHeader {}).map
      (fun r' => (r.1,r'.1))) = some (⟨1⟩,⟨3235688⟩) := by decide +kernel
  obtain ⟨⟨h,kv⟩,hfirst,hcalls⟩ := Option.bind_eq_some_iff.1 hcalls
  obtain ⟨⟨h',kv'⟩,hsecond,heq⟩ := Option.map_eq_some_iff.1 hcalls
  obtain ⟨rfl,rfl⟩ := Prod.mk.inj heq
  have hrun₁ : Traced (AcrossRestarts {gh | gh = {}}) {} [.gotHeader {} ⟨1⟩] kv :=
    .step .start ⟨rfl,hfirst⟩
  have hrun₂ : Traced (AcrossRestarts {gh | gh = {}}) {} [.gotHeader {} ⟨1⟩,.restarted]
      kv.restart := .step hrun₁ ⟨trivial,rfl⟩
  have hrun : Traced (AcrossRestarts {gh | gh = {}}) {}
      [.gotHeader {} ⟨1⟩,.restarted,.gotHeader {} ⟨3235688⟩] kv' := .step hrun₂ ⟨rfl,hsecond⟩
  obtain ⟨hsame,-⟩ := hclaim {gh | gh = {}} (fun a ha b hb hne => absurd (hone a ha b hb) hne)
    (fun a ha b hb hne => absurd (hone a ha b hb) hne) _ _ hrun
  have heq := hsame [] [.restarted] [] {} ⟨1⟩ ⟨3235688⟩ rfl (by
    intro e he
    obtain rfl := List.mem_singleton.1 he
    exact id)
  exact absurd heq (by decide)

end RocksKV
end GDFileStore
