import GDFileStore.Combine.Edits
import GDFileStore.Sequences.Split

/-! What one turn of the combiner can do to the slice list, said once: an insert opens the
list at its position, a delete joins two parts or runs off the end of the list. -/
namespace GDFileStore
open Int32Range Sequences

namespace Slice

/-- The first `r` bytes of a slice and what follows them. -/
def front (s : Slice) (r : Int32) : Slice := { s with stop := s.start+r }
def back (s : Slice) (r : Int32) : Slice := { s with start := s.start+r }

lemma getSize_toInt {s : Slice} (h : s.Sized) : s.getSize.toInt = s.extent := by
  obtain ⟨h0,h1⟩ := h
  exact toInt_sub_of_fits ⟨by unfold extent at *; omega,by unfold extent at *; omega⟩

lemma start_add_toInt {s : Slice} {r : Int32} (h0 : 0 ≤ r.toInt) (h1 : r.toInt ≤ s.extent) :
    (s.start+r).toInt = s.start.toInt+r.toInt := by
  have hs := fits_toInt s.start
  have ht := fits_toInt s.stop
  unfold Fits at hs ht
  unfold extent at h1
  exact toInt_add_of_fits ⟨by omega,by omega⟩

lemma front_extent {s : Slice} {r : Int32} (h0 : 0 ≤ r.toInt) (h1 : r.toInt ≤ s.extent) :
    (s.front r).extent = r.toInt := by
  simp only [extent,front,start_add_toInt h0 h1]
  ring

lemma back_extent {s : Slice} {r : Int32} (h0 : 0 ≤ r.toInt) (h1 : r.toInt ≤ s.extent) :
    (s.back r).extent = s.extent-r.toInt := by
  simp only [extent,back,start_add_toInt h0 h1]
  ring

lemma front_sized {s : Slice} {r : Int32} (hs : s.Sized) (h0 : 0 ≤ r.toInt)
    (h1 : r.toInt ≤ s.extent) : (s.front r).Sized := by
  have hh := hs.2
  rw [Sized,front_extent h0 h1]
  omega

lemma back_sized {s : Slice} {r : Int32} (hs : s.Sized) (h0 : 0 ≤ r.toInt)
    (h1 : r.toInt ≤ s.extent) : (s.back r).Sized := by
  have hh := hs.2
  rw [Sized,back_extent h0 h1]
  omega

lemma subSlice_front {s : Slice} {r : Int32} (hs : s.Sized) (h : r.toInt < s.extent) :
    s.subSlice 0 r = s.front r := by
  have hlt : 0+r < s.getSize := by
    rw [Int32.zero_add,Int32.lt_iff_toInt_lt,getSize_toInt hs]
    exact h
  simp only [subSlice,hlt,if_true,front,Int32.add_zero]

/-- A size that reaches exactly to the end of the slice keeps the slice's end. -/
lemma subSlice_back {s : Slice} {r size : Int32} (h : r+size = s.getSize) :
    s.subSlice r size = s.back r := by
  simp only [subSlice,h,Int32.lt_irrefl,if_false,back]

end Slice

namespace Operation

/-- The length of the object that a slice list stands for. -/
def extents (list : List Slice) : ℤ := (list.map Slice.extent).sum

@[simp] lemma extents_nil : extents [] = 0 := rfl
@[simp] lemma extents_cons (s : Slice) (list : List Slice) :
    extents (s::list) = s.extent+extents list := by simp [extents]
@[simp] lemma extents_append (xs ys : List Slice) :
    extents (xs ++ ys) = extents xs+extents ys := by simp [extents]

/-- Every slice of the list is sized. -/
def AllSized (list : List Slice) : Prop := ∀ s ∈ list, s.Sized

lemma allSized_cons {s : Slice} {list : List Slice} :
    AllSized (s::list) ↔ s.Sized ∧ AllSized list := by simp [AllSized]
lemma allSized_append {xs ys : List Slice} :
    AllSized (xs ++ ys) ↔ AllSized xs ∧ AllSized ys := by
  simp only [AllSized,List.mem_append,or_imp,forall_and]

lemma extents_nonneg {list : List Slice} (h : AllSized list) : 0 ≤ extents list := by
  induction list with
  | nil => simp
  | cons s rest ih =>
    rw [allSized_cons] at h
    have hs := h.1.1
    have hr := ih h.2
    rw [extents_cons]
    omega

/-- Where a search ends: the slices walked over, and the rest of the list, whose first slice
contains the remaining offset unless the rest is empty. -/
structure Found (list : List Slice) (pos : ℤ) (r : ℕ × Int32) (pre post : List Slice) : Prop where
  split : list = pre ++ post
  index : r.1 = pre.length
  offset : pos = extents pre+r.2.toInt
  nonneg : 0 ≤ r.2.toInt
  inside : ∀ s ∈ post.head?, r.2.toInt < s.extent

/-- The search loop finds the slice that contains the offset, past any empty slices. -/
theorem seek_found {list : List Slice} (hlist : AllSized list) {pos : Int32}
    (hpos : 0 ≤ pos.toInt) : ∃ pre post, Found list pos.toInt (seek pos list) pre post := by
  induction list generalizing pos with
  | nil => exact ⟨[],[],rfl,rfl,by simp [seek],hpos,by simp⟩
  | cons s rest ih =>
    rw [allSized_cons] at hlist
    obtain ⟨hs,hrest⟩ := hlist
    have hsize := Slice.getSize_toInt hs
    by_cases hge : pos ≥ s.getSize
    · have hle : s.extent ≤ pos.toInt := by
        rw [← hsize]
        exact Int32.le_iff_toInt_le.mp hge
      have hsub : (pos-s.getSize).toInt = pos.toInt-s.extent := by
        rw [toInt_sub_of_fits,hsize]
        have hf := fits_toInt pos
        have h0 := hs.1
        unfold Fits at *
        omega
      have hnonneg : 0 ≤ (pos-s.getSize).toInt := by omega
      obtain ⟨pre,post,hf⟩ := ih hrest hnonneg
      refine ⟨s::pre,post,?_⟩
      simp only [seek,hge,if_true]
      exact ⟨by rw [hf.split]; rfl,by simp [hf.index],by
        have ho := hf.offset
        rw [hsub] at ho
        simp only [extents_cons]
        omega,hf.nonneg,hf.inside⟩
    · refine ⟨[],s::rest,?_⟩
      simp only [seek,hge,if_false]
      have hlt : pos.toInt < s.extent := by
        rw [← hsize,← Int32.lt_iff_toInt_lt]
        exact Int32.not_le.mp hge
      exact ⟨rfl,rfl,by simp,hpos,by simpa using hlt⟩

/-- An insert at `p` either goes between two slices or splits the slice around `p`. -/
inductive InsertShape (data : Slice) (p : ℤ) : List Slice → List Slice → Prop
  | between {pre post} (at_edge : extents pre = p) :
      InsertShape data p (pre ++ post) (pre ++ data::post)
  | inside {pre s post} {r : Int32} (at_offset : extents pre+r.toInt = p) (pos : 0 < r.toInt)
      (lt : r.toInt < s.extent) :
      InsertShape data p (pre ++ s::post) (pre ++ s.front r::data::s.back r::post)

/-- A delete of `[a, b)` stays in one slice or ends in a later one. -/
inductive DeleteShape (a b : ℤ) : List Slice → List Slice → Prop
  | within {pre s post} {r q : Int32} (begins : extents pre+r.toInt = a) (ends : extents pre+q.toInt = b)
      (nonneg : 0 ≤ r.toInt) (lt : r.toInt < s.extent) (ordered : r.toInt ≤ q.toInt)
      (le : q.toInt ≤ s.extent) :
      DeleteShape a b (pre ++ s::post) (pre ++ s.front r::s.back q::post)
  | across {pre s mid t post} {r e : Int32} (begins : extents pre+r.toInt = a)
      (ends : extents pre+s.extent+extents mid+e.toInt = b) (nonneg : 0 ≤ r.toInt)
      (lt : r.toInt < s.extent) (later : a < b) (nonneg' : 0 ≤ e.toInt) (lt' : e.toInt < t.extent) :
      DeleteShape a b (pre ++ s::mid ++ t::post) (pre ++ s.front r::t.back e::post)

/-- The two ways for a delete of `[a, b)` to run off the list: it begins at the end of the
object, or it reaches that end from an earlier slice than the last one. -/
inductive Overrun (a b : ℤ) : List Slice → Prop
  | begins {list} (begins : extents list = a) : Overrun a b list
  | ends {pre s post} {r : Int32} (begins : extents pre+r.toInt = a)
      (ends : extents (pre ++ s::post) = b) (nonneg : 0 ≤ r.toInt) (lt : r.toInt < s.extent)
      (past : extents pre+s.extent < b) : Overrun a b (pre ++ s::post)

theorem combineInsert_shape {list : List Slice} {total filePos : Int32} (data : Slice)
    (hlist : AllSized list) (htotal : total.toInt = extents list) (h0 : 0 ≤ filePos.toInt)
    (h1 : filePos.toInt ≤ total.toInt) :
    ∃ out, combineInsert list total filePos data = some out ∧
      InsertShape data filePos.toInt list out := by
  by_cases hend : filePos = total
  · refine ⟨list ++ [data],by simp [combineInsert,hend],?_⟩
    have h : InsertShape data filePos.toInt (list ++ []) (list ++ [data]) :=
      .between (by rw [hend,htotal])
    simpa using h
  · obtain ⟨pre,post,hf⟩ := seek_found hlist h0
    have hlt : filePos.toInt < extents list := by
      have hne : filePos.toInt ≠ total.toInt := fun h => hend (Int32.toInt_inj.mp h)
      omega
    obtain ⟨s,rest,rfl⟩ : ∃ s rest, post = s::rest := by
      cases post with
      | nil =>
        have hs := hf.split
        have ho := hf.offset
        have hn := hf.nonneg
        rw [hs,List.append_nil] at hlt
        omega
      | cons s rest => exact ⟨s,rest,rfl⟩
    have hinside : (seek filePos list).2.toInt < s.extent := hf.inside s rfl
    have hoffset := hf.offset
    have hs : s.Sized := hlist s (by simp [hf.split])
    simp only [combineInsert,hend,if_false]
    obtain ⟨hsplit,hindex,-,hnonneg,-⟩ := hf
    generalize seek filePos list = found at *
    obtain ⟨i,r⟩ := found
    subst hsplit hindex
    by_cases hz : r = 0
    · refine ⟨pre ++ data::s::rest,?_,.between ?_⟩
      · simp only [hz,if_true,insertIdx_at_split]
      · simpa [hz] using hoffset.symm
    · refine ⟨pre ++ s.front r::data::s.back r::rest,?_,.inside hoffset.symm ?_ hinside⟩
      · have hback : s.subSlice r (s.getSize-r) = s.back r := Slice.subSlice_back (by grind)
        simp only [hz,if_false,getElem?_at_split,Option.bind_eq_bind,Option.bind_some,
          Slice.subSlice_front hs hinside,hback,set_at_split,take_past_split,drop_past_split]
        simp
      · have hne : r.toInt ≠ 0 := fun h => hz (Int32.toInt_inj.mp h)
        simp only at hnonneg
        omega

/-- A search for an offset past the first slice walks over that slice. -/
lemma seek_past_head {s : Slice} {rest : List Slice} (hlist : AllSized (s::rest)) {pos : Int32}
    (hpos : s.extent ≤ pos.toInt) :
    ∃ mid post, Found (s::rest) pos.toInt (seek pos (s::rest)) (s::mid) post := by
  have hs := (allSized_cons.mp hlist).1.1
  have hnonneg : 0 ≤ pos.toInt := by omega
  obtain ⟨pre,post,hf⟩ := seek_found hlist hnonneg
  cases pre with
  | nil =>
    have hin := hf.inside s (by rw [← List.nil_append post,← hf.split]; rfl)
    have ho := hf.offset
    simp only [extents_nil] at ho
    omega
  | cons s' mid =>
    obtain ⟨rfl,-⟩ := List.cons.inj hf.split
    exact ⟨mid,post,hf⟩

/-- A delete of `[a, b)` inside the object has a shape, or runs off the list for one of the
two reasons. -/
theorem combineDelete_cases {list : List Slice} {filePos : Int32} {data : Slice} {a b : ℤ}
    (hlist : AllSized list) (hbegin : (filePos+data.start).toInt = a)
    (hspan : data.getSize.toInt = b-a) (h0 : 0 ≤ a) (hab : a ≤ b) (hb : b ≤ extents list)
    (hfits : extents list < 2^31) :
    (∃ out, combineDelete list filePos data = some out ∧ DeleteShape a b list out) ∨
      (combineDelete list filePos data = none ∧ Overrun a b list) := by
  have hstart : 0 ≤ (filePos+data.start).toInt := by omega
  obtain ⟨pre,post,hsplit,hindex,hoffset,hnonneg,hinside⟩ := seek_found hlist hstart
  rw [hbegin] at hoffset
  unfold combineDelete
  generalize seek (filePos+data.start) list = found at *
  obtain ⟨i,r⟩ := found
  subst hsplit hindex
  simp only at hoffset hnonneg hinside
  cases post with
  | nil =>
    right
    simp only [List.append_nil] at *
    exact ⟨by simp,.begins (by omega)⟩
  | cons s rest =>
    have hr : r.toInt < s.extent := hinside s rfl
    obtain ⟨hpre,hpost⟩ := allSized_append.mp hlist
    have hs : s.Sized := (allSized_cons.mp hpost).1
    have hrest := extents_nonneg (allSized_cons.mp hpost).2
    have hfront := extents_nonneg hpre
    have hq : (r+data.getSize).toInt = r.toInt+(b-a) := by
      rw [toInt_add_of_fits,hspan]
      unfold Fits
      simp only [extents_append,extents_cons] at hb hfits
      omega
    simp only [getElem?_at_split,Option.bind_eq_bind,Option.bind_some,
      Slice.subSlice_front hs hr,set_at_split]
    by_cases hle : r+data.getSize ≤ s.getSize
    · left
      refine ⟨pre ++ s.front r::s.back (r+data.getSize)::rest,?_,
        .within hoffset.symm (by omega) hnonneg hr (by omega) ?_⟩
      · simp only [hle,if_true,insertIdx_past_split]
        rw [Slice.subSlice_back (by grind)]
      · rw [← Slice.getSize_toInt hs]
        exact Int32.le_iff_toInt_le.mp hle
    · simp only [hle,if_false,List.drop_left]
      have hpast : s.extent < (r+data.getSize).toInt := by
        rw [← Slice.getSize_toInt hs,← Int32.lt_iff_toInt_lt]
        exact Int32.not_le.mp hle
      obtain ⟨mid,post',hsplit',hindex',hoffset',hnonneg',hinside'⟩ := seek_past_head hpost hpast.le
      generalize seek (r+data.getSize) (s::rest) = found' at *
      obtain ⟨d,e⟩ := found'
      rw [List.cons_append] at hsplit'
      obtain ⟨-,rfl⟩ := List.cons.inj hsplit'
      simp only [extents_cons,List.length_cons] at hindex' hoffset' hnonneg' hinside'
      subst hindex'
      -- j counts the slices before it, the shortened one included
      have hj : pre.length+(mid.length+1) = (pre ++ s.front r::mid).length := by simp
      rw [hj]
      cases post' with
      | nil =>
        right
        refine ⟨by simp,?_⟩
        exact .ends hoffset.symm (by simp only [extents_append,extents_cons,extents_nil] at *; omega)
          hnonneg hr (by omega)
      | cons t post' =>
        left
        have ht : e.toInt < t.extent := hinside' t rfl
        have hcons : pre ++ s.front r::(mid ++ t::post') =
            (pre ++ s.front r::mid) ++ t::post' := by simp
        refine ⟨pre ++ s.front r::t.back e::post',?_,?_⟩
        · rw [hcons,getElem?_at_split]
          simp only [Option.bind_some]
          rw [Slice.subSlice_back (by grind),set_at_split,List.drop_left]
          rw [List.append_assoc,List.cons_append,take_past_split]
          simp
        · have h : DeleteShape a b (pre ++ s::mid ++ t::post') (pre ++ s.front r::t.back e::post') :=
            .across hoffset.symm (by omega) hnonneg hr (by omega) hnonneg' ht
          simpa using h

end Operation
end GDFileStore
