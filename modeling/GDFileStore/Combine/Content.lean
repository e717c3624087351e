import GDFileStore.Combine.Shapes

/-! The combined slices spell the edited object: a refinement of the plain byte edits by the
slice list, one operation at a time. -/
namespace GDFileStore
open Int32Range

namespace Slice

lemma WellFormed.extent_nonneg {s : Slice} (h : s.WellFormed) : 0 ≤ s.extent := by
  obtain ⟨_,-,-,hle,-⟩ := h
  unfold extent
  omega

lemma WellFormed.sized {s : Slice} (h : s.WellFormed) : s.Sized := by
  refine ⟨h.extent_nonneg,?_⟩
  obtain ⟨_,-,h0,-,-⟩ := h
  have ht := s.stop.toInt_lt
  unfold extent
  omega

lemma WellFormed.content_length {s : Slice} (h : s.WellFormed) :
    (s.content.length : ℤ) = s.extent := by
  obtain ⟨b,hb,h0,hle,hsize⟩ := h
  simp only [content,hb,extent,List.length_drop,List.length_take]
  omega

lemma WellFormed.front {s : Slice} {r : Int32} (h : s.WellFormed) (h0 : 0 ≤ r.toInt)
    (h1 : r.toInt ≤ s.extent) : (s.front r).WellFormed := by
  have hr := start_add_toInt h0 h1
  obtain ⟨b,hb,hs,hle,hsize⟩ := h
  unfold extent at h1
  refine ⟨b,hb,hs,?_,?_⟩ <;> simp only [Slice.front,hr] <;> omega

lemma WellFormed.back {s : Slice} {r : Int32} (h : s.WellFormed) (h0 : 0 ≤ r.toInt)
    (h1 : r.toInt ≤ s.extent) : (s.back r).WellFormed := by
  have hr := start_add_toInt h0 h1
  obtain ⟨b,hb,hs,hle,hsize⟩ := h
  unfold extent at h1
  refine ⟨b,hb,?_,?_,hsize⟩ <;> simp only [Slice.back,hr] <;> omega

lemma content_front {s : Slice} {r : Int32} (h : s.WellFormed) (h0 : 0 ≤ r.toInt)
    (h1 : r.toInt ≤ s.extent) : (s.front r).content = s.content.take r.toInt.toNat := by
  have hr := start_add_toInt h0 h1
  obtain ⟨b,hb,hs,hle,hsize⟩ := h
  unfold extent at h1
  simp only [content,Slice.front,hb,hr]
  rw [List.take_drop,List.take_take]
  congr 2
  omega

lemma content_back {s : Slice} {r : Int32} (h : s.WellFormed) (h0 : 0 ≤ r.toInt)
    (h1 : r.toInt ≤ s.extent) : (s.back r).content = s.content.drop r.toInt.toNat := by
  have hr := start_add_toInt h0 h1
  obtain ⟨b,hb,hs,-,-⟩ := h
  simp only [content,Slice.back,hb,hr,List.drop_drop]
  congr 1
  omega

end Slice

namespace Operation

/-- The bytes of a slice list, and the well-formedness of all its slices. -/
def contents (list : List Slice) : Bytes := list.flatMap Slice.content
def AllWellFormed (list : List Slice) : Prop := ∀ s ∈ list, s.WellFormed

lemma allWellFormed_cons {s : Slice} {list : List Slice} :
    AllWellFormed (s::list) ↔ s.WellFormed ∧ AllWellFormed list := by simp [AllWellFormed]
lemma allWellFormed_append {xs ys : List Slice} :
    AllWellFormed (xs ++ ys) ↔ AllWellFormed xs ∧ AllWellFormed ys := by
  simp only [AllWellFormed,List.mem_append,or_imp,forall_and]

lemma AllWellFormed.sized {list : List Slice} (h : AllWellFormed list) : AllSized list :=
  fun s hs => (h s hs).sized

@[simp] lemma contents_nil : contents [] = [] := rfl
@[simp] lemma contents_cons (s : Slice) (list : List Slice) :
    contents (s::list) = s.content ++ contents list := by simp [contents]
@[simp] lemma contents_append (xs ys : List Slice) :
    contents (xs ++ ys) = contents xs ++ contents ys := by simp [contents]

lemma contents_length {list : List Slice} (h : AllWellFormed list) :
    ((contents list).length : ℤ) = extents list := by
  induction list with
  | nil => simp
  | cons s rest ih =>
    rw [allWellFormed_cons] at h
    rw [contents_cons,List.length_append,Nat.cast_add,h.1.content_length,ih h.2,extents_cons]

/-- Cutting the bytes of a list at an offset inside one of its slices. -/
lemma take_contents {pre : List Slice} (hpre : AllWellFormed pre) (rest : Bytes) {p r : ℤ}
    (hr : 0 ≤ r) (hp : extents pre+r = p) :
    (contents pre ++ rest).take p.toNat = contents pre ++ rest.take r.toNat := by
  have hl := contents_length hpre
  rw [List.take_append]
  congr 1
  · exact List.take_of_length_le (by omega)
  · congr 1; omega

lemma drop_contents {pre : List Slice} (hpre : AllWellFormed pre) (rest : Bytes) {p r : ℤ}
    (hr : 0 ≤ r) (hp : extents pre+r = p) :
    (contents pre ++ rest).drop p.toNat = rest.drop r.toNat := by
  have hl := contents_length hpre
  rw [List.drop_append,List.drop_eq_nil_of_le (by omega),List.nil_append]
  congr 1
  omega

lemma content_take_drop {s : Slice} (h : s.WellFormed) {r : ℤ} (hr : r ≤ s.extent) (rest : Bytes) :
    (s.content ++ rest).take r.toNat = s.content.take r.toNat ∧
      (s.content ++ rest).drop r.toNat = s.content.drop r.toNat ++ rest := by
  have hl := h.content_length
  exact ⟨List.take_append_of_le_length (by omega),List.drop_append_of_le_length (by omega)⟩

/-- Opening the list at `p` inserts the bytes there. -/
theorem InsertShape.contents_eq {data : Slice} {p : ℤ} {list out : List Slice}
    (h : InsertShape data p list out) (hlist : AllWellFormed list) (hdata : data.WellFormed) :
    AllWellFormed out ∧
      contents out = (contents list).take p.toNat ++ data.content ++ (contents list).drop p.toNat := by
  cases h with
  | @between pre post at_edge =>
    obtain ⟨hpre,hpost⟩ := allWellFormed_append.mp hlist
    refine ⟨allWellFormed_append.mpr ⟨hpre,allWellFormed_cons.mpr ⟨hdata,hpost⟩⟩,?_⟩
    rw [contents_append pre post,take_contents hpre _ le_rfl (by simpa using at_edge),
      drop_contents hpre _ le_rfl (by simpa using at_edge)]
    simp
  | @inside pre s post r at_offset pos lt =>
    obtain ⟨hpre,hrest⟩ := allWellFormed_append.mp hlist
    obtain ⟨hs,hpost⟩ := allWellFormed_cons.mp hrest
    obtain ⟨htake,hdrop⟩ := content_take_drop hs lt.le (contents post)
    constructor
    · simp only [allWellFormed_append,allWellFormed_cons]
      exact ⟨hpre,hs.front pos.le lt.le,hdata,hs.back pos.le lt.le,hpost⟩
    · simp only [contents_append,contents_cons]
      rw [take_contents hpre _ pos.le at_offset,drop_contents hpre _ pos.le at_offset,htake,hdrop,
        Slice.content_front hs pos.le lt.le,Slice.content_back hs pos.le lt.le]
      simp only [List.append_assoc]

/-- Joining the list around `[a, b)` deletes the bytes between. -/
theorem DeleteShape.contents_eq {a b : ℤ} {list out : List Slice} (h : DeleteShape a b list out)
    (hlist : AllWellFormed list) :
    AllWellFormed out ∧
      contents out = (contents list).take a.toNat ++ (contents list).drop b.toNat := by
  cases h with
  | @within pre s post r q begins ends nonneg lt ordered le =>
    obtain ⟨hpre,hrest⟩ := allWellFormed_append.mp hlist
    obtain ⟨hs,hpost⟩ := allWellFormed_cons.mp hrest
    have hq := nonneg.trans ordered
    have htake := (content_take_drop hs lt.le (contents post)).1
    have hdrop := (content_take_drop hs le (contents post)).2
    constructor
    · simp only [allWellFormed_append,allWellFormed_cons]
      exact ⟨hpre,hs.front nonneg lt.le,hs.back hq le,hpost⟩
    · simp only [contents_append,contents_cons]
      rw [take_contents hpre _ nonneg begins,drop_contents hpre _ hq ends,htake,hdrop,
        Slice.content_front hs nonneg lt.le,Slice.content_back hs hq le]
      simp only [List.append_assoc]
  | @across pre s mid t post r e begins ends nonneg lt later nonneg' lt' =>
    obtain ⟨hleft,hrest⟩ := allWellFormed_append.mp hlist
    obtain ⟨hpre,hsm⟩ := allWellFormed_append.mp hleft
    obtain ⟨hs,hmid⟩ := allWellFormed_cons.mp hsm
    obtain ⟨ht,hpost⟩ := allWellFormed_cons.mp hrest
    have htake := (content_take_drop hs lt.le (contents mid ++ contents (t::post))).1
    have hdrop := (content_take_drop ht lt'.le (contents post)).2
    constructor
    · simp only [allWellFormed_append,allWellFormed_cons]
      exact ⟨hpre,hs.front nonneg lt.le,ht.back nonneg' lt'.le,hpost⟩
    · have hends : extents (pre ++ s::mid)+e.toInt = b := by
        rw [extents_append,extents_cons]
        omega
      rw [contents_append (pre ++ s::mid),drop_contents hleft _ nonneg' hends,contents_append pre (s::mid),
        List.append_assoc,take_contents hpre _ nonneg begins,contents_cons s,List.append_assoc s.content,
        htake,contents_cons t,hdrop]
      simp only [contents_append,contents_cons,Slice.content_front hs nonneg lt.le,
        Slice.content_back ht nonneg' lt'.le,List.append_assoc]

/-- The slice list and its length stand for the object's bytes. -/
structure Represents (acc : List Slice × Int32) (content : Bytes) : Prop where
  wellFormed : AllWellFormed acc.1
  contents : contents acc.1 = content
  total : acc.2.toInt = content.length

lemma Represents.total_extents {acc : List Slice × Int32} {content : Bytes}
    (h : Represents acc content) : acc.2.toInt = extents acc.1 := by
  rw [h.total,← h.contents,contents_length h.wellFormed]

/-- `GetFilePos` computes the position whenever that position lies in the object. -/
lemma getFilePos_toInt {op : Operation} {total : Int32} (h0 : 0 ≤ op.position total.toInt)
    (h1 : op.position total.toInt ≤ total.toInt) :
    (op.getFilePos total).toInt = op.position total.toInt := by
  have ht := fits_toInt total
  unfold Fits at ht
  cases hanchor : op.filePos.fileAnchor with
  | begin => simp only [getFilePos,position,hanchor]
  | finish =>
    simp only [getFilePos,position,hanchor] at h0 h1 ⊢
    exact toInt_add_of_fits ⟨by omega,by omega⟩

/-- The left end of a delete is computed exactly, even where the file position has wrapped. -/
lemma getFilePos_add_toInt {op : Operation} {total : Int32} (h0 : 0 ≤ op.deleteBegin total.toInt)
    (h1 : op.deleteBegin total.toInt ≤ total.toInt) :
    (op.getFilePos total+op.data.start).toInt = op.deleteBegin total.toInt := by
  have ht := fits_toInt total
  unfold Fits at ht
  cases hanchor : op.filePos.fileAnchor with
  | begin =>
    simp only [getFilePos,deleteBegin,position,hanchor] at h0 h1 ⊢
    exact toInt_add_of_fits ⟨by omega,by omega⟩
  | finish =>
    simp only [getFilePos,deleteBegin,position,hanchor] at h0 h1 ⊢
    exact toInt_add_add_of_fits ⟨by omega,by omega⟩

lemma deleteEnd_sub_begin (op : Operation) (n : ℤ) :
    op.deleteEnd n-op.deleteBegin n = op.data.extent := by
  unfold deleteEnd deleteBegin Slice.extent
  ring

/-- One turn of the loop, when it stays in range of the list, performs the plain edit. -/
theorem combineStep_represents {acc acc' : List Slice × Int32} {content : Bytes} {op : Operation}
    (hrep : Represents acc content) (hrange : InRange content.length op)
    (hwf : op.operationType = .insert → op.data.WellFormed)
    (hstep : combineStep acc op = some acc') : Represents acc' (apply content op) := by
  obtain ⟨list,total⟩ := acc
  have hlist := hrep.wellFormed
  have htotal := hrep.total
  have hext := hrep.total_extents
  have hcontents := hrep.contents
  simp only at hlist htotal hext hcontents
  have hfits := fits_toInt total
  unfold Fits at hfits
  cases htype : op.operationType with
  | insert =>
    simp only [InRange,htype,← htotal] at hrange
    obtain ⟨h0,h1,hpos,hlen⟩ := hrange
    have hd := hwf htype
    have hfile := getFilePos_toInt h0 h1
    obtain ⟨out,hout,hshape⟩ := combineInsert_shape op.data hlist.sized hext (by rwa [hfile])
      (by rwa [hfile])
    simp only [combineStep,htype,hout,Option.bind_eq_bind,Option.bind_some,Option.some.injEq] at hstep
    subst hstep
    rw [hfile] at hshape
    obtain ⟨hw,hc⟩ := hshape.contents_eq hlist hd
    have hsize := Slice.getSize_toInt hd.sized
    refine ⟨hw,?_,?_⟩
    · simp only [hc,hcontents,apply,htype,← htotal]
    · have hnew : (total+op.data.getSize).toInt = total.toInt+op.data.extent := by
        rw [toInt_add_of_fits,hsize]
        exact ⟨by omega,by omega⟩
      simp only [hnew,apply,htype,← htotal,List.length_append,List.length_take,List.length_drop]
      have hdl := hd.content_length
      omega
  | delete =>
    simp only [InRange,htype,← htotal] at hrange
    obtain ⟨h0,hab,hb⟩ := hrange
    have hspan := deleteEnd_sub_begin op total.toInt
    have hsized : op.data.Sized := ⟨by omega,by omega⟩
    have hsize := Slice.getSize_toInt hsized
    have hbegin := getFilePos_add_toInt h0 (hab.trans hb)
    rcases combineDelete_cases hlist.sized hbegin (by rw [hsize,hspan]) h0 hab
      (by omega) (by omega) with ⟨out,hout,hshape⟩ | ⟨hnone,-⟩
    · simp only [combineStep,htype,hout,Option.bind_eq_bind,Option.bind_some,
        Option.some.injEq] at hstep
      subst hstep
      obtain ⟨hw,hc⟩ := hshape.contents_eq hlist
      refine ⟨hw,?_,?_⟩
      · simp only [hc,hcontents,apply,htype,← htotal]
      · have hnew : (total-op.data.getSize).toInt = total.toInt-op.data.extent := by
          rw [toInt_sub_of_fits,hsize]
          exact ⟨by omega,by omega⟩
        simp only [hnew,apply,htype,← htotal,List.length_append,List.length_take,List.length_drop]
        omega
    · simp [combineStep,htype,hnone] at hstep

lemma apply_length {content : Bytes} {op : Operation} (hrange : InRange content.length op)
    (hwf : op.operationType = .insert → op.data.WellFormed) :
    ((apply content op).length : ℤ) = lengthAfter content.length op := by
  cases htype : op.operationType with
  | insert =>
    have hd := (hwf htype).content_length
    simp only [InRange,htype] at hrange
    simp only [apply,lengthAfter,htype,List.length_append,List.length_take,List.length_drop]
    omega
  | delete =>
    have hspan := deleteEnd_sub_begin op content.length
    simp only [InRange,htype] at hrange
    simp only [apply,lengthAfter,htype,List.length_append,List.length_take,List.length_drop]
    omega

/-- The loop over the operations keeps the representation. -/
theorem combine_represents {acc acc' : List Slice × Int32} {content : Bytes}
    {ops : List Operation} (hrep : Represents acc content)
    (hrange : InRangeFrom content.length ops) (hwf : InsertsWellFormed ops)
    (hrun : ops.foldlM combineStep acc = some acc') :
    Represents acc' (ops.foldl apply content) := by
  induction ops generalizing acc content with
  | nil =>
    cases hrun
    exact hrep
  | cons op ops ih =>
    obtain ⟨hop,hops⟩ := hrange
    have hw := hwf op List.mem_cons_self
    rw [List.foldlM_cons] at hrun
    obtain ⟨mid,hstep,hrest⟩ := Option.bind_eq_some_iff.mp hrun
    rw [← apply_length hop hw] at hops
    exact ih (combineStep_represents hrep hop hw hstep) hops
      (fun o ho => hwf o (List.mem_cons_of_mem _ ho)) hrest

lemma represents_empty : Represents ([],0) [] where
  wellFormed := by simp [AllWellFormed]
  contents := rfl
  total := rfl

/-- Copying out a well-formed slice appends its bytes. -/
lemma writeSlice_eq {buf : Buffer} {s : Slice} (h : s.WellFormed) :
    writeSlice buf s = some { buf with data := buf.data ++ s.content } := by
  have hsize := Slice.getSize_toInt h.sized
  have hlen := h.content_length
  obtain ⟨b,hb,h0,hle,hend⟩ := h
  have hbytes : sliceBytes s b = some s.content := by
    unfold Slice.extent at hsize
    rw [sliceBytes,if_pos ⟨h0,by omega,by omega⟩,Slice.content,hb,List.take_drop,hsize]
    congr 3
    omega
  simp only [writeSlice,hb,hbytes,Option.bind_eq_bind,Option.bind_some,Buffer.writeSequence]
  exact Buffer.append_eq (by rw [hsize,hlen])

theorem getBufferFromSlices_eq {slices : List Slice} (h : AllWellFormed slices) :
    getBufferFromSlices slices = some { data := contents slices } := by
  have hall : ∀ (list : List Slice) (buf : Buffer), AllWellFormed list →
      list.foldlM writeSlice buf = some { buf with data := buf.data ++ contents list } := by
    intro list
    induction list with
    | nil => intro buf _; simp
    | cons s rest ih =>
      intro buf hl
      rw [allWellFormed_cons] at hl
      rw [List.foldlM_cons,writeSlice_eq hl.1]
      simp only [Option.bind_eq_bind,Option.bind_some,ih _ hl.2,contents_cons,List.append_assoc]
  exact hall slices {} h

/-- The combined slices are the edited object: their buffer is the byte string that the
operations leave one after another, `out_totalLength` its length, and every slice lies in
its backing buffer. -/
theorem combineOperationsForOneSameObject_content (ops : List Operation) (slices : List Slice)
    (outTotalLength : Int32) (hwf : InsertsWellFormed ops) (hrange : InRangeFrom 0 ops)
    (hrun : combineOperationsForOneSameObject ops = some (slices,outTotalLength)) :
    getBufferFromSlices slices = some { data := applyAll ops } ∧
      outTotalLength.toInt = (applyAll ops).length ∧ ∀ s ∈ slices, s.WellFormed := by
  have hrep := combine_represents represents_empty hrange hwf hrun
  have hbuffer := getBufferFromSlices_eq hrep.wellFormed
  rw [hrep.contents] at hbuffer
  exact ⟨hbuffer,hrep.total,hrep.wellFormed⟩

/-- The end of an append is deleted together with a piece of the insert before it. -/
theorem combine_content_across_slices :
    getBufferFromSlices [⟨some { data := lit "abcd" },0,3⟩,⟨some { data := lit "xyz" },2,3⟩] =
        some { data := applyAll [OperationWrapper.writeWrapper {} (lit "abcd"),
          OperationWrapper.appendWrapper {} (lit "xyz"),OperationWrapper.deleteWrapper {} 3 6] } ∧
      (4 : Int32).toInt = (applyAll [OperationWrapper.writeWrapper {} (lit "abcd"),
        OperationWrapper.appendWrapper {} (lit "xyz"),
        OperationWrapper.deleteWrapper {} 3 6]).length ∧
      ∀ s ∈ [(⟨some { data := lit "abcd" },0,3⟩ : Slice),⟨some { data := lit "xyz" },2,3⟩],
        s.WellFormed :=
  combineOperationsForOneSameObject_content _ _ _ (by decide) (by decide) (by decide)

end Operation
end GDFileStore
