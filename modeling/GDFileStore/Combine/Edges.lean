import GDFileStore.Combine.Content

/-! Exactly when the combiner indexes its slice list out of range: the edges of the slice list
are the edges that the operations leave, and only a delete up to the object's end can overrun. -/
namespace GDFileStore.Operation
open Int32Range

/-- A position where the slice list can be cut between two slices. -/
def Edge (list : List Slice) (p : ℤ) : Prop := ∃ pre post, list = pre ++ post ∧ extents pre = p

lemma edge_zero (list : List Slice) : Edge list 0 := ⟨[],list,rfl,rfl⟩

lemma edge_cons {s : Slice} {list : List Slice} {p : ℤ} :
    Edge (s::list) p ↔ p = 0 ∨ Edge list (p-s.extent) := by
  constructor
  · rintro ⟨pre,post,hsplit,hp⟩
    cases pre with
    | nil => exact Or.inl hp.symm
    | cons s' pre =>
      rw [List.cons_append] at hsplit
      obtain ⟨rfl,hrest⟩ := List.cons.inj hsplit
      rw [extents_cons] at hp
      exact Or.inr ⟨pre,post,hrest,by omega⟩
  · rintro (rfl | ⟨pre,post,rfl,hp⟩)
    · exact edge_zero _
    · exact ⟨s::pre,post,rfl,by rw [extents_cons,hp]; omega⟩

lemma edge_append {xs ys : List Slice} {p : ℤ} :
    Edge (xs ++ ys) p ↔ Edge xs p ∨ Edge ys (p-extents xs) := by
  induction xs generalizing p with
  | nil =>
    rw [List.nil_append,extents_nil,sub_zero]
    constructor
    · exact Or.inr
    · rintro (⟨pre,post,hsplit,rfl⟩ | h)
      · obtain ⟨rfl,-⟩ := List.append_eq_nil_iff.mp hsplit.symm
        exact edge_zero ys
      · exact h
  | cons x xs ih =>
    rw [List.cons_append,edge_cons,edge_cons,ih,extents_cons,or_assoc,sub_sub]

lemma Edge.bounds {list : List Slice} {p : ℤ} (h : Edge list p) (hlist : AllSized list) :
    0 ≤ p ∧ p ≤ extents list := by
  obtain ⟨pre,post,rfl,rfl⟩ := h
  obtain ⟨hpre,hpost⟩ := allSized_append.mp hlist
  have h0 := extents_nonneg hpre
  have h1 := extents_nonneg hpost
  rw [extents_append]
  omega

/-- The edges left by an insert of `k` bytes at `p`, or by a delete of `[a, b)`. -/
def insertEdges (p k : ℤ) (E : ℤ → Prop) (q : ℤ) : Prop :=
  (E q ∧ q ≤ p) ∨ q = p ∨ q = p+k ∨ (E (q-k) ∧ p ≤ q-k)
def deleteEdges (a b : ℤ) (E : ℤ → Prop) (q : ℤ) : Prop :=
  (E q ∧ q ≤ a) ∨ q = a ∨ (E (q+(b-a)) ∧ b ≤ q+(b-a))

lemma mem_edgesAfter_insert {n : ℤ} {edges : List ℤ} {op : Operation}
    (htype : op.operationType = .insert) {q : ℤ} :
    q ∈ edgesAfter n edges op ↔ insertEdges (op.position n) op.data.extent (· ∈ edges) q := by
  have hshift : (∃ e ∈ edges, op.position n ≤ e ∧ e+op.data.extent = q) ↔
      (q-op.data.extent ∈ edges ∧ op.position n ≤ q-op.data.extent) := by
    constructor
    · rintro ⟨e,he,hle,rfl⟩
      simpa using ⟨he,hle⟩
    · rintro ⟨he,hle⟩
      exact ⟨_,he,hle,by omega⟩
  simp only [edgesAfter,htype,insertEdges,← hshift]
  simp [and_assoc]

lemma mem_edgesAfter_delete {n : ℤ} {edges : List ℤ} {op : Operation}
    (htype : op.operationType = .delete) {q : ℤ} :
    q ∈ edgesAfter n edges op ↔ deleteEdges (op.deleteBegin n) (op.deleteEnd n) (· ∈ edges) q := by
  have hspan := deleteEnd_sub_begin op n
  have hshift : (∃ e ∈ edges, op.deleteEnd n ≤ e ∧ e-op.data.extent = q) ↔
      (q+op.data.extent ∈ edges ∧ op.deleteEnd n ≤ q+op.data.extent) := by
    constructor
    · rintro ⟨e,he,hle,rfl⟩
      simpa using ⟨he,hle⟩
    · rintro ⟨he,hle⟩
      exact ⟨_,he,hle,by omega⟩
  simp only [edgesAfter,htype,deleteEdges,hspan,← hshift]
  simp [and_assoc]

theorem InsertShape.edge_iff {data : Slice} {p : ℤ} {list out : List Slice}
    (h : InsertShape data p list out) (hlist : AllSized list) (q : ℤ) :
    Edge out q ↔ insertEdges p data.extent (Edge list) q := by
  cases h with
  | @between pre post at_edge =>
    obtain ⟨hpre,hpost⟩ := allSized_append.mp hlist
    have hb : ∀ x, Edge pre x → 0 ≤ x ∧ x ≤ extents pre := fun x hx => hx.bounds hpre
    have hb' : ∀ x, Edge post x → 0 ≤ x ∧ x ≤ extents post := fun x hx => hx.bounds hpost
    have h0 := edge_zero post
    simp only [insertEdges,edge_append,edge_cons]
    grind
  | @inside pre s post r at_offset pos lt =>
    obtain ⟨hpre,hrest⟩ := allSized_append.mp hlist
    obtain ⟨hs,hpost⟩ := allSized_cons.mp hrest
    have hb : ∀ x, Edge pre x → 0 ≤ x ∧ x ≤ extents pre := fun x hx => hx.bounds hpre
    have hb' : ∀ x, Edge post x → 0 ≤ x ∧ x ≤ extents post := fun x hx => hx.bounds hpost
    have hf := Slice.front_extent pos.le lt.le
    have hk := Slice.back_extent pos.le lt.le
    simp only [insertEdges,edge_append,edge_cons]
    grind

theorem DeleteShape.edge_iff {a b : ℤ} {list out : List Slice} (h : DeleteShape a b list out)
    (hlist : AllSized list) (q : ℤ) : Edge out q ↔ deleteEdges a b (Edge list) q := by
  cases h with
  | @within pre s post r k begins ends nonneg lt ordered le =>
    obtain ⟨hpre,hrest⟩ := allSized_append.mp hlist
    obtain ⟨hs,hpost⟩ := allSized_cons.mp hrest
    have hb : ∀ x, Edge pre x → 0 ≤ x ∧ x ≤ extents pre := fun x hx => hx.bounds hpre
    have hb' : ∀ x, Edge post x → 0 ≤ x ∧ x ≤ extents post := fun x hx => hx.bounds hpost
    have hf := Slice.front_extent nonneg lt.le
    have hk := Slice.back_extent (nonneg.trans ordered) le
    simp only [deleteEdges,edge_append,edge_cons]
    grind
  | @across pre s mid t post r e begins ends nonneg lt later nonneg' lt' =>
    obtain ⟨hleft,hrest⟩ := allSized_append.mp hlist
    obtain ⟨hpre,hsm⟩ := allSized_append.mp hleft
    obtain ⟨hs,hmid⟩ := allSized_cons.mp hsm
    obtain ⟨ht,hpost⟩ := allSized_cons.mp hrest
    have hb : ∀ x, Edge pre x → 0 ≤ x ∧ x ≤ extents pre := fun x hx => hx.bounds hpre
    have hm : ∀ x, Edge mid x → 0 ≤ x ∧ x ≤ extents mid := fun x hx => hx.bounds hmid
    have hb' : ∀ x, Edge post x → 0 ≤ x ∧ x ≤ extents post := fun x hx => hx.bounds hpost
    have hf := Slice.front_extent nonneg lt.le
    have hk := Slice.back_extent nonneg' lt'.le
    have h0 := extents_nonneg hmid
    simp only [deleteEdges,edge_append,edge_cons,extents_append,extents_cons]
    grind

lemma InsertShape.sized {data : Slice} {p : ℤ} {list out : List Slice}
    (h : InsertShape data p list out) (hlist : AllSized list) (hdata : data.Sized) :
    AllSized out ∧ extents out = extents list+data.extent := by
  cases h with
  | @between pre post at_edge =>
    obtain ⟨hpre,hpost⟩ := allSized_append.mp hlist
    simp only [allSized_append,allSized_cons,extents_append,extents_cons]
    exact ⟨⟨hpre,hdata,hpost⟩,by omega⟩
  | @inside pre s post r at_offset pos lt =>
    obtain ⟨hpre,hrest⟩ := allSized_append.mp hlist
    obtain ⟨hs,hpost⟩ := allSized_cons.mp hrest
    simp only [allSized_append,allSized_cons,extents_append,extents_cons,
      Slice.front_extent pos.le lt.le,Slice.back_extent pos.le lt.le]
    exact ⟨⟨hpre,Slice.front_sized hs pos.le lt.le,hdata,Slice.back_sized hs pos.le lt.le,hpost⟩,
      by omega⟩

lemma DeleteShape.sized {a b : ℤ} {list out : List Slice} (h : DeleteShape a b list out)
    (hlist : AllSized list) : AllSized out ∧ extents out = extents list-(b-a) := by
  cases h with
  | @within pre s post r q begins ends nonneg lt ordered le =>
    obtain ⟨hpre,hrest⟩ := allSized_append.mp hlist
    obtain ⟨hs,hpost⟩ := allSized_cons.mp hrest
    have hq := nonneg.trans ordered
    simp only [allSized_append,allSized_cons,extents_append,extents_cons,
      Slice.front_extent nonneg lt.le,Slice.back_extent hq le]
    exact ⟨⟨hpre,Slice.front_sized hs nonneg lt.le,Slice.back_sized hs hq le,hpost⟩,by omega⟩
  | @across pre s mid t post r e begins ends nonneg lt later nonneg' lt' =>
    obtain ⟨hleft,hrest⟩ := allSized_append.mp hlist
    obtain ⟨hpre,hsm⟩ := allSized_append.mp hleft
    obtain ⟨hs,-⟩ := allSized_cons.mp hsm
    obtain ⟨ht,hpost⟩ := allSized_cons.mp hrest
    simp only [allSized_append,allSized_cons,extents_append,extents_cons,
      Slice.front_extent nonneg lt.le,Slice.back_extent nonneg' lt'.le]
    exact ⟨⟨hpre,Slice.front_sized hs nonneg lt.le,Slice.back_sized ht nonneg' lt'.le,hpost⟩,
      by omega⟩

/-- A delete that keeps its shape begins before the end and crosses no edge to reach it. -/
lemma DeleteShape.stops_short {a b : ℤ} {list out : List Slice} (h : DeleteShape a b list out)
    (hlist : AllSized list) :
    a < extents list ∧ (b = extents list → ∀ p, Edge list p → ¬ (a < p ∧ p < extents list)) := by
  cases h with
  | @within pre s post r q begins ends nonneg lt ordered le =>
    obtain ⟨hpre,hrest⟩ := allSized_append.mp hlist
    have hpost := extents_nonneg (allSized_cons.mp hrest).2
    have hb : ∀ x, Edge pre x → 0 ≤ x ∧ x ≤ extents pre := fun x hx => hx.bounds hpre
    have hb' : ∀ x, Edge post x → 0 ≤ x ∧ x ≤ extents post :=
      fun x hx => hx.bounds (allSized_cons.mp hrest).2
    simp only [extents_append,extents_cons,edge_append,edge_cons]
    grind
  | @across pre s mid t post r e begins ends nonneg lt later nonneg' lt' =>
    obtain ⟨hleft,hrest⟩ := allSized_append.mp hlist
    have hmid := extents_nonneg (allSized_cons.mp (allSized_append.mp hleft).2).2
    have hpost := extents_nonneg (allSized_cons.mp hrest).2
    simp only [extents_append,extents_cons]
    exact ⟨by omega,by omega⟩

/-- A delete that runs off the list begins at the end or crosses an edge to reach it. -/
lemma Overrun.not_stops_short {a b : ℤ} {list : List Slice} (h : Overrun a b list) :
    ¬ (a < extents list ∧
      (b = extents list → ∀ p, Edge list p → ¬ (a < p ∧ p < extents list))) := by
  rintro ⟨hlt,hedges⟩
  cases h with
  | begins begins => omega
  | @ends pre s post r begins ends nonneg lt past =>
    have hedge : Edge (pre ++ s::post) (extents pre+s.extent) :=
      ⟨pre ++ [s],post,by simp,by simp⟩
    exact hedges ends.symm _ hedge ⟨by omega,by omega⟩

/-- The slice list, its length and its edges agree with the ones the operations describe. -/
structure Tracks (acc : List Slice × Int32) (n : ℤ) (edges : List ℤ) : Prop where
  sized : AllSized acc.1
  extents : extents acc.1 = n
  total : acc.2.toInt = n
  edges : ∀ p, p ∈ edges ↔ Edge acc.1 p

lemma insertEdges_congr {p k : ℤ} {E F : ℤ → Prop} (h : ∀ q, E q ↔ F q) (q : ℤ) :
    insertEdges p k E q ↔ insertEdges p k F q := by simp only [insertEdges,h]
lemma deleteEdges_congr {a b : ℤ} {E F : ℤ → Prop} (h : ∀ q, E q ↔ F q) (q : ℤ) :
    deleteEdges a b E q ↔ deleteEdges a b F q := by simp only [deleteEdges,h]

/-- One turn of the loop stays in range of the list exactly when the operation stops short. -/
theorem combineStep_tracks {acc : List Slice × Int32} {n : ℤ} {edges : List ℤ} {op : Operation}
    (h : Tracks acc n edges) (hrange : InRange n op) :
    (StopsShort n edges op ∧ ∃ acc', combineStep acc op = some acc' ∧
        Tracks acc' (lengthAfter n op) (edgesAfter n edges op)) ∨
      (¬ StopsShort n edges op ∧ combineStep acc op = none) := by
  obtain ⟨list,total⟩ := acc
  obtain ⟨hlist,hext,htotal,hedges⟩ := h
  simp only at hlist hext htotal hedges
  subst htotal
  have hfits := fits_toInt total
  unfold Fits at hfits
  cases htype : op.operationType with
  | insert =>
    left
    simp only [InRange,htype] at hrange
    obtain ⟨h0,h1,hpos,hlen⟩ := hrange
    have hn := extents_nonneg hlist
    have hd : op.data.Sized := ⟨hpos,by omega⟩
    have hfile := getFilePos_toInt h0 h1
    obtain ⟨out,hout,hshape⟩ := combineInsert_shape op.data hlist hext.symm (by rwa [hfile])
      (by rwa [hfile])
    rw [hfile] at hshape
    obtain ⟨hsized,hextents⟩ := hshape.sized hlist hd
    refine ⟨by simp only [StopsShort,htype],(out,total+op.data.getSize),
      by simp [combineStep,htype,hout],hsized,?_,?_,?_⟩
    · simp only [hextents,hext,lengthAfter,htype]
    · have hsize := Slice.getSize_toInt hd
      simp only [lengthAfter,htype]
      rw [toInt_add_of_fits,hsize]
      exact ⟨by omega,by omega⟩
    · intro q
      rw [mem_edgesAfter_insert htype,hshape.edge_iff hlist]
      exact insertEdges_congr hedges q
  | delete =>
    simp only [InRange,htype] at hrange
    obtain ⟨h0,hab,hb⟩ := hrange
    have hspan := deleteEnd_sub_begin op total.toInt
    have hd : op.data.Sized := ⟨by omega,by omega⟩
    have hsize := Slice.getSize_toInt hd
    have hbegin := getFilePos_add_toInt h0 (hab.trans hb)
    have hstops : StopsShort total.toInt edges op ↔ (op.deleteBegin total.toInt < extents list ∧
        (op.deleteEnd total.toInt = extents list →
          ∀ p, Edge list p → ¬ (op.deleteBegin total.toInt < p ∧ p < extents list))) := by
      simp only [StopsShort,htype,hext,hedges]
    rw [hstops]
    rcases combineDelete_cases hlist hbegin (by rw [hsize,hspan]) h0 hab
      (by omega) (by omega) with ⟨out,hout,hshape⟩ | ⟨hnone,hover⟩
    · left
      obtain ⟨hsized,hextents⟩ := hshape.sized hlist
      refine ⟨hshape.stops_short hlist,(out,total-op.data.getSize),
        by simp [combineStep,htype,hout],hsized,?_,?_,?_⟩
      · simp only [hextents,hext,lengthAfter,htype,hspan]
      · simp only [lengthAfter,htype]
        rw [toInt_sub_of_fits,hsize]
        exact ⟨by omega,by omega⟩
      · intro q
        rw [mem_edgesAfter_delete htype,hshape.edge_iff hlist]
        exact deleteEdges_congr hedges q
    · right
      exact ⟨hover.not_stops_short,by simp [combineStep,htype,hnone]⟩

/-- The whole loop stays in range of the list exactly when every operation stops short. -/
theorem combine_isSome_iff {acc : List Slice × Int32} {n : ℤ} {edges : List ℤ}
    {ops : List Operation} (h : Tracks acc n edges) (hrange : InRangeFrom n ops) :
    (ops.foldlM combineStep acc).isSome ↔ StopsShortFrom n edges ops := by
  induction ops generalizing acc n edges with
  | nil => simp [StopsShortFrom]
  | cons op ops ih =>
    obtain ⟨hop,hops⟩ := hrange
    rw [List.foldlM_cons]
    rcases combineStep_tracks h hop with ⟨hstop,acc',hstep,htracks⟩ | ⟨hstop,hstep⟩
    · simp only [hstep,Option.bind_eq_bind,Option.bind_some,ih htracks hops,StopsShortFrom,hstop,
        true_and]
    · simp [hstep,StopsShortFrom,hstop]

lemma tracks_empty : Tracks ([],0) 0 [0] where
  sized := by simp [AllSized]
  extents := rfl
  total := rfl
  edges p := by
    rw [List.mem_singleton]
    constructor
    · rintro rfl
      exact edge_zero []
    · intro h
      have hb := h.bounds (by simp [AllSized])
      simp only [extents_nil] at hb
      omega

/-- For operations in range of the object, no index leaves the slice list exactly when every
delete begins before the current end and crosses no edge of an earlier edit to reach it. -/
theorem combineOperationsForOneSameObject_isSome_iff (ops : List Operation)
    (hrange : InRangeFrom 0 ops) :
    (combineOperationsForOneSameObject ops).isSome ↔ StopsShortFrom 0 [0] ops :=
  combine_isSome_iff tracks_empty hrange

/-- Two appends and a delete of everything: in range of the object, out of range of the list. -/
theorem delete_to_end_overruns :
    ¬ ∀ ops : List Operation, InRangeFrom 0 ops →
      (combineOperationsForOneSameObject ops).isSome := by
  intro h
  have hall := h [OperationWrapper.writeWrapper {} (lit "ab"),
    OperationWrapper.appendWrapper {} (lit "cd"),OperationWrapper.deleteWrapper {} 0 4] (by decide)
  revert hall
  decide

theorem delete_to_end_isSome_iff :
    (combineOperationsForOneSameObject [OperationWrapper.writeWrapper {} (lit "ab"),
      OperationWrapper.appendWrapper {} (lit "cd"),
      OperationWrapper.deleteWrapper {} 0 4]).isSome ↔
      StopsShortFrom 0 [0] [OperationWrapper.writeWrapper {} (lit "ab"),
        OperationWrapper.appendWrapper {} (lit "cd"),OperationWrapper.deleteWrapper {} 0 4] :=
  combineOperationsForOneSameObject_isSome_iff _ (by decide)

end GDFileStore.Operation
