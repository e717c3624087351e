import GDFileStore.Serialize.Refine

/-! Writes and reads that alternate in any way on one buffer. -/
namespace GDFileStore

/-- A value together with its type. -/
abbrev Typed := (t : Ty) × t.Val

/-- A call on the buffer; a read names the type it asks for and where tuples in it lead. -/
inductive BufferCall where
  | write (e : Typed)
  | read (t : Ty) (p : Pointers)

namespace BufferCall

def writes : List BufferCall → List Typed
  | [] => []
  | .write e::calls => e::writes calls
  | .read _ _::calls => writes calls

def reads : List BufferCall → List (Ty × Pointers)
  | [] => []
  | .write _::calls => reads calls
  | .read t p::calls => (t,p)::reads calls

/-- Run the calls and collect what the reads return. -/
def perform : List BufferCall → Buffer → Option (List Typed × Buffer)
  | [],b => some ([],b)
  | .write e::calls,b => (e.1.write b e.2).bind (perform calls)
  | .read t p::calls,b => (t.read p b).bind fun r =>
    (perform calls r.2).map fun rs => (⟨t,r.1⟩::rs.1,rs.2)

/-- Before every call there have been at least as many writes as reads, those `stored` before
all of them counted in, and each read asks for the type of the write it matches. -/
structure InOrder (stored : List Typed) (calls : List BufferCall) : Prop where
  after : ∀ before rest, calls = before ++ rest →
    (reads before).length ≤ stored.length+(writes before).length
  types : (reads calls).map Prod.fst <+: (stored ++ writes calls).map Sigma.fst

def encodeAll (es : List Typed) : Bytes := es.flatMap (fun e => e.1.encode e.2)

/-- All sizes and the total length are below `2^31`. -/
structure Short (es : List Typed) : Prop where
  fits : ∀ e ∈ es, e.1.Fits e.2
  total : (encodeAll es).length < 2^31

namespace InOrder
variable {stored : List Typed} {calls : List BufferCall}

lemma write {e : Typed} (h : InOrder stored (.write e::calls)) :
    InOrder (stored ++ [e]) calls where
  after := by
    rintro before rest rfl
    have hcount := h.after (.write e::before) rest rfl
    simp only [reads,writes,List.length_append,List.length_cons,List.length_nil] at hcount ⊢
    omega
  types := by
    rw [List.append_assoc]
    exact h.types

/-- The value a read is to return is the oldest one that is stored. -/
lemma oldest {t : Ty} {p : Pointers} (h : InOrder stored (.read t p::calls)) :
    ∃ v rest, stored = ⟨t,v⟩::rest ∧ InOrder rest calls := by
  cases stored with
  | nil => exact absurd (h.after [.read t p] calls rfl) (by simp [reads,writes])
  | cons e rest =>
    obtain ⟨u,v⟩ := e
    obtain ⟨rfl,htypes⟩ : t = u ∧ _ := List.cons_prefix_cons.1 h.types
    refine ⟨v,rest,rfl,?_,htypes⟩
    rintro before more rfl
    have hcount := h.after (.read t p::before) more rfl
    simp only [reads,writes,List.length_cons] at hcount
    omega

end InOrder

lemma encodeAll_append (es fs : List Typed) : encodeAll (es ++ fs) = encodeAll es ++ encodeAll fs :=
  List.flatMap_append

lemma encodeAll_cons (e : Typed) (es : List Typed) :
    encodeAll (e::es) = e.1.encode e.2 ++ encodeAll es := List.flatMap_cons

/-- The run from a buffer that has been read up to the values still stored. -/
theorem perform_from {calls : List BufferCall} {stored : List Typed} (consumed : Bytes)
    (horder : InOrder stored calls) (hreadable : ∀ r ∈ reads calls, r.1.Readable r.2)
    (hfits : ∀ e ∈ stored ++ writes calls, e.1.Fits e.2)
    (hshort : (consumed ++ encodeAll (stored ++ writes calls)).length < 2^31) :
    perform calls ⟨consumed ++ encodeAll stored,Int32.ofNat consumed.length⟩ =
      some ((stored ++ writes calls).take (reads calls).length,
        ⟨consumed ++ encodeAll (stored ++ writes calls),Int32.ofNat (consumed ++
          encodeAll ((stored ++ writes calls).take (reads calls).length)).length⟩) := by
  induction calls generalizing stored consumed with
  | nil => simp [perform,writes,reads,encodeAll]
  | cons call calls ih =>
    cases call with
    | write e =>
      have hlist : stored ++ writes (.write e::calls) = (stored ++ [e]) ++ writes calls := by
        simp [writes]
      rw [hlist] at hfits hshort ⊢
      rw [perform,Ty.write_eq (hfits e (by simp)),Option.bind_some,List.append_assoc consumed]
      have hstored : encodeAll stored ++ e.1.encode e.2 = encodeAll (stored ++ [e]) := by
        rw [encodeAll_append,encodeAll_cons]
        simp [encodeAll]
      rw [hstored]
      exact ih consumed horder.write hreadable hfits hshort
    | read t p =>
      obtain ⟨v,rest,rfl,hrest⟩ := horder.oldest
      have hwrites : writes (.read t p::calls) = writes calls := rfl
      rw [hwrites,List.cons_append] at hfits hshort ⊢
      rw [encodeAll_cons,← List.append_assoc] at hshort
      have hread : t.read p ⟨consumed ++ encodeAll (⟨t,v⟩::rest),Int32.ofNat consumed.length⟩ =
          some (v,⟨(consumed ++ t.encode v) ++ encodeAll rest,
            Int32.ofNat (consumed ++ t.encode v).length⟩) := by
        rw [encodeAll_cons,← List.append_assoc]
        apply Ty.read_encode (hreadable _ List.mem_cons_self) (hfits _ List.mem_cons_self)
        simp only [encodeAll_append,List.length_append] at hshort ⊢
        omega
      have hnext := ih (consumed ++ t.encode v) hrest
        (fun r hr => hreadable r (List.mem_cons_of_mem _ hr))
        (fun e he => hfits e (List.mem_cons_of_mem _ he)) hshort
      rw [perform,hread,Option.bind_some,hnext,Option.map_some]
      simp only [reads,List.length_cons,List.take_succ_cons,encodeAll_cons,List.append_assoc]

/-- Every read returns the value of the matching write, and once as many values have been read as
written the offset is the length of the data. -/
theorem perform_in_order (calls : List BufferCall) (horder : InOrder [] calls)
    (hshort : Short (writes calls)) (hreadable : ∀ r ∈ reads calls, r.1.Readable r.2) :
    ∃ b, perform calls {} = some ((writes calls).take (reads calls).length,b) ∧
      ((reads calls).length = (writes calls).length → b.offset.toInt = b.data.length) := by
  have hrun := perform_from [] horder hreadable hshort.fits hshort.total
  refine ⟨_,hrun,?_⟩
  intro hall
  rw [hall]
  simp only [List.nil_append,List.take_length]
  exact Int32Range.toInt_ofNat_of_lt hshort.total

lemma InOrder.nil (stored : List Typed) : InOrder stored [] where
  after := by
    intro before rest h
    obtain ⟨rfl,_⟩ := List.append_eq_nil_iff.1 h.symm
    exact Nat.zero_le _
  types := List.nil_prefix

lemma InOrder.cons_write {stored : List Typed} {calls : List BufferCall} {e : Typed}
    (h : InOrder (stored ++ [e]) calls) : InOrder stored (.write e::calls) where
  after := by
    intro before rest hsplit
    cases before with
    | nil => exact Nat.zero_le _
    | cons call before =>
      obtain ⟨rfl,hrest⟩ := List.cons_eq_cons.1 hsplit
      have hcount := h.after before rest hrest
      simp only [reads,writes,List.length_append,List.length_cons,List.length_nil] at hcount ⊢
      omega
  types := by
    have htypes := h.types
    rwa [List.append_assoc] at htypes

lemma InOrder.cons_read {stored : List Typed} {calls : List BufferCall} {t : Ty} {v : t.Val}
    (p : Pointers) (h : InOrder stored calls) : InOrder (⟨t,v⟩::stored) (.read t p::calls) where
  after := by
    intro before rest hsplit
    cases before with
    | nil => exact Nat.zero_le _
    | cons call before =>
      obtain ⟨rfl,hrest⟩ := List.cons_eq_cons.1 hsplit
      have hcount := h.after before rest hrest
      simp only [reads,writes,List.length_cons] at hcount ⊢
      omega
  types := List.cons_prefix_cons.2 ⟨rfl,h.types⟩

/-- A string with a zero byte, then a list of classes with an empty string in one of them and a
tuple, read while the rest is still being written. -/
theorem perform_in_order_nested :
    let names : Ty := .list (.cls (.tupleCons .string (.tupleCons (.arith .four) .tupleNil)))
    let pair : Ty := .tupleCons (.arith .one) (.tupleCons names .tupleNil)
    ∃ b, perform [.write ⟨.string,[0,7]⟩,.write ⟨names,[([],5,()),([1],-1,())]⟩,
      .read .string .unset,.write ⟨pair,(1,[],())⟩,.read names .unset,.read pair .ofCaller] {} =
        some ([⟨.string,[0,7]⟩,⟨names,[([],5,()),([1],-1,())]⟩,⟨pair,(1,[],())⟩],b) ∧
      b.offset.toInt = b.data.length := by
  intro names pair
  have hrun := perform_in_order [.write ⟨.string,[0,7]⟩,
    .write ⟨names,[([],5,()),([1],-1,())]⟩,.read .string .unset,.write ⟨pair,(1,[],())⟩,
    .read names .unset,.read pair .ofCaller]
    (.cons_write (.cons_write (.cons_read _ (.cons_write (.cons_read _ (.cons_read _ (.nil _)))))))
    ⟨by simp [writes,Ty.Fits,names,pair],by decide⟩
    (by simp [reads,Ty.Readable,Pointers.inner,Pointers.getES,names,pair])
  obtain ⟨b,hb,hend⟩ := hrun
  exact ⟨b,hb,hend rfl⟩

/-- A vector of one tuple with one `int`: it is written, but `Read` follows the null pointer of
the tuple that the vector's constructor has made. -/
theorem tuple_in_vector_unreadable :
    let t : Ty := .vector (.tupleCons (.arith .four) .tupleNil)
    let calls : List BufferCall := [.write ⟨t,[(7,())]⟩,.read t .ofCaller]
    InOrder [] calls ∧ Short (writes calls) ∧ perform calls {} = none := by
  intro t calls
  refine ⟨.cons_write (.cons_read _ (.nil _)),⟨?_,by decide⟩,
    Option.isNone_iff_eq_none.1 (by decide)⟩
  simp [writes,calls,t,Ty.Fits]

end BufferCall
end GDFileStore
