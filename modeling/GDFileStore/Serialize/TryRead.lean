import GDFileStore.Serialize.Canonical
import GDFileStore.Serialize.Members
import GDFileStore.Codec.Grammar

/-! `Read` of bytes that need not be an encoding. It gives a value, throws at a negative size, or
copies from outside the block; the grammar of the type says on which bytes it does what. -/
namespace GDFileStore
open Codec Int32Range

namespace Buffer

/-- The bytes stand at the offset, and an `int` can move over them. -/
def Holds (b : Buffer) (bytes : Bytes) : Prop :=
  0 ≤ b.offset.toInt ∧ bytes <+: b.rest ∧ b.offset.toInt+bytes.length < 2^31

/-- The same, but for no bytes, which nothing has to hold. -/
def Ahead (b : Buffer) (bytes : Bytes) : Prop := bytes = [] ∨ b.Holds bytes

def advance (b : Buffer) (n : ℕ) : Buffer := { b with offset := b.offset+Int32.ofNat n }

/-- `drawback`. A copy of bytes that are not in the block is an overrun, and so are a negative
number of bytes and an offset that overflows; a copy of no bytes touches nothing. -/
def tryDrawback (len : Int32) : Reader Buffer Bytes := fun b =>
  if len = 0 then .ok ([],b)
  else if 0 ≤ len.toInt ∧ 0 ≤ b.offset.toInt ∧ b.offset.toInt+len.toInt ≤ b.data.length ∧
      b.offset.toInt+len.toInt < 2^31 then
    .ok ((b.data.drop b.offset.toInt.toNat).take len.toInt.toNat,
      { b with offset := b.offset+len })
  else .error .overrun

end Buffer

def tryReadInt : Reader Buffer Int32 := do
  let bytes ← Buffer.tryDrawback 4
  return intOfBytes bytes

/-- The turns of `while (sz--)`, which from a negative number go on until the `int` overflows. -/
def loopTurns (sz : Int32) : ℕ :=
  if sz.toInt < 0 then (sz.toInt+2^31).toNat else sz.toInt.toNat

namespace Ty

/-- `Read`. The constructors of strings and vectors throw at a negative size; a list has none, and
its loop runs on. -/
def tryRead : (t : Ty) → Pointers → Reader Buffer t.Val
  | .arith w,_ => do
    let bytes ← Buffer.tryDrawback (Int32.ofNat w.bytes)
    return BitVec.ofNat (8*w.bytes) (ofLeBytes bytes)
  | .string,_ => do
    let len ← tryReadInt
    if len.toInt < 0 then throw .refused else Buffer.tryDrawback len
  | .vector t,_ => do
    let sz ← tryReadInt
    if sz.toInt < 0 then throw .refused
    else if sz = 0 then return []
    else (t.tryRead .unset).replicate sz.toInt.toNat
  | .list t,_ => do
    let sz ← tryReadInt
    if sz = 0 then return []
    else do
      let l ← (t.tryRead .unset).replicate (loopTurns sz)
      if sz.toInt < 0 then throw .overrun else return l
  | .cls es,p => es.tryRead p.getES
  | .tupleNil,_ => return ()
  | .tupleCons t ts,p =>
    match p.inner with
    | none => throw .overrun
    | some q => do
      let v ← t.tryRead q
      let vs ← ts.tryRead p
      return (v,vs)

/-- The bytes end with a negative size of a string or vector, before which they are an encoding that
has only begun. -/
def Refused : (t : Ty) → Bytes → Prop
  | .arith _,_ => False
  | .string,bytes => ∃ n : Int32, n.toInt < 0 ∧ bytes = intBytes n
  | .vector t,bytes => (∃ n : Int32, n.toInt < 0 ∧ bytes = intBytes n) ∨
    ∃ (n : Int32) (vs : List t.Val) (last : Bytes), vs.length < n.toInt.toNat ∧
      (∀ v ∈ vs, t.Fits v) ∧ t.Refused last ∧ bytes = intBytes n ++ (vs.flatMap t.encode ++ last)
  | .list t,bytes =>
    ∃ (n : Int32) (vs : List t.Val) (last : Bytes), vs.length < loopTurns n ∧
      (∀ v ∈ vs, t.Fits v) ∧ t.Refused last ∧ bytes = intBytes n ++ (vs.flatMap t.encode ++ last)
  | .cls es,bytes => es.Refused bytes
  | .tupleNil,_ => False
  | .tupleCons t ts,bytes => t.Refused bytes ∨
    ∃ (v : t.Val) (last : Bytes), t.Fits v ∧ ts.Refused last ∧ bytes = t.encode v ++ last

def grammar (t : Ty) : Grammar UInt8 t.Val where
  accepts v bytes := t.Fits v ∧ bytes = t.encode v
  refuses := t.Refused

end Ty

namespace Buffer
variable {b : Buffer} {m n : ℕ} {v w : Bytes}

lemma advance_toInt (h : 0 ≤ b.offset.toInt) (hshort : b.offset.toInt+n < 2^31) :
    (b.advance n).offset.toInt = b.offset.toInt+n := by
  have hn : (Int32.ofNat n).toInt = n := toInt_ofNat_of_lt (by omega)
  rw [advance,toInt_add_of_fits ⟨by omega,by omega⟩,hn]

lemma rest_advance (h : 0 ≤ b.offset.toInt) (hshort : b.offset.toInt+n < 2^31) :
    (b.advance n).rest = b.rest.drop n := by
  rw [rest,rest,advance_toInt h hshort,List.drop_drop]
  congr 1
  omega

lemma ahead_iff (h : 0 ≤ b.offset.toInt ∨ v ≠ []) : b.Ahead v ↔ b.Holds v := by
  refine or_iff_right_of_imp ?_
  rintro rfl
  have hlt := b.offset.toInt_lt
  exact ⟨h.resolve_right (fun hne => hne rfl),List.nil_prefix,by simpa using hlt⟩

lemma ahead_append (b : Buffer) (v w : Bytes) :
    b.Ahead (v ++ w) ↔ b.Ahead v ∧ (b.advance v.length).Ahead w := by
  by_cases hw : w = []
  · simp [hw,Ahead]
  by_cases hv : v = []
  · simp [hv,Ahead,advance]
  simp only [Ahead,Holds,List.append_eq_nil_iff,hv,hw,and_self,false_or,List.length_append]
  constructor
  · rintro ⟨hnonneg,hplace,hshort⟩
    rw [Nat.cast_add] at hshort
    have hv' : b.offset.toInt+v.length < 2^31 := by omega
    refine ⟨⟨hnonneg,(List.prefix_append v w).trans hplace,hv'⟩,?_⟩
    rw [advance_toInt hnonneg hv',rest_advance hnonneg hv']
    refine ⟨by omega,?_,by omega⟩
    have hdrop := hplace.drop v.length
    rwa [List.drop_left] at hdrop
  · rintro ⟨⟨hnonneg,hplace,hv'⟩,hrest⟩
    rw [advance_toInt hnonneg hv',rest_advance hnonneg hv'] at hrest
    obtain ⟨-,hplace',hshort⟩ := hrest
    refine ⟨hnonneg,?_,by rw [Nat.cast_add]; omega⟩
    rw [← List.prefix_iff_eq_append.1 hplace]
    exact (List.prefix_append_right_inj v).2 hplace'

/-- The data block as the tape of the reads. -/
def tape : Tape UInt8 Buffer where
  ahead := Ahead
  advance := advance
  ahead_nil _ := .inl rfl
  ahead_append := ahead_append
  advance_zero _ := by simp [advance]
  advance_add _ _ _ := by simp [advance,Int32.ofNat_add,Int32.add_assoc]

/-- A copy gives the bytes that are ahead. -/
lemma tryDrawback_implements {len : Int32} (hlen : 0 ≤ len.toInt) :
    Implements tape (tryDrawback len) (.word len.toInt.toNat) where
  ok_iff b a b' := by
    change tryDrawback len b = _ ↔ _
    by_cases hzero : len = 0
    · subst hzero
      constructor
      · intro hrun
        cases hrun
        exact ⟨[],⟨rfl,rfl⟩,.inl rfl,(tape.advance_zero b).symm⟩
      · rintro ⟨w,⟨rfl,hlength⟩,-,rfl⟩
        obtain rfl := List.eq_nil_of_length_eq_zero hlength
        rw [List.length_nil,tape.advance_zero]
        rfl
    have hpos : len.toInt ≠ 0 := fun h => hzero (Int32.toInt_inj.1 h)
    rw [tryDrawback,if_neg hzero]
    have hrest : b.rest.length = b.data.length-b.offset.toInt.toNat := List.length_drop
    constructor
    · intro hrun
      split_ifs at hrun with hin
      cases hrun
      have hlength : ((b.data.drop b.offset.toInt.toNat).take len.toInt.toNat).length =
          len.toInt.toNat := by
        rw [List.length_take]
        change min _ b.rest.length = _
        omega
      refine ⟨_,⟨rfl,hlength⟩,.inr ⟨hin.2.1,List.take_prefix _ _,?_⟩,?_⟩
      · rw [hlength]
        omega
      · rw [hlength]
        change _ = b.advance _
        rw [advance,ofNat_toNat_toInt hlen]
    · rintro ⟨w,⟨rfl,hlength⟩,hahead,rfl⟩
      have hne : a ≠ [] := List.ne_nil_of_length_pos (by omega)
      obtain ⟨hnonneg,hplace,hshort⟩ := hahead.resolve_left hne
      have hle := hplace.length_le
      rw [if_pos ⟨hlen,hnonneg,by omega,by omega⟩,hlength]
      have htake := List.prefix_iff_eq_take.1 hplace
      rw [hlength] at htake
      change _ = Except.ok (a,b.advance _)
      rw [advance,ofNat_toNat_toInt hlen]
      exact congrArg (fun bytes => Except.ok (bytes,_)) htake.symm
  refused_iff b := by
    refine iff_of_false ?_ ?_
    · intro hrun
      change tryDrawback len b = _ at hrun
      rw [tryDrawback] at hrun
      split_ifs at hrun
      cases hrun
    · rintro ⟨_,hw,-⟩
      exact hw

end Buffer

/-- The grammar of a size. -/
def sizeGrammar : Grammar UInt8 Int32 where
  accepts n bytes := bytes = intBytes n
  refuses _ := False

lemma tryReadInt_implements : Implements Buffer.tape tryReadInt sizeGrammar := by
  refine ((Buffer.tryDrawback_implements (by decide)).bind fun bytes =>
    .give (intOfBytes bytes)).congr ?_ ?_
  · intro n w
    rw [Grammar.accepts_map]
    constructor
    · rintro ⟨bytes,rfl,rfl,hlength⟩
      exact (intBytes_intOfBytes hlength).symm
    · rintro rfl
      exact ⟨_,(intOfBytes_intBytes n).symm,rfl,length_intBytes n⟩
  · intro w
    rw [Grammar.refuses_map]
    exact Iff.rfl

section sized
variable {α : Type} {f : Int32 → Grammar UInt8 α} {a : α} {bytes : Bytes}

lemma accepts_sized : (sizeGrammar.bind f).accepts a bytes ↔
    ∃ n rest, bytes = intBytes n ++ rest ∧ (f n).accepts a rest := by
  constructor
  · rintro ⟨n,_,rest,hbytes,rfl,ha⟩
    exact ⟨n,rest,hbytes,ha⟩
  · rintro ⟨n,rest,hbytes,ha⟩
    exact ⟨n,_,rest,hbytes,rfl,ha⟩

lemma refuses_sized : (sizeGrammar.bind f).refuses bytes ↔
    ∃ n rest, bytes = intBytes n ++ rest ∧ (f n).refuses rest := by
  constructor
  · rintro (h | ⟨n,_,rest,hbytes,rfl,hrest⟩)
    · exact h.elim
    · exact ⟨n,rest,hbytes,hrest⟩
  · rintro ⟨n,rest,hbytes,hrest⟩
    exact .inr ⟨n,_,rest,hbytes,rfl,hrest⟩

end sized

lemma not_ofNat_neg {m : ℕ} (hm : m < 2^31) : ¬(Int32.ofNat m).toInt < 0 := by
  rw [toInt_ofNat_of_lt hm]
  omega

namespace Ty

/-- The grammar of elements in a row. -/
lemma accepts_elements {t : Ty} (n : ℕ) (vs : List t.Val) (w : Bytes) :
    (t.grammar.replicate n).accepts vs w ↔
      vs.length = n ∧ (∀ v ∈ vs, t.Fits v) ∧ w = vs.flatMap t.encode :=
  Grammar.accepts_replicate (fun _ _ => Iff.rfl) n vs w

lemma refuses_elements {t : Ty} (n : ℕ) (w : Bytes) : (t.grammar.replicate n).refuses w ↔
    ∃ (vs : List t.Val) (last : Bytes), vs.length < n ∧ (∀ v ∈ vs, t.Fits v) ∧ t.Refused last ∧
      w = vs.flatMap t.encode ++ last :=
  Grammar.refuses_replicate (fun _ _ => Iff.rfl) n w

/-- The size that is refused is there. -/
lemma refused_ne_nil {t : Ty} {bytes : Bytes} (h : t.Refused bytes) : bytes ≠ [] := by
  have hsize : ∀ (n : Int32) (rest : Bytes), intBytes n ++ rest ≠ [] := by
    intro n rest hnil
    have hlength := congrArg List.length hnil
    rw [List.length_append,length_intBytes] at hlength
    cases hlength.symm.trans (Nat.add_comm _ _)
  induction t generalizing bytes with
  | arith w => exact h.elim
  | string =>
    obtain ⟨n,-,rfl⟩ := h
    simpa using hsize n []
  | vector t ih =>
    rcases h with ⟨n,-,rfl⟩ | ⟨n,vs,last,-,-,-,rfl⟩
    · simpa using hsize n []
    · exact hsize n _
  | list t ih =>
    obtain ⟨n,vs,last,-,-,-,rfl⟩ := h
    exact hsize n _
  | cls es ih => exact ih h
  | tupleNil => exact h.elim
  | tupleCons t ts iht ihts =>
    rcases h with h | ⟨v,last,-,hlast,rfl⟩
    · exact iht h
    · exact fun hnil => ihts hlast (List.append_eq_nil_iff.1 hnil).2

section implements
variable {t : Ty} {p : Pointers}

lemma arith_implements (w : Width) :
    Implements Buffer.tape ((arith w).tryRead p) (arith w).grammar := by
  have hbytes : (Int32.ofNat w.bytes).toInt = w.bytes :=
    toInt_ofNat_of_lt (w.le.trans_lt (by decide))
  have hdrawback : Implements Buffer.tape (Buffer.tryDrawback (Int32.ofNat w.bytes)) _ :=
    Buffer.tryDrawback_implements (by omega)
  rw [hbytes,Int.toNat_natCast] at hdrawback
  refine (hdrawback.bind fun bytes =>
    .give (BitVec.ofNat (8*w.bytes) (ofLeBytes bytes))).congr ?_ ?_
  · intro v bytes
    rw [Grammar.accepts_map]
    constructor
    · rintro ⟨bytes,rfl,rfl,hlength⟩
      exact ⟨trivial,(leBytes_bitVec hlength).symm⟩
    · rintro ⟨-,rfl⟩
      exact ⟨_,(ofLeBytes_bitVec w.bytes v).symm,rfl,length_leBytes _ _⟩
  · intro bytes
    rw [Grammar.refuses_map]
    exact Iff.rfl

lemma string_implements : Implements Buffer.tape (string.tryRead p) string.grammar := by
  have hbody : ∀ n : Int32, Implements Buffer.tape
      (if n.toInt < 0 then throw .refused else Buffer.tryDrawback n)
      (if n.toInt < 0 then .refuse else .word n.toInt.toNat) := by
    intro n
    split_ifs with hn
    · exact .refuse
    · exact Buffer.tryDrawback_implements (by omega)
  refine (tryReadInt_implements.bind hbody).congr ?_ ?_
  · intro s bytes
    rw [accepts_sized]
    constructor
    · rintro ⟨n,rest,rfl,hs⟩
      split_ifs at hs with hn
      · exact hs.elim
      · obtain ⟨rfl,hlength⟩ := hs
        obtain ⟨hfits,rfl⟩ := (eq_toNat_iff hn).1 hlength
        exact ⟨hfits,rfl⟩
    · rintro ⟨hfits,rfl⟩
      refine ⟨_,s,rfl,?_⟩
      rw [if_neg (not_ofNat_neg hfits)]
      exact ⟨rfl,(toNat_toInt_ofNat hfits).symm⟩
  · intro bytes
    rw [refuses_sized]
    constructor
    · rintro ⟨n,rest,rfl,hrest⟩
      split_ifs at hrest with hn
      · obtain rfl := hrest
        exact ⟨n,hn,List.append_nil _⟩
      · exact hrest.elim
    · rintro ⟨n,hn,rfl⟩
      refine ⟨n,[],(List.append_nil _).symm,?_⟩
      rw [if_pos hn]
      rfl

lemma vector_implements (h : Implements Buffer.tape (t.tryRead .unset) t.grammar) :
    Implements Buffer.tape ((vector t).tryRead p) (vector t).grammar := by
  have hbody : ∀ n : Int32, Implements Buffer.tape
      (if n.toInt < 0 then throw .refused
        else if n = 0 then return [] else (t.tryRead .unset).replicate n.toInt.toNat)
      (if n.toInt < 0 then .refuse else t.grammar.replicate n.toInt.toNat) := by
    intro n
    split_ifs with hn hzero
    · exact .refuse
    · rw [hzero]
      exact .give []
    · exact h.replicate _
  refine (tryReadInt_implements.bind hbody).congr ?_ ?_
  · intro vs bytes
    rw [accepts_sized]
    constructor
    · rintro ⟨n,rest,rfl,hvs⟩
      split_ifs at hvs with hn
      · exact hvs.elim
      · obtain ⟨hlength,hfits,rfl⟩ := (accepts_elements _ vs rest).1 hvs
        obtain ⟨hlt,rfl⟩ := (eq_toNat_iff hn).1 hlength
        exact ⟨⟨hlt,hfits⟩,rfl⟩
    · rintro ⟨⟨hlt,hfits⟩,rfl⟩
      refine ⟨_,_,rfl,?_⟩
      rw [if_neg (not_ofNat_neg hlt)]
      exact (accepts_elements _ vs _).2 ⟨(toNat_toInt_ofNat hlt).symm,hfits,rfl⟩
  · intro bytes
    rw [refuses_sized]
    constructor
    · rintro ⟨n,rest,rfl,hrest⟩
      split_ifs at hrest with hn
      · obtain rfl := hrest
        exact .inl ⟨n,hn,List.append_nil _⟩
      · obtain ⟨vs,last,hlength,hfits,hlast,rfl⟩ := (refuses_elements _ rest).1 hrest
        exact .inr ⟨n,vs,last,hlength,hfits,hlast,rfl⟩
    · rintro (⟨n,hn,rfl⟩ | ⟨n,vs,last,hlength,hfits,hlast,rfl⟩)
      · refine ⟨n,[],(List.append_nil _).symm,?_⟩
        rw [if_pos hn]
        rfl
      · refine ⟨n,_,rfl,?_⟩
        rw [if_neg (by omega)]
        exact (refuses_elements _ _).2 ⟨vs,last,hlength,hfits,hlast,rfl⟩

lemma list_implements (h : Implements Buffer.tape (t.tryRead .unset) t.grammar) :
    Implements Buffer.tape ((list t).tryRead p) (list t).grammar := by
  have hbody : ∀ n : Int32, Implements Buffer.tape
      (if n = 0 then return []
        else do
          let l ← (t.tryRead .unset).replicate (loopTurns n)
          if n.toInt < 0 then throw .overrun else return l)
      ((t.grammar.replicate (loopTurns n)).bind fun l =>
        if n.toInt < 0 then .nothing else .give l) := by
    intro n
    split_ifs with hzero hn hn
    · subst hzero
      exact absurd hn (by decide)
    · subst hzero
      exact (Implements.give []).bind (fun l => .give l)
    · exact (h.replicate _).bind (fun _ => .nothing)
    · exact (h.replicate _).bind (fun l => .give l)
  refine (tryReadInt_implements.bind hbody).congr ?_ ?_
  · intro vs bytes
    rw [accepts_sized]
    constructor
    · rintro ⟨n,rest,rfl,l,x,y,rfl,hl,hvs⟩
      split_ifs at hvs with hn
      · exact hvs.elim
      · obtain ⟨rfl,rfl⟩ := hvs
        obtain ⟨hlength,hfits,rfl⟩ := (accepts_elements _ vs x).1 hl
        rw [loopTurns,if_neg hn] at hlength
        obtain ⟨hlt,rfl⟩ := (eq_toNat_iff hn).1 hlength
        exact ⟨⟨hlt,hfits⟩,congrArg (intBytes _ ++ ·) (List.append_nil _)⟩
    · rintro ⟨⟨hlt,hfits⟩,rfl⟩
      have hn := not_ofNat_neg hlt
      refine ⟨_,_,rfl,vs,_,[],(List.append_nil _).symm,?_,?_⟩
      · rw [loopTurns,if_neg hn]
        exact (accepts_elements _ vs _).2 ⟨(toNat_toInt_ofNat hlt).symm,hfits,rfl⟩
      · beta_reduce
        rw [if_neg hn]
        exact ⟨rfl,rfl⟩
  · intro bytes
    rw [refuses_sized]
    constructor
    · rintro ⟨n,rest,rfl,hrest | ⟨l,x,y,-,-,hy⟩⟩
      · obtain ⟨vs,last,hlength,hfits,hlast,rfl⟩ := (refuses_elements _ rest).1 hrest
        exact ⟨n,vs,last,hlength,hfits,hlast,rfl⟩
      · split_ifs at hy <;> exact hy.elim
    · rintro ⟨n,vs,last,hlength,hfits,hlast,rfl⟩
      exact ⟨n,_,rfl,.inl ((refuses_elements _ _).2 ⟨vs,last,hlength,hfits,hlast,rfl⟩)⟩

end implements

/-- A read does what the grammar of the type says. -/
theorem tryRead_implements {t : Ty} {p : Pointers} (hreadable : t.Readable p) :
    Implements Buffer.tape (t.tryRead p) t.grammar := by
  induction t generalizing p with
  | arith w => exact arith_implements w
  | string => exact string_implements
  | vector t ih => exact vector_implements (ih hreadable)
  | list t ih => exact list_implements (ih hreadable)
  | cls es ih => exact ih hreadable
  | tupleNil =>
    refine (Implements.give ()).congr ?_ ?_
    · intro v w
      exact ⟨fun h => ⟨trivial,h.2⟩,fun h => ⟨rfl,h.2⟩⟩
    · exact fun w => Iff.rfl
  | tupleCons t ts iht ihts =>
    cases hp : p.inner with
    | none => simp only [Readable,hp] at hreadable
    | some q =>
      simp only [Readable,hp] at hreadable
      simp only [tryRead,hp]
      refine ((iht hreadable.1).bind fun v => (ihts hreadable.2).bind fun vs =>
        .give (v,vs)).congr ?_ ?_
      · rintro ⟨v,vs⟩ bytes
        constructor
        · rintro ⟨v',x,y,rfl,⟨hfits,rfl⟩,hrest⟩
          obtain ⟨vs',heq,hfits',rfl⟩ := Grammar.accepts_map.1 hrest
          cases heq
          exact ⟨⟨hfits,hfits'⟩,rfl⟩
        · rintro ⟨⟨hfits,hfits'⟩,rfl⟩
          exact ⟨v,_,_,rfl,⟨hfits,rfl⟩,Grammar.accepts_map.2 ⟨vs,rfl,hfits',rfl⟩⟩
      · intro bytes
        constructor
        · rintro (hfirst | ⟨v,x,y,rfl,⟨hfits,rfl⟩,hrest⟩)
          · exact .inl hfirst
          · exact .inr ⟨v,y,hfits,Grammar.refuses_map.1 hrest,rfl⟩
        · rintro (hfirst | ⟨v,last,hfits,hlast,rfl⟩)
          · exact .inl hfirst
          · exact .inr ⟨v,_,_,rfl,⟨hfits,rfl⟩,Grammar.refuses_map.2 hlast⟩

end Ty

/-- From inside the block, what the reader gives the read gives too, and stays inside. -/
def AgreesWith {α : Type} (r : Reader Buffer α) (read : Buffer → Option (α × Buffer)) : Prop :=
  ∀ b a b', 0 ≤ b.offset.toInt → b.offset.toInt ≤ b.data.length → r.run b = .ok (a,b') →
    read b = some (a,b') ∧ 0 ≤ b'.offset.toInt ∧ b'.offset.toInt ≤ b'.data.length

namespace AgreesWith
variable {α γ : Type} {r : Reader Buffer α} {read : Buffer → Option (α × Buffer)}

lemma give (a : α) : AgreesWith (pure a) (fun b => some (a,b)) := by
  intro b a' b' hnonneg hle hrun
  cases hrun
  exact ⟨rfl,hnonneg,hle⟩

lemma fault (e : Fault) (read : Buffer → Option (α × Buffer)) :
    AgreesWith (throw e : Reader Buffer α) read := by
  intro b a b' _ _ hrun
  cases hrun

lemma bind {f : α → Reader Buffer γ} {read' : α → Buffer → Option (γ × Buffer)}
    (h : AgreesWith r read) (hf : ∀ a, AgreesWith (f a) (read' a)) :
    AgreesWith (r >>= f) (fun b => (read b).bind fun x => read' x.1 x.2) := by
  intro b c b' hnonneg hle hrun
  obtain ⟨a,mid,hfirst,hrest⟩ := Reader.run_bind_ok.1 hrun
  obtain ⟨hread,hnonneg',hle'⟩ := h b a mid hnonneg hle hfirst
  simp only [hread,Option.bind_some]
  exact hf a mid c b' hnonneg' hle' hrest

lemma map (h : AgreesWith r read) (f : α → γ) :
    AgreesWith (r >>= fun a => pure (f a)) (fun b => (read b).map fun x => (f x.1,x.2)) := by
  have hbind := h.bind (fun a => give (f a))
  simpa only [Option.map_eq_bind,Function.comp_def] using hbind

lemma replicate (h : AgreesWith r read) (n : ℕ) : AgreesWith (r.replicate n) (readArray read n) := by
  induction n with
  | zero => exact give []
  | succ n ih => exact h.bind (fun a => ih.map (fun as => a::as))

lemma drawback (len : Int32) : AgreesWith (Buffer.tryDrawback len) (fun b => b.drawback len) := by
  intro b bytes b' hnonneg hle hrun
  change Buffer.tryDrawback len b = _ at hrun
  rw [Buffer.tryDrawback] at hrun
  split_ifs at hrun with hzero hin
  · cases hrun
    subst hzero
    refine ⟨?_,hnonneg,hle⟩
    simp [Buffer.drawback,hnonneg,hle]
  · cases hrun
    refine ⟨if_pos ⟨hin.1,hin.2.1,hin.2.2.1⟩,?_⟩
    rw [toInt_add_of_fits ⟨by omega,by omega⟩]
    exact ⟨by omega,hin.2.2.1⟩

lemma readInt : AgreesWith tryReadInt readInt := (drawback 4).map intOfBytes

/-- A vector or list, by its size. -/
lemma elements (h : AgreesWith r read) (n : Int32) :
    AgreesWith (if n = 0 then pure [] else r.replicate n.toInt.toNat) (fun b =>
      if n = 0 then some ([],b) else readArray read n.toInt.toNat b) := by
  by_cases hzero : n = 0
  · simp only [if_pos hzero]
    exact give []
  · simp only [if_neg hzero]
    exact h.replicate _

theorem tryRead (t : Ty) (p : Pointers) : AgreesWith (t.tryRead p) (t.read p) := by
  induction t generalizing p with
  | arith w => exact (drawback _).map _
  | string =>
    have hbody : ∀ n : Int32, AgreesWith
        (if n.toInt < 0 then throw .refused else Buffer.tryDrawback n)
        (fun b => if n.toInt < 0 then none else b.drawback n) := by
      intro n
      by_cases hn : n.toInt < 0
      · simp only [if_pos hn]
        exact fault _ _
      · simp only [if_neg hn]
        exact drawback n
    exact readInt.bind hbody
  | vector t ih =>
    have hbody : ∀ n : Int32, AgreesWith
        (if n.toInt < 0 then throw .refused
          else if n = 0 then pure [] else (t.tryRead .unset).replicate n.toInt.toNat)
        (fun b => if n.toInt < 0 then none
          else if n = 0 then some ([],b) else readArray (t.read .unset) n.toInt.toNat b) := by
      intro n
      by_cases hn : n.toInt < 0
      · simp only [if_pos hn]
        exact fault _ _
      · simp only [if_neg hn]
        exact (ih .unset).elements n
    exact readInt.bind hbody
  | list t ih =>
    have hbody : ∀ n : Int32, AgreesWith
        (if n = 0 then pure []
          else do
            let l ← (t.tryRead .unset).replicate (loopTurns n)
            if n.toInt < 0 then throw .overrun else pure l)
        (fun b => if n.toInt < 0 then none
          else if n = 0 then some ([],b) else readArray (t.read .unset) n.toInt.toNat b) := by
      intro n
      by_cases hn : n.toInt < 0
      · intro b l b' _ _ hrun
        rw [if_neg (by rintro rfl; exact absurd hn (by decide))] at hrun
        obtain ⟨l',mid,-,hrest⟩ := Reader.run_bind_ok.1 hrun
        rw [if_pos hn] at hrest
        cases hrest
      · simp only [if_neg hn,loopTurns,bind_pure]
        exact (ih .unset).elements n
    exact readInt.bind hbody
  | cls es ih => exact ih p.getES
  | tupleNil => exact give ()
  | tupleCons t ts iht ihts =>
    cases hp : p.inner with
    | none =>
      intro b v b' _ _ hrun
      simp only [Ty.tryRead,hp] at hrun
      cases hrun
    | some q =>
      have hboth := (iht q).bind (fun v => (ihts p).map (fun vs => (v,vs)))
      simp only [Ty.tryRead,Ty.read,hp]
      exact hboth

end AgreesWith

namespace Ty

/-- A `Read` that has not wrapped the offset has made no copy from outside the block. -/
theorem tryRead_of_read {t : Ty} {p : Pointers} {b b' : Buffer} {v : t.Val}
    (hreadable : t.Readable p) (h : t.read p b = some (v,b')) (hend : 0 ≤ b'.offset.toInt) :
    (t.tryRead p).run b = .ok (v,b') := by
  obtain ⟨hfits,htook⟩ := read_took h
  refine ((tryRead_implements hreadable).ok_iff b v b').2 ⟨_,⟨hfits,rfl⟩,?_,?_⟩
  · by_cases hnil : t.encode v = []
    · exact .inl hnil
    · have hoffset := htook.offset_toInt hend
      have hlt := b'.offset.toInt_lt
      exact .inr ⟨(htook.inside hnil).1,htook.place,by omega⟩
  · obtain ⟨data,offset⟩ := b'
    obtain ⟨rfl,rfl,-,-⟩ := htook
    rfl

end Ty
end GDFileStore
