import Mathlib.Data.List.Basic
import Mathlib.Tactic.Common

/-! Readers that can refuse their input or run over it, and grammars that say on which words they do
what. The rules build the grammar of a reader from those of its parts. -/
namespace GDFileStore.Codec

/-- How a reader ends without a value: it throws, or it leaves the input. -/
inductive Fault
  | refused
  | overrun
  deriving DecidableEq, Repr

section except
variable {ε α γ : Type} {x : Except ε α} {f : α → Except ε γ}

lemma except_bind_ok {c : γ} : x >>= f = .ok c ↔ ∃ a, x = .ok a ∧ f a = .ok c := by
  cases x with
  | error e => simp [Bind.bind,Except.bind]
  | ok a => simp [Bind.bind,Except.bind]

lemma except_bind_error {e : ε} :
    x >>= f = .error e ↔ x = .error e ∨ ∃ a, x = .ok a ∧ f a = .error e := by
  cases x with
  | error e' => simp [Bind.bind,Except.bind]
  | ok a => simp [Bind.bind,Except.bind]

end except

abbrev Reader (σ α : Type) := StateT σ (Except Fault) α

/-- What is ahead of a position, and the positions after it. -/
structure Tape (β σ : Type) where
  ahead : σ → List β → Prop
  advance : σ → ℕ → σ
  ahead_nil : ∀ s, ahead s []
  ahead_append : ∀ s v w, ahead s (v ++ w) ↔ ahead s v ∧ ahead (advance s v.length) w
  advance_zero : ∀ s, advance s 0 = s
  advance_add : ∀ s m n, advance s (m+n) = advance (advance s m) n

/-- The words with a value, and those after which a reader is to throw. -/
structure Grammar (β α : Type) where
  accepts : α → List β → Prop
  refuses : List β → Prop

namespace Grammar
variable {β α γ : Type}

def give (a : α) : Grammar β α where
  accepts b w := b = a ∧ w = []
  refuses _ := False

def refuse : Grammar β α where
  accepts _ _ := False
  refuses w := w = []

/-- No word at all. -/
def nothing : Grammar β α where
  accepts _ _ := False
  refuses _ := False

/-- Any `n` letters. -/
def word (n : ℕ) : Grammar β (List β) where
  accepts v w := v = w ∧ w.length = n
  refuses _ := False

def bind (g : Grammar β α) (f : α → Grammar β γ) : Grammar β γ where
  accepts c u := ∃ a v w, u = v ++ w ∧ g.accepts a v ∧ (f a).accepts c w
  refuses u := g.refuses u ∨ ∃ a v w, u = v ++ w ∧ g.accepts a v ∧ (f a).refuses w

/-- `n` values in a row. -/
def replicate (g : Grammar β α) : ℕ → Grammar β (List α)
  | 0 => give []
  | n+1 => g.bind (fun a => (g.replicate n).bind (fun as => give (a::as)))

section map
variable {g : Grammar β α} {f : α → γ} {c : γ} {w : List β}

@[simp] lemma accepts_map :
    (g.bind (fun a => give (f a))).accepts c w ↔ ∃ a, c = f a ∧ g.accepts a w := by
  constructor
  · rintro ⟨a,v,_,rfl,ha,rfl,rfl⟩
    exact ⟨a,rfl,by rwa [List.append_nil]⟩
  · rintro ⟨a,rfl,ha⟩
    exact ⟨a,w,[],by simp,ha,rfl,rfl⟩

@[simp] lemma refuses_map : (g.bind (fun a => give (f a))).refuses w ↔ g.refuses w := by
  simp [bind,give]

end map

section replicate
variable {g : Grammar β α} {fits : α → Prop} {encode : α → List β}
  (h : ∀ a w, g.accepts a w ↔ fits a ∧ w = encode a)
include h

/-- A row of values is accepted as the row of their words. -/
theorem accepts_replicate (n : ℕ) (as : List α) (w : List β) : (g.replicate n).accepts as w ↔
    as.length = n ∧ (∀ a ∈ as, fits a) ∧ w = as.flatMap encode := by
  induction n generalizing as w with
  | zero =>
    constructor
    · rintro ⟨rfl,rfl⟩
      simp
    · rintro ⟨hlength,-,rfl⟩
      obtain rfl := List.eq_nil_of_length_eq_zero hlength
      exact ⟨rfl,rfl⟩
  | succ n ih =>
    constructor
    · rintro ⟨a,v,u,rfl,ha,hrest⟩
      obtain ⟨as',hcons,hrest⟩ := accepts_map.1 hrest
      obtain ⟨hlength,hfits,rfl⟩ := (ih as' u).1 hrest
      subst hcons
      obtain ⟨hfit,rfl⟩ := (h a v).1 ha
      exact ⟨by simp [hlength],by simpa using ⟨hfit,hfits⟩,rfl⟩
    · rintro ⟨hlength,hfits,rfl⟩
      obtain ⟨a,as',rfl⟩ := List.exists_cons_of_length_eq_add_one hlength
      rw [List.forall_mem_cons] at hfits
      refine ⟨a,encode a,as'.flatMap encode,rfl,(h _ _).2 ⟨hfits.1,rfl⟩,accepts_map.2 ⟨as',rfl,?_⟩⟩
      exact (ih _ _).2 ⟨by simpa using hlength,hfits.2,rfl⟩

/-- A row is refused where one of its values is, after the words of those before it. -/
theorem refuses_replicate (n : ℕ) (w : List β) : (g.replicate n).refuses w ↔
    ∃ (as : List α) (last : List β), as.length < n ∧ (∀ a ∈ as, fits a) ∧ g.refuses last ∧
      w = as.flatMap encode ++ last := by
  induction n generalizing w with
  | zero => simp [replicate,give]
  | succ n ih =>
    constructor
    · rintro (hfirst | ⟨a,v,u,rfl,ha,hrest⟩)
      · exact ⟨[],w,by simp,by simp,hfirst,rfl⟩
      · obtain ⟨as,last,hlength,hfits,hlast,rfl⟩ := (ih u).1 (refuses_map.1 hrest)
        obtain ⟨hfit,rfl⟩ := (h a v).1 ha
        refine ⟨a::as,last,by simpa using hlength,by simpa using ⟨hfit,hfits⟩,hlast,?_⟩
        rw [List.flatMap_cons,List.append_assoc]
    · rintro ⟨as,last,hlength,hfits,hlast,rfl⟩
      cases as with
      | nil => exact .inl hlast
      | cons a as =>
        rw [List.forall_mem_cons] at hfits
        rw [List.flatMap_cons,List.append_assoc]
        refine .inr ⟨a,encode a,_,rfl,(h _ _).2 ⟨hfits.1,rfl⟩,refuses_map.2 ((ih _).2 ?_)⟩
        exact ⟨as,last,by simpa using hlength,hfits.2,hlast,rfl⟩

end replicate
end Grammar

namespace Reader
variable {σ α γ : Type} {r : Reader σ α} {f : α → Reader σ γ} {s : σ}

/-- `n` values in a row. -/
def replicate (r : Reader σ α) : ℕ → Reader σ (List α)
  | 0 => pure []
  | n+1 => do
    let a ← r
    let as ← r.replicate n
    return a::as

lemma run_bind_ok {result : γ × σ} : (r >>= f).run s = .ok result ↔
    ∃ a mid, r.run s = .ok (a,mid) ∧ (f a).run mid = .ok result := by
  rw [StateT.run_bind,except_bind_ok,Prod.exists]

lemma run_bind_error {e : Fault} : (r >>= f).run s = .error e ↔
    r.run s = .error e ∨ ∃ a mid, r.run s = .ok (a,mid) ∧ (f a).run mid = .error e := by
  rw [StateT.run_bind,except_bind_error,Prod.exists]

end Reader

/-- The reader gives a value exactly where one of its words is ahead, and has then moved over the
word; it throws exactly where a word is ahead after which it is to. -/
structure Implements {β σ α : Type} (T : Tape β σ) (r : Reader σ α) (g : Grammar β α) : Prop where
  ok_iff : ∀ s a s', r.run s = .ok (a,s') ↔
    ∃ w, g.accepts a w ∧ T.ahead s w ∧ s' = T.advance s w.length
  refused_iff : ∀ s, r.run s = .error .refused ↔ ∃ w, g.refuses w ∧ T.ahead s w

namespace Implements
variable {β σ α γ : Type} {T : Tape β σ} {r : Reader σ α} {g g' : Grammar β α}

lemma congr (h : Implements T r g) (haccepts : ∀ a w, g.accepts a w ↔ g'.accepts a w)
    (hrefuses : ∀ w, g.refuses w ↔ g'.refuses w) : Implements T r g' where
  ok_iff s a s' := by simp only [h.ok_iff,haccepts]
  refused_iff s := by simp only [h.refused_iff,hrefuses]

lemma give (a : α) : Implements T (pure a) (.give a) where
  ok_iff s b s' := by
    constructor
    · intro hrun
      cases hrun
      exact ⟨[],⟨rfl,rfl⟩,T.ahead_nil s,(T.advance_zero s).symm⟩
    · rintro ⟨_,⟨rfl,rfl⟩,-,rfl⟩
      rw [List.length_nil,T.advance_zero]
      rfl
  refused_iff s := by
    refine iff_of_false (by intro hrun; cases hrun) ?_
    rintro ⟨_,hw,-⟩
    exact hw

lemma refuse : Implements T (throw .refused : Reader σ α) .refuse where
  ok_iff s a s' := by
    refine iff_of_false (by intro hrun; cases hrun) ?_
    rintro ⟨_,hw,-⟩
    exact hw
  refused_iff s := iff_of_true rfl ⟨[],rfl,T.ahead_nil s⟩

lemma nothing : Implements T (throw .overrun : Reader σ α) .nothing where
  ok_iff s a s' := by
    refine iff_of_false (by intro hrun; cases hrun) ?_
    rintro ⟨_,hw,-⟩
    exact hw
  refused_iff s := by
    refine iff_of_false (by intro hrun; cases hrun) ?_
    rintro ⟨_,hw,-⟩
    exact hw

/-- One reader after another reads one word after another. -/
theorem bind {f : α → Reader σ γ} {k : α → Grammar β γ} (h : Implements T r g)
    (hf : ∀ a, Implements T (f a) (k a)) : Implements T (r >>= f) (g.bind k) where
  ok_iff s c s' := by
    rw [Reader.run_bind_ok]
    constructor
    · rintro ⟨a,mid,hfirst,hrest⟩
      obtain ⟨v,ha,hv,rfl⟩ := (h.ok_iff s a mid).1 hfirst
      obtain ⟨w,hc,hw,rfl⟩ := ((hf a).ok_iff _ c s').1 hrest
      refine ⟨v ++ w,⟨a,v,w,rfl,ha,hc⟩,(T.ahead_append s v w).2 ⟨hv,hw⟩,?_⟩
      rw [List.length_append,T.advance_add]
    · rintro ⟨_,⟨a,v,w,rfl,ha,hc⟩,hahead,rfl⟩
      obtain ⟨hv,hw⟩ := (T.ahead_append s v w).1 hahead
      refine ⟨a,_,(h.ok_iff s a _).2 ⟨v,ha,hv,rfl⟩,?_⟩
      rw [List.length_append,T.advance_add]
      exact ((hf a).ok_iff _ c _).2 ⟨w,hc,hw,rfl⟩
  refused_iff s := by
    rw [Reader.run_bind_error]
    constructor
    · rintro (hfirst | ⟨a,mid,hfirst,hrest⟩)
      · obtain ⟨v,hv,hahead⟩ := (h.refused_iff s).1 hfirst
        exact ⟨v,.inl hv,hahead⟩
      · obtain ⟨v,ha,hv,rfl⟩ := (h.ok_iff s a mid).1 hfirst
        obtain ⟨w,hw,hahead⟩ := ((hf a).refused_iff _).1 hrest
        exact ⟨v ++ w,.inr ⟨a,v,w,rfl,ha,hw⟩,(T.ahead_append s v w).2 ⟨hv,hahead⟩⟩
    · rintro ⟨_,hfirst | ⟨a,v,w,rfl,ha,hw⟩,hahead⟩
      · exact .inl ((h.refused_iff s).2 ⟨_,hfirst,hahead⟩)
      · obtain ⟨hv,hahead⟩ := (T.ahead_append s v w).1 hahead
        exact .inr ⟨a,_,(h.ok_iff s a _).2 ⟨v,ha,hv,rfl⟩,((hf a).refused_iff _).2 ⟨w,hw,hahead⟩⟩

lemma replicate (h : Implements T r g) (n : ℕ) : Implements T (r.replicate n) (g.replicate n) := by
  induction n with
  | zero => exact give []
  | succ n ih => exact h.bind (fun a => ih.bind (fun as => give (a::as)))

end Implements
end GDFileStore.Codec
