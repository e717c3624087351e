import GDFileStore.Sequences.Numerals

/-! Two texts in parts, read side by side. They are one text where the borders between the parts can
be passed one after the other, each with what the one text is ahead of the other there. -/
namespace GDFileStore.Sequences
variable {α : Type*}

/-- How far one text is ahead of another, or behind it, at a border between parts. -/
structure Border (α : Type*) where
  ahead : List α
  behind : List α
  one_sided : ahead = [] ∨ behind = []

namespace Border

/-- Neither text is ahead. -/
def level : Border α := ⟨[],[],.inl rfl⟩

/-- The border between what has been read of the two texts. -/
def Lies (e : Border α) (front front' : List α) : Prop := front ++ e.behind = front' ++ e.ahead

/-- Between two borders the one text has the part `x`, the other the part `y`. -/
def Text (e : Border α) (x y : List α) (e' : Border α) : Prop :=
  e.ahead ++ x ++ e'.behind = e.behind ++ y ++ e'.ahead

variable {e e' : Border α} {front front' x y : List α}

lemma lies_level_iff : level.Lies front front' ↔ front = front' := by
  rw [Lies,level,List.append_nil,List.append_nil]

lemma text_iff (h : e.Lies front front') : e.Text x y e' ↔ e'.Lies (front ++ x) (front' ++ y) := by
  rw [Lies] at h
  rw [Text,Lies]
  rcases e.one_sided with hahead | hbehind
  · rw [hahead,List.append_nil] at h
    rw [hahead,← h]
    simp
  · rw [hbehind,List.append_nil] at h
    rw [hbehind,h]
    simp

/-- Where two texts are one, there is a border after any parts of them. -/
lemma exists_lies {rest rest' : List α} (h : front ++ rest = front' ++ rest') :
    ∃ e : Border α, e.Lies front front' := by
  rcases List.append_eq_append_iff.1 h with ⟨u,rfl,_⟩ | ⟨u,rfl,_⟩
  · exact ⟨⟨[],u,.inl rfl⟩,by simp [Lies]⟩
  · exact ⟨⟨u,[],.inr rfl⟩,by simp [Lies]⟩

/-- The parts that are left take the two texts from this border to their ends. -/
def Passes : Border α → List (List α × List α) → Prop
  | e,[] => e = level
  | e,p::parts => ∃ e' : Border α, e.Text p.1 p.2 e' ∧ e'.Passes parts

/-- The texts are one exactly where all their borders can be passed. -/
theorem passes_iff {parts : List (List α × List α)} (h : e.Lies front front') :
    e.Passes parts ↔
      front ++ (parts.map Prod.fst).flatten = front' ++ (parts.map Prod.snd).flatten := by
  induction parts generalizing e front front' with
  | nil =>
    simp only [Passes,List.map_nil,List.flatten_nil,List.append_nil]
    constructor
    · rintro rfl
      exact lies_level_iff.1 h
    · rintro rfl
      have hsame : e.behind = e.ahead := List.append_cancel_left h
      obtain ⟨ahead,behind,hside⟩ := e
      obtain rfl : behind = ahead := hsame
      obtain rfl : behind = [] := hside.elim id id
      rfl
  | cons p parts ih =>
    simp only [Passes,List.map_cons,List.flatten_cons,← List.append_assoc]
    constructor
    · rintro ⟨e',htext,hrest⟩
      exact (ih ((text_iff h).1 htext)).1 hrest
    · intro hsame
      obtain ⟨e',he'⟩ := exists_lies hsame
      exact ⟨e',(text_iff h).2 he',(ih he').2 hsame⟩

/-- The text `d` and the numeral of `k` after it are the numeral of `l` and the text `d'` after it:
the numerals have digits in common, or a text between them. -/
def Meets (d : List UInt8) (k l : ℤ) (d' : List UInt8) : Prop :=
  (∃ m, Headed d m l ∧ Longer m d' k) ∨
    ∃ u x v : List UInt8, Reads u l ∧ Reads v k ∧ d = u ++ x ∧ d' = x ++ v

lemma meets_iff {d d' : List UInt8} {k l : ℤ} :
    Meets d k l d' ↔ d ++ signedDecimal k = signedDecimal l ++ d' := by
  constructor
  · rintro (⟨m,hheaded,hlonger⟩ | ⟨u,x,v,hu,hv,rfl,rfl⟩)
    · rw [longer_iff.1 hlonger,headed_iff.1 hheaded,List.append_assoc]
    · rw [reads_iff.1 hu,reads_iff.1 hv,List.append_assoc]
  · intro h
    rcases List.append_eq_append_iff.1 h with ⟨u,hl,hk⟩ | ⟨x,hd,hd'⟩
    · -- The numerals overlap in `u`.
      by_cases hu : u = []
      · refine .inr ⟨d,[],d',?_,?_,by rw [List.append_nil],rfl⟩
        · rw [reads_iff,hl,hu,List.append_nil]
        · rw [reads_iff,hk,hu,List.nil_append]
      · rcases eq_signedDecimal_of_append hu hk with rfl | ⟨m,hm⟩
        · obtain ⟨b,hlast,hb,-⟩ := getLast?_append_signedDecimal [] l
          rw [List.nil_append,hl,List.getLast?_concat,Option.some_inj] at hlast
          rw [← hlast] at hb
          exact absurd hb (by decide)
        · rw [reads_iff] at hm
          exact .inl ⟨m,headed_iff.2 (hm ▸ hl),longer_iff.2 (hm ▸ hk)⟩
    · exact .inr ⟨_,x,_,reads_iff.2 rfl,reads_iff.2 rfl,hd,hd'⟩

/-- Between two borders the one text has the numeral of `k`, the other that of `l`. -/
def Number (e : Border UInt8) (k l : ℤ) (e' : Border UInt8) : Prop :=
  e.behind = [] ∧ e'.ahead = [] ∧ (∃ m, Headed e.ahead k m ∧ Longer m e'.behind l) ∨
    e.ahead = [] ∧ e'.behind = [] ∧ (∃ m, Headed e.behind l m ∧ Longer m e'.ahead k) ∨
    e.behind = [] ∧ e'.behind = [] ∧ Meets e.ahead k l e'.ahead ∨
    e.ahead = [] ∧ e'.ahead = [] ∧ Meets e.behind l k e'.behind

/-- A numeral with a text before it and one after it, or none, is a numeral. -/
lemma exists_headed_longer_iff {c d : List UInt8} {k l : ℤ} :
    (∃ m, Headed d k m ∧ Longer m c l) ↔ d ++ signedDecimal k ++ c = signedDecimal l := by
  constructor
  · rintro ⟨m,hheaded,hlonger⟩
    rw [longer_iff.1 hlonger,headed_iff.1 hheaded]
  · intro h
    have hne : d ++ signedDecimal k ≠ [] := by simp [signedDecimal_ne_nil]
    rcases eq_signedDecimal_of_append hne h.symm with hminus | ⟨m,hm⟩
    · obtain ⟨b,hlast,hb,-⟩ := getLast?_append_signedDecimal d k
      rw [hminus,List.getLast?_singleton,Option.some_inj] at hlast
      rw [← hlast] at hb
      exact absurd hb (by decide)
    · rw [reads_iff] at hm
      exact ⟨m,headed_iff.2 hm.symm,longer_iff.2 (by rw [← h,hm])⟩

theorem number_iff {e e' : Border UInt8} {k l : ℤ} :
    e.Number k l e' ↔ e.Text (signedDecimal k) (signedDecimal l) e' := by
  simp only [Number,exists_headed_longer_iff,meets_iff,Text]
  constructor
  · rintro (⟨hb,ha,h⟩ | ⟨ha,hb,h⟩ | ⟨hb,hb',h⟩ | ⟨ha,ha',h⟩)
    · rw [hb,ha,h]
      simp
    · rw [ha,hb,h]
      simp
    · rw [hb,hb',List.append_nil,h]
      rfl
    · rw [ha,ha',List.append_nil,h]
      rfl
  · intro h
    rcases e.one_sided with ha | hb <;> rcases e'.one_sided with ha' | hb'
    · rw [ha,ha',List.append_nil] at h
      exact .inr (.inr (.inr ⟨ha,ha',h.symm⟩))
    · rw [ha,hb',List.append_nil] at h
      exact .inr (.inl ⟨ha,hb',h.symm⟩)
    · rw [hb,ha',List.append_nil] at h
      exact .inl ⟨hb,ha',h⟩
    · rw [hb,hb',List.append_nil] at h
      exact .inr (.inr (.inl ⟨hb,hb',h⟩))

end Border
end GDFileStore.Sequences
