import Mathlib.Data.List.Infix

/-! Decoders that take a value off the front of a list and leave the rest, with the rules for
what they make of the front a writer has put there. -/
namespace GDFileStore.Codec

/-- A decoder leaves a suffix of what it is given. -/
structure Decoder (β α : Type) where
  run : List β → Option (α × List β)
  suffix : ∀ {l rest : List β} {a : α}, run l = some (a,rest) → rest <:+ l

namespace Decoder
variable {β α γ : Type}

def give (a : α) : Decoder β α where
  run l := some (a,l)
  suffix := by
    intro l rest b h
    cases h
    exact List.suffix_refl _

def fail : Decoder β α where
  run _ := none
  suffix := nofun

/-- The next `n` items. -/
def take (n : ℕ) : Decoder β (List β) where
  run l := if n ≤ l.length then some (l.take n,l.drop n) else none
  suffix := by
    intro l rest a h
    split at h
    · cases h
      exact List.drop_suffix n l
    · cases h

def bind (d : Decoder β α) (f : α → Decoder β γ) : Decoder β γ where
  run l := (d.run l).bind (fun r => (f r.1).run r.2)
  suffix := by
    intro l rest c h
    obtain ⟨⟨a,mid⟩,hd,hf⟩ := Option.bind_eq_some_iff.1 h
    exact ((f a).suffix hf).trans (d.suffix hd)

def map (f : α → γ) (d : Decoder β α) : Decoder β γ := d.bind (fun a => give (f a))

/-- `n` values in a row. -/
def replicate (d : Decoder β α) : ℕ → Decoder β (List α)
  | 0 => give []
  | n+1 => d.bind (fun a => (d.replicate n).map (fun as => a::as))

@[simp] lemma run_give (a : α) (l : List β) : (give a).run l = some (a,l) := rfl

lemma run_bind (d : Decoder β α) (f : α → Decoder β γ) (l : List β) :
    (d.bind f).run l = (d.run l).bind (fun r => (f r.1).run r.2) := rfl

lemma run_map (f : α → γ) (d : Decoder β α) (l : List β) :
    (d.map f).run l = (d.run l).map (fun r => (f r.1,r.2)) := by
  rw [map,run_bind]
  cases d.run l <;> rfl

/-- Whatever follows `bytes`, the decoder takes exactly them and makes `a` of them. -/
def Reads (d : Decoder β α) (bytes : List β) (a : α) : Prop :=
  ∀ rest, d.run (bytes ++ rest) = some (a,rest)

namespace Reads
variable {d : Decoder β α} {bytes more : List β} {a : α}

lemma give (a : α) : (give a : Decoder β α).Reads [] a := fun _ => rfl

lemma take (bytes : List β) : (take bytes.length).Reads bytes bytes := by
  intro rest
  simp [Decoder.take]

lemma bind {f : α → Decoder β γ} {c : γ} (hd : d.Reads bytes a) (hf : (f a).Reads more c) :
    (d.bind f).Reads (bytes ++ more) c := by
  intro rest
  rw [run_bind,List.append_assoc,hd,Option.bind_some,hf]

lemma map (f : α → γ) (hd : d.Reads bytes a) : (d.map f).Reads bytes (f a) := by
  intro rest
  rw [run_map,hd,Option.map_some]

/-- What a decoder reads cannot be the beginning of anything else that it reads. -/
theorem append_inj {bytes' rest rest' : List β} {a' : α} (h : d.Reads bytes a)
    (h' : d.Reads bytes' a') (heq : bytes ++ rest = bytes' ++ rest') : a = a' ∧ rest = rest' := by
  have hrun := h rest
  rw [heq,h' rest'] at hrun
  obtain ⟨rfl,rfl⟩ := Prod.mk.inj (Option.some.inj hrun)
  exact ⟨rfl,rfl⟩

/-- Values written one after the other are read one after the other. -/
theorem replicate {encode : α → List β} {as : List α} (h : ∀ a ∈ as, d.Reads (encode a) a) :
    (d.replicate as.length).Reads (as.flatMap encode) as := by
  induction as with
  | nil => exact give []
  | cons a as ih =>
    rw [List.length_cons,Decoder.replicate,List.flatMap_cons]
    refine (h a List.mem_cons_self).bind (.map _ ?_)
    exact ih (fun b hb => h b (List.mem_cons_of_mem a hb))

end Reads
end Decoder
end GDFileStore.Codec
