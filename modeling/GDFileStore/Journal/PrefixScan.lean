import GDFileStore.Journal.Disk

/-! The scan for the records whose key begins with a prefix. It steps back to the last key that is
not after the prefix and goes forward from there, so it finds nothing in a database that has keys
after the prefix only. -/
namespace GDFileStore
open Sequences

namespace RocksKV

/-- The records whose key begins with the prefix, each once and in the order of the keys. -/
structure IsPrefixScan (db : Database) (pre : Bytes) (found : List (Bytes × Bytes)) : Prop where
  mem : ∀ e, e ∈ found ↔ e ∈ db.entries ∧ pre <+: e.1
  sorted : Sorted Bytes.lt found

lemma beginWith_iff {pre str : Bytes} : beginWith pre str = true ↔ pre <+: str := by
  rw [beginWith,List.prefix_iff_eq_take]
  split
  · rename_i hlong
    refine iff_of_false (by simp) ?_
    intro heq
    have hlen := congrArg List.length heq
    rw [List.length_take] at hlen
    omega
  · rw [beq_iff_eq,eq_comm]

/-- A key that begins with the prefix is not before it. -/
lemma not_lt_of_begins {pre key : Bytes} (h : pre <+: key) : ¬Bytes.lt key pre := h.le

lemma isPrefixScan_filter (db : Database) (pre : Bytes) :
    IsPrefixScan db pre (db.entries.filter (fun e => beginWith pre e.1)) where
  mem := by
    intro e
    rw [List.mem_filter,beginWith_iff]
  sorted := db.sorted.filter _

lemma isPrefixScan_nil_iff {db : Database} {pre : Bytes} :
    IsPrefixScan db pre [] ↔ ∀ e ∈ db.entries, ¬pre <+: e.1 := by
  constructor
  · intro h e he hpre
    exact List.not_mem_nil ((h.mem e).2 ⟨he,hpre⟩)
  · intro h
    refine ⟨fun e => ?_,.nil⟩
    exact iff_of_false List.not_mem_nil (fun he => h e he.1 he.2)

/-- Of the keys that are not after the prefix only the last can begin with it. -/
lemma filter_upto {db : Database} {pre : Bytes} {front : List (Bytes × Bytes)}
    {last : Bytes × Bytes} (h : db.entries.filter (fun e => ¬Bytes.lt pre e.1) = front ++ [last]) :
    front.filter (fun e => beginWith pre e.1) = [] := by
  have hsorted : Sorted Bytes.lt (front ++ [last]) := h ▸ db.sorted.filter _
  have hlast : ¬Bytes.lt pre last.1 := by
    have hmem : last ∈ db.entries.filter (fun e => ¬Bytes.lt pre e.1) := by
      rw [h]
      exact List.mem_append_right _ (List.mem_singleton_self _)
    simpa using (List.mem_filter.1 hmem).2
  rw [List.filter_eq_nil_iff]
  intro e he
  have hbefore : Bytes.lt e.1 last.1 :=
    (List.pairwise_append.1 hsorted).2.2 e he last (List.mem_singleton_self _)
  rw [beginWith_iff]
  intro hpre
  -- The key is before the last one, and that is not after the prefix.
  obtain hlt | heq | hgt := trichotomous_of Bytes.lt pre last.1
  · exact hlast hlt
  · exact not_lt_of_begins hpre (heq ▸ hbefore)
  · exact not_lt_of_begins hpre (IsTrans.trans _ _ _ hbefore hgt)

/-- With a key that is not after the prefix the scan misses no record. -/
theorem getMatchPrefix_eq {db : Database} {pre : Bytes}
    (h : ∃ e ∈ db.entries, ¬Bytes.lt pre e.1) :
    getMatchPrefix db pre = db.entries.filter (fun e => beginWith pre e.1) := by
  obtain ⟨e,he,hnot⟩ := h
  have hmem : e ∈ db.entries.filter (fun e => ¬Bytes.lt pre e.1) :=
    List.mem_filter.2 ⟨he,by simpa using hnot⟩
  obtain ⟨front,last,hsplit⟩ := (List.eq_nil_or_concat' _).resolve_left (List.ne_nil_of_mem hmem)
  have hentries := db.sorted.split pre
  rw [getMatchPrefix,hsplit,List.getLast?_concat]
  rw [hsplit] at hentries
  conv_rhs => rw [← hentries]
  rw [List.append_assoc,List.filter_append,filter_upto hsplit]
  rfl

lemma getMatchPrefix_eq_nil {db : Database} {pre : Bytes}
    (h : ¬∃ e ∈ db.entries, ¬Bytes.lt pre e.1) : getMatchPrefix db pre = [] := by
  have hnil : db.entries.filter (fun e => ¬Bytes.lt pre e.1) = [] := by
    rw [List.filter_eq_nil_iff]
    intro e he hnot
    exact h ⟨e,he,by simpa using hnot⟩
  rw [getMatchPrefix,hnil]
  rfl

/-- The scan returns the records under the prefix exactly when some key is not after the prefix,
or there is no such record. -/
theorem getMatchPrefix_isPrefixScan_iff (db : Database) (pre : Bytes) :
    IsPrefixScan db pre (getMatchPrefix db pre) ↔
      (∃ e ∈ db.entries, ¬Bytes.lt pre e.1) ∨ ∀ e ∈ db.entries, ¬pre <+: e.1 := by
  by_cases h : ∃ e ∈ db.entries, ¬Bytes.lt pre e.1
  · rw [getMatchPrefix_eq h]
    exact iff_of_true (isPrefixScan_filter db pre) (.inl h)
  · rw [getMatchPrefix_eq_nil h,isPrefixScan_nil_iff,or_iff_right h]

/-- A database with one record, whose key begins with the prefix and is longer. -/
theorem getMatchPrefix_misses_all : ∃ (db : Database) (pre : Bytes),
    ¬IsPrefixScan db pre (getMatchPrefix db pre) := by
  refine ⟨(∅ : Database).insert (lit "pre0") (lit "dsda"),lit "pre",?_⟩
  intro h
  have hmem := (h.mem (lit "pre0",lit "dsda")).2 ⟨by decide,by decide⟩
  exact absurd hmem (by decide)

end RocksKV
end GDFileStore
