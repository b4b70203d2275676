import Mathlib.Logic.Function.Basic
import Mathlib.Data.List.Induction

/-!
# Write batches over a key-value store

A store answers each key with its value, if it has one. A batch is a list of
writes and deletes, oldest first, that is applied to the store as a whole. A
reader that must see the batch before it is applied scans it for the last
operation on its key and falls back on the store; `overlay_eq_applyBatch` says
that such a reader sees exactly the store the batch will leave.
-/

namespace KeyValue

variable {K V : Type*} [DecidableEq K]

/-- The content of a store. -/
abbrev Store (K V : Type*) := K → Option V

inductive WriteOp (K V : Type*) where
  | put (k : K) (v : V)
  | delete (k : K)

/-- A batch, oldest operation first. -/
abbrev Batch (K V : Type*) := List (WriteOp K V)

def WriteOp.apply (s : Store K V) : WriteOp K V → Store K V
  | .put k v => Function.update s k (some v)
  | .delete k => Function.update s k none

def applyBatch (s : Store K V) (b : Batch K V) : Store K V := b.foldl WriteOp.apply s

/-- What one more operation makes of the last one found so far for `k`. -/
def WriteOp.scan (k : K) (found : Option (Option V)) : WriteOp K V → Option (Option V)
  | .put k' v => if k' = k then some (some v) else found
  | .delete k' => if k' = k then some none else found

/-- The last operation on `k`: `some none` is a delete, `none` says the batch
does not touch `k`. -/
def scan (b : Batch K V) (k : K) : Option (Option V) := b.foldl (WriteOp.scan k) none

def overlay (s : Store K V) (b : Batch K V) : Store K V := fun k => (scan b k).getD (s k)

@[simp] theorem applyBatch_nil (s : Store K V) : applyBatch s [] = s := rfl

@[simp] theorem applyBatch_append (s : Store K V) (b b' : Batch K V) :
    applyBatch s (b ++ b') = applyBatch (applyBatch s b) b' := by
  simp [applyBatch]

theorem applyBatch_concat (s : Store K V) (b : Batch K V) (op : WriteOp K V) :
    applyBatch s (b ++ [op]) = op.apply (applyBatch s b) := by
  simp [applyBatch]

theorem scan_concat (b : Batch K V) (op : WriteOp K V) (k : K) :
    scan (b ++ [op]) k = op.scan k (scan b k) := by
  simp [scan]

theorem overlay_eq_applyBatch (s : Store K V) (b : Batch K V) :
    overlay s b = applyBatch s b := by
  induction b using List.reverseRecOn with
  | nil => rfl
  | append_singleton b op ih =>
    funext k
    have hk : (scan b k).getD (s k) = applyBatch s b k := congrFun ih k
    rw [applyBatch_concat, overlay, scan_concat]
    cases op with
    | put k' v =>
      by_cases h : k' = k
      · subst h; simp [WriteOp.scan, WriteOp.apply]
      · simp [WriteOp.scan, WriteOp.apply, h, Function.update_of_ne (Ne.symm h), hk]
    | delete k' =>
      by_cases h : k' = k
      · subst h; simp [WriteOp.scan, WriteOp.apply]
      · simp [WriteOp.scan, WriteOp.apply, h, Function.update_of_ne (Ne.symm h), hk]

end KeyValue
