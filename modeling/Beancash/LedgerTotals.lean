import Beancash.SpentLedger
import Mathlib.Algebra.BigOperators.Group.Finset.Basic
import Mathlib.Algebra.BigOperators.Group.Finset.Piecewise
import Mathlib.Algebra.BigOperators.Ring.Finset
import Mathlib.Algebra.Order.BigOperators.Group.Finset
import Mathlib.Tactic.Ring

namespace Ledger

open Finset

variable {T P : Type*}

def Record.isUnspent (r : Record P) (n : ℕ) : Bool :=
  match r.spent[n]? with
  | some none => true
  | _ => false

/-- The worth of the outputs of one transaction that nothing has spent. -/
def Record.total (value : Option P → ℕ → ℤ) (r : Record P) : ℤ :=
  ∑ n ∈ range r.spent.length, if r.isUnspent n then value r.pos n else 0

/-- The worth of all unspent outputs of the transactions in `S`. -/
def total (value : T → Option P → ℕ → ℤ) (S : Finset T) (ix : Index T P) : ℤ :=
  ∑ t ∈ S, (ix t).elim 0 (Record.total (value t))

/-- The worth of one output of a transaction the index knows. -/
def valueAt (value : T → Option P → ℕ → ℤ) (ix : Index T P) (o : T × ℕ) : ℤ :=
  (ix o.1).elim 0 fun r => value o.1 r.pos o.2

theorem Record.isUnspent_of_eq {r : Record P} {n : ℕ} (h : r.spent[n]? = some none) :
    r.isUnspent n = true := by
  simp [Record.isUnspent, h]

theorem Record.isUnspent_mark_self {r : Record P} {n : ℕ} (h : n < r.spent.length) (p : P) :
    (r.mark n (some p)).isUnspent n = false := by
  simp [Record.isUnspent, h]

theorem Record.isUnspent_mark_ne {r : Record P} {n n' : ℕ} (h : n ≠ n') (m : Option P) :
    (r.mark n m).isUnspent n' = r.isUnspent n' := by
  simp [Record.isUnspent, List.getElem?_set_ne h]

theorem Record.total_mark {value : Option P → ℕ → ℤ} {r : Record P} {n : ℕ}
    (h : r.spent[n]? = some none) (p : P) :
    (r.mark n (some p)).total value = r.total value - value r.pos n := by
  have hlt : n < r.spent.length := (List.getElem?_eq_some_iff.mp h).1
  have hmem : n ∈ range r.spent.length := mem_range.mpr hlt
  unfold Record.total
  simp only [Record.mark_spent, List.length_set, Record.mark_pos]
  rw [← add_sum_erase _ _ hmem, ← add_sum_erase _ _ hmem, Record.isUnspent_mark_self hlt,
    Record.isUnspent_of_eq h]
  have hrest : ∀ k ∈ (range r.spent.length).erase n,
      (if (r.mark n (some p)).isUnspent k then value r.pos k else 0) =
        if r.isUnspent k then value r.pos k else 0 := by
    intro k hk
    rw [Record.isUnspent_mark_ne (ne_of_mem_erase hk).symm]
  rw [sum_congr rfl hrest]
  simp

theorem Record.total_replicate (value : Option P → ℕ → ℤ) (pos : Option P) (k : ℕ) :
    Record.total value ⟨pos, List.replicate k none⟩ = ∑ n ∈ range k, value pos n := by
  unfold Record.total
  rw [List.length_replicate]
  refine sum_congr rfl fun n hn => ?_
  have h : (List.replicate k (none : Option P))[n]? = some none := by
    simp [mem_range.mp hn]
  rw [Record.isUnspent_of_eq h, if_pos rfl]

variable [DecidableEq T]

theorem total_update (value : T → Option P → ℕ → ℤ) {S : Finset T} (ix : Index T P) {t : T}
    (ht : t ∈ S) (v : Option (Record P)) : total value S (Function.update ix t v) =
      total value S ix - (ix t).elim 0 (Record.total (value t)) +
        v.elim 0 (Record.total (value t)) := by
  unfold total
  rw [← add_sum_erase _ _ ht, ← add_sum_erase _ _ ht, Function.update_self]
  have hrest : ∀ t' ∈ S.erase t, (Function.update ix t v t').elim 0
      (Record.total (value t')) = (ix t').elim 0 (Record.total (value t')) := by
    intro t' ht'
    rw [Function.update_of_ne (ne_of_mem_erase ht')]
  rw [sum_congr rfl hrest]
  ring

theorem total_mark {value : T → Option P → ℕ → ℤ} {S : Finset T} {ix : Index T P} {o : T × ℕ}
    (h : Unspent ix o) (ho : o.1 ∈ S) (p : P) :
    total value S (mark ix o (some p)) = total value S ix - valueAt value ix o := by
  obtain ⟨r, hr, hn⟩ := h
  rw [mark_of_eq_some hr, total_update value ix ho]
  simp only [valueAt, hr, Option.elim_some, Record.total_mark hn]
  ring

theorem valueAt_mark (value : T → Option P → ℕ → ℤ) (ix : Index T P) (o o' : T × ℕ) (m : Option P) :
    valueAt value (mark ix o m) o' = valueAt value ix o' := by
  unfold valueAt
  by_cases ht : o'.1 = o.1
  · rw [ht]
    cases hr : ix o.1 with
    | none => simp [mark, hr]
    | some r => simp [mark_apply_self hr]
  · rw [mark_apply_ne ix ht]

theorem total_markAll {value : T → Option P → ℕ → ℤ} {S : Finset T} {ix : Index T P}
    {os : List (T × ℕ)} (hnd : os.Nodup) (hu : ∀ o ∈ os, Unspent ix o)
    (hS : ∀ o ∈ os, o.1 ∈ S) (p : P) : total value S (markAll ix os (some p)) =
      total value S ix - (os.map (valueAt value ix)).sum := by
  induction os generalizing ix with
  | nil => simp [markAll]
  | cons o os ih =>
    obtain ⟨hno, hnd⟩ := List.nodup_cons.mp hnd
    have hu' : ∀ o' ∈ os, Unspent (mark ix o (some p)) o' := fun o' ho' =>
      (hu o' (List.mem_cons_of_mem _ ho')).mark_ne (fun h : o' = o => hno (h ▸ ho')) (some p)
    have hmap : os.map (valueAt value (mark ix o (some p))) = os.map (valueAt value ix) :=
      List.map_congr_left fun o' _ => valueAt_mark value ix o o' (some p)
    change total value S (markAll (mark ix o (some p)) os (some p)) = _
    rw [ih hnd hu' fun o' ho' => hS o' (List.mem_cons_of_mem _ ho'),
      total_mark (hu o List.mem_cons_self) (hS o List.mem_cons_self), hmap]
    simp only [List.map_cons, List.sum_cons]
    ring

theorem total_connect {value : T → Option P → ℕ → ℤ} {S : Finset T} {ix : Index T P} {tx : Tx T P}
    (hc : Connectable ix tx) (hid : tx.id ∈ S) (hS : ∀ o ∈ tx.ins, o.1 ∈ S) :
    total value S (connect ix tx) = total value S ix +
      (∑ n ∈ range tx.nOut, value tx.id (some tx.pos) n) - (tx.ins.map (valueAt value ix)).sum := by
  have hnone : markAll ix tx.ins (some tx.pos) tx.id = none :=
    markAll_eq_none_iff.mpr hc.fresh
  unfold connect
  rw [total_update value _ hid, hnone, total_markAll hc.nodup hc.unspent hS]
  simp only [Option.elim_none, Option.elim_some, Record.total_replicate]
  ring

/-- What the transactions of a list spend, each at its turn. -/
def spentBy (value : T → Option P → ℕ → ℤ) : Index T P → List (Tx T P) → ℤ
  | _, [] => 0
  | ix, tx :: txs => (tx.ins.map (valueAt value ix)).sum + spentBy value (connect ix tx) txs

theorem total_connectAll {value : T → Option P → ℕ → ℤ} {S : Finset T} {ix : Index T P}
    {txs : List (Tx T P)} (hc : ConnectableAll ix txs) (hid : ∀ tx ∈ txs, tx.id ∈ S)
    (hS : ∀ tx ∈ txs, ∀ o ∈ tx.ins, o.1 ∈ S) : total value S (connectAll ix txs) =
      total value S ix + (txs.map fun tx => ∑ n ∈ range tx.nOut, value tx.id (some tx.pos) n).sum -
        spentBy value ix txs := by
  induction txs generalizing ix with
  | nil => simp [connectAll, spentBy]
  | cons tx txs ih =>
    change total value S (connectAll (connect ix tx) txs) = _
    rw [ih hc.2 (fun tx' h => hid tx' (List.mem_cons_of_mem _ h))
      (fun tx' h => hS tx' (List.mem_cons_of_mem _ h)),
      total_connect hc.1 (hid tx List.mem_cons_self) (hS tx List.mem_cons_self)]
    simp only [List.map_cons, List.sum_cons, spentBy]
    ring

omit [DecidableEq T] in
theorem total_nonneg {value : T → Option P → ℕ → ℤ} {S : Finset T} {ix : Index T P}
    (h : ∀ t r n, ix t = some r → 0 ≤ value t r.pos n) : 0 ≤ total value S ix := by
  unfold total
  refine sum_nonneg fun t _ => ?_
  cases hr : ix t with
  | none => exact le_rfl
  | some r =>
    rw [Option.elim_some, Record.total]
    refine sum_nonneg fun n _ => ?_
    split
    · exact h t r n hr
    · exact le_rfl

end Ledger
