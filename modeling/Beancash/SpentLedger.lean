import Mathlib.Logic.Function.Basic
import Mathlib.Data.List.Induction
import Mathlib.Data.List.Nodup
import Mathlib.Algebra.BigOperators.Group.Finset.Basic
import Mathlib.Algebra.BigOperators.Ring.Finset
import Mathlib.Tactic.Ring

/-!
# An index of spent outputs

Connecting a transaction marks the outputs it spends and records its own as unspent; disconnecting
takes both back. After a list of transactions that each spend only what is unspent at their turn, the
index says exactly which of them spent what (`Describes`).
-/

namespace Ledger

variable {T P : Type*}

/-- What the index holds for one transaction. -/
structure Record (P : Type*) where
  pos : Option P
  spent : List (Option P)
deriving DecidableEq

abbrev Index (T P : Type*) := T → Option (Record P)

/-- A transaction, as far as the index looks at it. -/
structure Tx (T P : Type*) where
  id : T
  ins : List (T × ℕ)
  pos : P
  nOut : ℕ

def Record.mark (r : Record P) (n : ℕ) (m : Option P) : Record P :=
  { r with spent := r.spent.set n m }

@[simp] theorem Record.mark_pos (r : Record P) (n : ℕ) (m : Option P) :
    (r.mark n m).pos = r.pos := rfl

@[simp] theorem Record.mark_spent (r : Record P) (n : ℕ) (m : Option P) :
    (r.mark n m).spent = r.spent.set n m := rfl

/-- The output exists and nothing has spent it. -/
def Unspent (ix : Index T P) (o : T × ℕ) : Prop :=
  ∃ r, ix o.1 = some r ∧ r.spent[o.2]? = some none

/-- The output exists, spent or not. -/
def Known (ix : Index T P) (o : T × ℕ) : Prop := ∃ r, ix o.1 = some r ∧ o.2 < r.spent.length

theorem Unspent.known {ix : Index T P} {o : T × ℕ} (h : Unspent ix o) : Known ix o := by
  obtain ⟨r, hr, hn⟩ := h
  exact ⟨r, hr, (List.getElem?_eq_some_iff.mp hn).1⟩

variable [DecidableEq T]

/-- Write `m` into the mark of one output; an unknown transaction is left alone. -/
def mark (ix : Index T P) (o : T × ℕ) (m : Option P) : Index T P :=
  match ix o.1 with
  | some r => Function.update ix o.1 (some (r.mark o.2 m))
  | none => ix

def markAll (ix : Index T P) (os : List (T × ℕ)) (m : Option P) : Index T P :=
  os.foldl (fun ix o => mark ix o m) ix

def connect (ix : Index T P) (tx : Tx T P) : Index T P :=
  Function.update (markAll ix tx.ins (some tx.pos)) tx.id
    (some ⟨some tx.pos, List.replicate tx.nOut none⟩)

def disconnect (ix : Index T P) (tx : Tx T P) : Index T P :=
  Function.update (markAll ix tx.ins none) tx.id none

/-- The outputs are distinct and unspent. -/
structure Spendable (ix : Index T P) (os : List (T × ℕ)) : Prop where
  unspent : ∀ o ∈ os, Unspent ix o
  nodup : os.Nodup

/-- `tx` spends distinct unspent outputs and is itself new. -/
structure Connectable (ix : Index T P) (tx : Tx T P) : Prop extends Spendable ix tx.ins where
  fresh : ix tx.id = none

def connectAll (ix : Index T P) (txs : List (Tx T P)) : Index T P := txs.foldl connect ix

/-- Disconnecting a list starts from its end. -/
def disconnectAll (ix : Index T P) (txs : List (Tx T P)) : Index T P :=
  txs.foldr (fun tx ix => disconnect ix tx) ix

/-- Every transaction of the list spends unspent outputs at its turn, be it new or not. -/
def SpendableAll (ix : Index T P) : List (Tx T P) → Prop
  | [] => True
  | tx :: txs => Spendable ix tx.ins ∧ SpendableAll (connect ix tx) txs

/-- Every transaction of the list is connectable at its turn. -/
def ConnectableAll (ix : Index T P) : List (Tx T P) → Prop
  | [] => True
  | tx :: txs => Connectable ix tx ∧ ConnectableAll (connect ix tx) txs

theorem mark_of_eq_some {ix : Index T P} {o : T × ℕ} {r : Record P} (h : ix o.1 = some r)
    (m : Option P) : mark ix o m = Function.update ix o.1 (some (r.mark o.2 m)) := by
  simp [mark, h]

theorem mark_apply_self {ix : Index T P} {o : T × ℕ} {r : Record P} (h : ix o.1 = some r)
    (m : Option P) : mark ix o m o.1 = some (r.mark o.2 m) := by
  simp [mark_of_eq_some h]

theorem mark_apply_ne (ix : Index T P) {o : T × ℕ} {t : T} (h : t ≠ o.1) (m : Option P) :
    mark ix o m t = ix t := by
  cases hr : ix o.1 with
  | none => simp [mark, hr]
  | some r => rw [mark_of_eq_some hr, Function.update_of_ne h]

theorem mark_eq_none_iff {ix : Index T P} {o : T × ℕ} {m : Option P} {t : T} :
    mark ix o m t = none ↔ ix t = none := by
  by_cases h : t = o.1
  · subst h
    cases hr : ix o.1 with
    | none => simp [mark, hr]
    | some r => simp [mark_apply_self hr]
  · rw [mark_apply_ne ix h]

theorem markAll_eq_none_iff {ix : Index T P} {os : List (T × ℕ)} {m : Option P} {t : T} :
    markAll ix os m t = none ↔ ix t = none := by
  induction os generalizing ix with
  | nil => rfl
  | cons o os ih => exact ih.trans mark_eq_none_iff

theorem Known.mark {ix : Index T P} {o : T × ℕ} (h : Known ix o) (o' : T × ℕ) (m : Option P) :
    Known (mark ix o' m) o := by
  obtain ⟨r, hr, hn⟩ := h
  by_cases ht : o.1 = o'.1
  · exact ⟨r.mark o'.2 m, by rw [ht]; exact mark_apply_self (ht ▸ hr) m, by simpa using hn⟩
  · exact ⟨r, by rw [mark_apply_ne ix ht]; exact hr, hn⟩

theorem Known.markAll {ix : Index T P} {o : T × ℕ} (h : Known ix o) (os : List (T × ℕ))
    (m : Option P) : Known (markAll ix os m) o := by
  induction os generalizing ix with
  | nil => exact h
  | cons o' os ih => exact ih (h.mark o' m)

omit [DecidableEq T] in
theorem Unspent.ne_of_fresh {ix : Index T P} {o : T × ℕ} {t : T} (h : Unspent ix o)
    (ht : ix t = none) : o.1 ≠ t := by
  rintro rfl
  obtain ⟨r, hr, _⟩ := h
  simp [hr] at ht

theorem Unspent.mark_ne {ix : Index T P} {o o' : T × ℕ} (h : Unspent ix o') (hne : o' ≠ o)
    (m : Option P) : Unspent (mark ix o m) o' := by
  obtain ⟨r, hr, hn⟩ := h
  by_cases ht : o'.1 = o.1
  · have hr' : ix o.1 = some r := ht ▸ hr
    have hi : o.2 ≠ o'.2 := fun hi => hne (Prod.ext ht hi.symm)
    exact ⟨r.mark o.2 m, by rw [ht]; exact mark_apply_self hr' m, by
      simpa [List.getElem?_set_ne hi] using hn⟩
  · exact ⟨r, by rw [mark_apply_ne ix ht]; exact hr, hn⟩

theorem Unspent.of_mark {ix : Index T P} {o o' : T × ℕ} {p : P}
    (h : Unspent (mark ix o (some p)) o') : o' ≠ o ∧ Unspent ix o' := by
  obtain ⟨r', hr', hn⟩ := h
  by_cases ht : o'.1 = o.1
  · cases hr : ix o.1 with
    | none =>
      rw [ht, mark_eq_none_iff.mpr hr] at hr'
      cases hr'
    | some r =>
      rw [ht, mark_apply_self hr] at hr'
      obtain rfl := Option.some_injective _ hr'
      by_cases hi : o.2 = o'.2
      · rw [Record.mark_spent, hi, List.getElem?_set_self'] at hn
        cases hs : r.spent[o'.2]? <;> rw [hs] at hn <;> simp at hn
      · rw [Record.mark_spent, List.getElem?_set_ne hi] at hn
        exact ⟨fun he => hi (congrArg Prod.snd he).symm, r, ht ▸ hr, hn⟩
  · rw [mark_apply_ne ix ht] at hr'
    exact ⟨fun he => ht (congrArg Prod.fst he), r', hr', hn⟩

theorem mark_none_mark {ix : Index T P} {o : T × ℕ} (h : Unspent ix o) (m : Option P) :
    mark (mark ix o m) o none = ix := by
  obtain ⟨r, hr, hn⟩ := h
  have hm : (r.mark o.2 m).mark o.2 none = r := by
    obtain ⟨hlt, hnone⟩ := List.getElem?_eq_some_iff.mp hn
    cases r with
    | mk pos spent => simpa [Record.mark] using hnone ▸ List.set_getElem_self hlt
  rw [mark_of_eq_some (mark_apply_self hr m), hm, mark_of_eq_some hr]
  funext t
  by_cases ht : t = o.1
  · subst ht; simp [hr]
  · simp [Function.update_of_ne ht]

theorem mark_comm (ix : Index T P) {o o' : T × ℕ} (hne : o ≠ o') (m m' : Option P) :
    mark (mark ix o m) o' m' = mark (mark ix o' m') o m := by
  by_cases ht : o.1 = o'.1
  · cases hr : ix o.1 with
    | none =>
      have hr' : ix o'.1 = none := ht ▸ hr
      simp [mark, hr, hr']
    | some r =>
      have hr' : ix o'.1 = some r := ht ▸ hr
      have hi : o.2 ≠ o'.2 := fun hi => hne (Prod.ext ht hi)
      have h1 : mark ix o m o'.1 = some (r.mark o.2 m) := ht ▸ mark_apply_self hr m
      have h2 : mark ix o' m' o.1 = some (r.mark o'.2 m') := ht ▸ mark_apply_self hr' m'
      rw [mark_of_eq_some h1, mark_of_eq_some h2, mark_of_eq_some hr, mark_of_eq_some hr', ht]
      simp [Record.mark, List.set_comm _ _ hi]
  · funext t
    by_cases h1 : t = o.1
    · subst h1
      rw [mark_apply_ne _ ht]
      cases hr : ix o.1 with
      | none => simp [mark_eq_none_iff.mpr hr, mark_eq_none_iff.mpr (mark_eq_none_iff.mpr hr)]
      | some r =>
        have h2 : mark ix o' m' o.1 = some r := by rw [mark_apply_ne _ ht]; exact hr
        rw [mark_apply_self hr, mark_apply_self h2]
    · rw [mark_apply_ne (mark ix o' m') h1]
      by_cases h2 : t = o'.1
      · subst h2
        cases hr : ix o'.1 with
        | none => simp [mark_eq_none_iff.mpr hr, mark_eq_none_iff.mpr (mark_eq_none_iff.mpr hr)]
        | some r =>
          have h3 : mark ix o m o'.1 = some r := by rw [mark_apply_ne _ h1]; exact hr
          rw [mark_apply_self hr, mark_apply_self h3]
      · rw [mark_apply_ne _ h2, mark_apply_ne _ h1, mark_apply_ne _ h2]

theorem markAll_mark_comm (ix : Index T P) {o : T × ℕ} {os : List (T × ℕ)} (h : o ∉ os)
    (m m' : Option P) : markAll (mark ix o m) os m' = mark (markAll ix os m') o m := by
  induction os generalizing ix with
  | nil => rfl
  | cons o' os ih =>
    simp only [List.mem_cons, not_or] at h
    change markAll (mark (mark ix o m) o' m') os m' = mark (markAll (mark ix o' m') os m') o m
    rw [mark_comm ix h.1, ih _ h.2]

theorem markAll_none_markAll {ix : Index T P} {os : List (T × ℕ)} (hnd : os.Nodup)
    (hu : ∀ o ∈ os, Unspent ix o) (m : Option P) : markAll (markAll ix os m) os none = ix := by
  induction os generalizing ix with
  | nil => rfl
  | cons o os ih =>
    obtain ⟨hno, hnd⟩ := List.nodup_cons.mp hnd
    have hu' : ∀ o' ∈ os, Unspent (mark ix o m) o' := fun o' ho' =>
      (hu o' (List.mem_cons_of_mem _ ho')).mark_ne (fun h : o' = o => hno (h ▸ ho')) m
    change markAll (mark (markAll (mark ix o m) os m) o none) os none = ix
    rw [markAll_mark_comm _ hno, ih hnd hu']
    exact mark_none_mark (hu o List.mem_cons_self) m

theorem markAll_apply {ix : Index T P} (os : List (T × ℕ)) (m : Option P) {t : T}
    {r : Record P} (hr : ix t = some r) : ∃ r', markAll ix os m t = some r' ∧ r'.pos = r.pos ∧
      r'.spent.length = r.spent.length ∧
      ∀ n, n < r.spent.length → r'.spent[n]? = if (t, n) ∈ os then some m else r.spent[n]? := by
  induction os generalizing ix r with
  | nil => exact ⟨r, hr, rfl, rfl, by simp⟩
  | cons o os ih =>
    by_cases ht : t = o.1
    · subst ht
      obtain ⟨r', h1, h2, h3, h4⟩ := ih (mark_apply_self hr m)
      refine ⟨r', h1, h2, by simpa using h3, fun n hn => ?_⟩
      rw [h4 n (by simpa using hn)]
      by_cases hmem : (o.1, n) ∈ os
      · simp [hmem]
      · by_cases hn' : o.2 = n
        · subst hn'; simp [hmem, hn]
        · have hne : (o.1, n) ≠ o := fun h => hn' (congrArg Prod.snd h).symm
          simp [hmem, hne, List.getElem?_set_ne hn']
    · have hr' : mark ix o m t = some r := (mark_apply_ne ix ht m).trans hr
      obtain ⟨r', h1, h2, h3, h4⟩ := ih hr'
      have hne : ∀ n, (t, n) ≠ o := fun n h => ht (congrArg Prod.fst h)
      exact ⟨r', h1, h2, h3, fun n hn => by simp [h4 n hn, hne]⟩

theorem connect_apply_self (ix : Index T P) (tx : Tx T P) :
    connect ix tx tx.id = some ⟨some tx.pos, List.replicate tx.nOut none⟩ := by
  simp [connect]

theorem connect_apply_ne (ix : Index T P) (tx : Tx T P) {t : T} (h : t ≠ tx.id) :
    connect ix tx t = markAll ix tx.ins (some tx.pos) t := by
  simp [connect, Function.update_of_ne h]

omit [DecidableEq T] in
theorem Connectable.ins_ne_id {ix : Index T P} {tx : Tx T P} (h : Connectable ix tx) :
    ∀ o ∈ tx.ins, o.1 ≠ tx.id := fun o ho => (h.unspent o ho).ne_of_fresh h.fresh

theorem Connectable.known_connect {ix : Index T P} {tx : Tx T P} (h : Connectable ix tx)
    {o : T × ℕ} (ho : o ∈ tx.ins) : Known (connect ix tx) o := by
  obtain ⟨r, hr, hn⟩ := (h.unspent o ho).known.markAll tx.ins (some tx.pos)
  exact ⟨r, by rw [connect_apply_ne ix tx (h.ins_ne_id o ho)]; exact hr, hn⟩

theorem connect_eq_none_iff {ix : Index T P} {tx : Tx T P} {t : T} :
    connect ix tx t = none ↔ ix t = none ∧ t ≠ tx.id := by
  by_cases h : t = tx.id
  · subst h; simp [connect_apply_self]
  · simp [connect_apply_ne ix tx h, markAll_eq_none_iff, h]

theorem disconnect_connect {ix : Index T P} {tx : Tx T P} (h : Connectable ix tx) :
    disconnect (connect ix tx) tx = ix := by
  have hmark : ∀ os : List (T × ℕ), (∀ o ∈ os, o.1 ≠ tx.id) → ∀ ix' : Index T P, ∀ v m,
      markAll (Function.update ix' tx.id v) os m = Function.update (markAll ix' os m) tx.id v := by
    intro os
    induction os with
    | nil => intro _ ix' v m; rfl
    | cons o os ih =>
      intro hos ix' v m
      have ho := hos o List.mem_cons_self
      have hstep : mark (Function.update ix' tx.id v) o m =
          Function.update (mark ix' o m) tx.id v := by
        unfold mark
        rw [Function.update_of_ne ho]
        split
        · exact Function.update_comm ho.symm _ _ _
        · rfl
      change markAll (mark (Function.update ix' tx.id v) o m) os m = _
      rw [hstep, ih (fun o' ho' => hos o' (List.mem_cons_of_mem _ ho'))]
      rfl
  unfold disconnect connect
  rw [hmark _ h.ins_ne_id, Function.update_idem, markAll_none_markAll h.nodup h.unspent]
  funext t
  by_cases ht : t = tx.id
  · subst ht; simp [h.fresh]
  · simp [Function.update_of_ne ht]

theorem connectableAll_of_spendableAll {ix : Index T P} {txs : List (Tx T P)}
    (h : SpendableAll ix txs) (hnew : ∀ tx ∈ txs, ix tx.id = none)
    (hids : (txs.map Tx.id).Nodup) : ConnectableAll ix txs := by
  induction txs generalizing ix with
  | nil => trivial
  | cons tx txs ih =>
    obtain ⟨hno, hids⟩ := List.nodup_cons.mp hids
    refine ⟨⟨h.1, hnew tx List.mem_cons_self⟩, ih h.2 (fun tx' htx' => ?_) hids⟩
    refine connect_eq_none_iff.mpr ⟨hnew tx' (List.mem_cons_of_mem _ htx'), fun he => hno ?_⟩
    exact List.mem_map.mpr ⟨tx', htx', he⟩

theorem connectAll_append (ix : Index T P) (txs txs' : List (Tx T P)) :
    connectAll ix (txs ++ txs') = connectAll (connectAll ix txs) txs' := by
  simp [connectAll]

theorem disconnectAll_append (ix : Index T P) (txs txs' : List (Tx T P)) :
    disconnectAll ix (txs ++ txs') = disconnectAll (disconnectAll ix txs') txs := by
  simp [disconnectAll]

theorem connectableAll_append {ix : Index T P} {txs txs' : List (Tx T P)} :
    ConnectableAll ix (txs ++ txs') ↔
      ConnectableAll ix txs ∧ ConnectableAll (connectAll ix txs) txs' := by
  induction txs generalizing ix with
  | nil => simp [ConnectableAll, connectAll]
  | cons tx txs ih =>
    change Connectable ix tx ∧ ConnectableAll (connect ix tx) (txs ++ txs') ↔ _
    rw [ih]
    exact and_assoc.symm

theorem disconnectAll_connectAll {ix : Index T P} {txs : List (Tx T P)}
    (h : ConnectableAll ix txs) : disconnectAll (connectAll ix txs) txs = ix := by
  induction txs generalizing ix with
  | nil => rfl
  | cons tx txs ih =>
    change disconnect (disconnectAll (connectAll (connect ix tx) txs) txs) tx = ix
    rw [ih h.2, disconnect_connect h.1]

theorem connectAll_pos_of_ne {ix : Index T P} {txs : List (Tx T P)} {t : T}
    (h : ∀ tx ∈ txs, t ≠ tx.id) {r : Record P} (hr : ix t = some r) :
    ∃ r', connectAll ix txs t = some r' ∧ r'.pos = r.pos := by
  induction txs generalizing ix r with
  | nil => exact ⟨r, hr, rfl⟩
  | cons tx txs ih =>
    obtain ⟨r', hr', hpos, _⟩ := markAll_apply tx.ins (some tx.pos) hr
    rw [← connect_apply_ne ix tx (h tx List.mem_cons_self)] at hr'
    obtain ⟨r'', hr'', hpos'⟩ := ih (fun tx' htx' => h tx' (List.mem_cons_of_mem tx htx')) hr'
    exact ⟨r'', hr'', hpos'.trans hpos⟩

theorem connectAll_pos {ix : Index T P} {txs : List (Tx T P)} (hids : (txs.map Tx.id).Nodup)
    {tx : Tx T P} (h : tx ∈ txs) :
    ∃ r, connectAll ix txs tx.id = some r ∧ r.pos = some tx.pos := by
  induction txs generalizing ix with
  | nil => cases h
  | cons tx' txs ih =>
    rw [List.map_cons, List.nodup_cons] at hids
    rcases List.mem_cons.mp h with rfl | h
    · refine connectAll_pos_of_ne (fun tx' htx' heq => hids.1 ?_) (connect_apply_self ix tx)
      exact List.mem_map.mpr ⟨tx', htx', heq.symm⟩
    · exact ih hids.2 h

theorem connectAll_eq_none_iff {ix : Index T P} {txs : List (Tx T P)} {t : T} :
    connectAll ix txs t = none ↔ ix t = none ∧ ∀ tx ∈ txs, t ≠ tx.id := by
  induction txs generalizing ix with
  | nil => simp [connectAll]
  | cons tx txs ih =>
    change connectAll (connect ix tx) txs t = none ↔ _
    rw [ih, connect_eq_none_iff]
    simp [and_assoc]

/-- No transaction of the index is at the position `p`. -/
def Avoids (ix : Index T P) (p : P) : Prop := ∀ t r, ix t = some r → r.pos ≠ some p

theorem Avoids.connect {ix : Index T P} {p : P} (h : Avoids ix p) {tx : Tx T P}
    (hne : tx.pos ≠ p) : Avoids (connect ix tx) p := by
  intro t r' hr'
  by_cases ht : t = tx.id
  · subst ht
    rw [connect_apply_self] at hr'
    obtain rfl := Option.some_injective _ hr'
    exact fun he => hne (Option.some_injective _ he)
  · rw [connect_apply_ne ix tx ht] at hr'
    obtain ⟨r, hr⟩ : ∃ r, ix t = some r := by
      refine Option.ne_none_iff_exists'.mp fun hnone => ?_
      rw [markAll_eq_none_iff.mpr hnone] at hr'
      cases hr'
    obtain ⟨r'', hr'', hpos, _⟩ := markAll_apply tx.ins (some tx.pos) hr
    obtain rfl : r' = r'' := Option.some_injective _ (hr'.symm.trans hr'')
    rw [hpos]
    exact h t r hr

/-- `ix` is the index of the transactions `txs`: it knows exactly them, at their
positions, and the mark of each output names the one transaction that spends it. -/
structure Describes (ix : Index T P) (txs : List (Tx T P)) : Prop where
  ids : (txs.map Tx.id).Nodup
  ins : ∀ tx ∈ txs, tx.ins.Nodup
  known : ∀ t, ix t ≠ none ↔ ∃ tx ∈ txs, tx.id = t
  record : ∀ tx ∈ txs, ∃ r, ix tx.id = some r ∧ r.pos = some tx.pos ∧ r.spent.length = tx.nOut
  spender : ∀ tx ∈ txs, ∀ o ∈ tx.ins, ∃ r, ix o.1 = some r ∧ r.spent[o.2]? = some (some tx.pos)
  marked : ∀ t r n p, ix t = some r → r.spent[n]? = some (some p) →
    ∃ tx ∈ txs, (t, n) ∈ tx.ins ∧ tx.pos = p
  disjoint : txs.Pairwise fun a b => ∀ o ∈ a.ins, o ∉ b.ins

omit [DecidableEq T] in
theorem describes_empty : Describes (fun _ => none : Index T P) ([] : List (Tx T P)) where
  ids := List.nodup_nil
  ins := by simp
  known := by simp
  record := by simp
  spender := by simp
  marked := by simp
  disjoint := List.Pairwise.nil

omit [DecidableEq T] in
theorem Describes.not_unspent {ix : Index T P} {txs : List (Tx T P)} (h : Describes ix txs)
    {tx : Tx T P} (htx : tx ∈ txs) {o : T × ℕ} (ho : o ∈ tx.ins) : ¬Unspent ix o := by
  rintro ⟨r, hr, hn⟩
  obtain ⟨r', hr', hn'⟩ := h.spender tx htx o ho
  obtain rfl : r = r' := Option.some_injective _ (hr.symm.trans hr')
  rw [hn] at hn'
  cases hn'

omit [DecidableEq T] in
theorem Describes.fresh_of_spends {ix : Index T P} {txs : List (Tx T P)} (h : Describes ix txs)
    {tx : Tx T P} (hs : Spendable ix tx.ins) (hne : tx.ins ≠ [])
    (hsame : ∀ tx' ∈ txs, tx'.id = tx.id → tx'.ins = tx.ins) : ix tx.id = none := by
  by_contra hknown
  obtain ⟨tx', htx', hid⟩ := (h.known tx.id).mp hknown
  obtain ⟨o, ho⟩ := List.exists_mem_of_ne_nil _ hne
  exact h.not_unspent htx' (hsame tx' htx' hid ▸ ho) (hs.unspent o ho)

theorem Describes.connect {ix : Index T P} {txs : List (Tx T P)} {tx : Tx T P}
    (h : Describes ix txs) (hc : Connectable ix tx) :
    Describes (connect ix tx) (txs ++ [tx]) := by
  have hid : ∀ tx' ∈ txs, tx'.id ≠ tx.id := fun tx' htx' he =>
    (h.known tx.id).mpr ⟨tx', htx', he⟩ hc.fresh
  -- a record the index already had is marked, and keeps its position and length
  have hold : ∀ t r, ix t = some r → ∃ r', Ledger.connect ix tx t = some r' ∧ r'.pos = r.pos ∧
      r'.spent.length = r.spent.length ∧ ∀ n, n < r.spent.length →
        r'.spent[n]? = if (t, n) ∈ tx.ins then some (some tx.pos) else r.spent[n]? := by
    intro t r hr
    have ht : t ≠ tx.id := by rintro rfl; rw [hc.fresh] at hr; cases hr
    rw [connect_apply_ne ix tx ht]
    exact markAll_apply tx.ins (some tx.pos) hr
  refine ⟨?_, ?_, ?_, ?_, ?_, ?_, ?_⟩
  · rw [List.map_append, List.nodup_append]
    refine ⟨h.ids, List.nodup_singleton _, ?_⟩
    intro a ha b hb
    obtain ⟨tx', htx', rfl⟩ := List.mem_map.mp ha
    obtain rfl : b = tx.id := by simpa using hb
    exact hid tx' htx'
  · intro tx' htx'
    rcases List.mem_append.mp htx' with h' | h'
    · exact h.ins tx' h'
    · obtain rfl := List.mem_singleton.mp h'
      exact hc.nodup
  · intro t
    have hk := h.known t
    simp only [ne_eq, connect_eq_none_iff, List.mem_append, List.mem_singleton, not_and_or,
      not_not] at hk ⊢
    constructor
    · rintro (ht | rfl)
      · obtain ⟨tx', htx', he⟩ := hk.mp ht
        exact ⟨tx', Or.inl htx', he⟩
      · exact ⟨tx, Or.inr rfl, rfl⟩
    · rintro ⟨tx', htx' | rfl, he⟩
      · exact Or.inl (hk.mpr ⟨tx', htx', he⟩)
      · exact Or.inr he.symm
  · intro tx' htx'
    rcases List.mem_append.mp htx' with h' | h'
    · obtain ⟨r, hr, hp, hl⟩ := h.record tx' h'
      obtain ⟨r', h1, h2, h3, _⟩ := hold tx'.id r hr
      exact ⟨r', h1, h2.trans hp, h3.trans hl⟩
    · obtain rfl := List.mem_singleton.mp h'
      exact ⟨_, connect_apply_self ix tx', rfl, by simp⟩
  · intro tx' htx' o ho
    rcases List.mem_append.mp htx' with h' | h'
    · obtain ⟨r, hr, hn⟩ := h.spender tx' h' o ho
      obtain ⟨r', h1, _, _, h4⟩ := hold o.1 r hr
      have hlt : o.2 < r.spent.length := (List.getElem?_eq_some_iff.mp hn).1
      have hno : o ∉ tx.ins := fun hmem => h.not_unspent h' ho (hc.unspent o hmem)
      exact ⟨r', h1, by simpa [hno, hn] using h4 o.2 hlt⟩
    · obtain rfl := List.mem_singleton.mp h'
      obtain ⟨r, hr, hn⟩ := hc.unspent o ho
      obtain ⟨r', h1, _, _, h4⟩ := hold o.1 r hr
      have hlt : o.2 < r.spent.length := (List.getElem?_eq_some_iff.mp hn).1
      exact ⟨r', h1, by simpa [ho] using h4 o.2 hlt⟩
  · intro t r' n p hr' hn
    by_cases ht : t = tx.id
    · subst ht
      rw [connect_apply_self] at hr'
      obtain rfl := Option.some_injective _ hr'
      simp [List.getElem?_replicate] at hn
    · obtain ⟨r, hr⟩ : ∃ r, ix t = some r := by
        refine Option.ne_none_iff_exists'.mp fun hnone => ?_
        rw [connect_eq_none_iff.mpr ⟨hnone, ht⟩] at hr'
        cases hr'
      obtain ⟨r'', h1, _, h3, h4⟩ := hold t r hr
      obtain rfl : r' = r'' := Option.some_injective _ (hr'.symm.trans h1)
      have hlt : n < r.spent.length := h3 ▸ (List.getElem?_eq_some_iff.mp hn).1
      rw [h4 n hlt] at hn
      by_cases hmem : (t, n) ∈ tx.ins
      · rw [if_pos hmem] at hn
        exact ⟨tx, by simp, hmem, by simpa using hn⟩
      · rw [if_neg hmem] at hn
        obtain ⟨tx', htx', hin, hp⟩ := h.marked t r n p hr hn
        exact ⟨tx', by simp [htx'], hin, hp⟩
  · rw [List.pairwise_append]
    refine ⟨h.disjoint, List.pairwise_singleton _ _, ?_⟩
    intro a ha b hb o ho hob
    obtain rfl := List.mem_singleton.mp hb
    exact h.not_unspent ha ho (hc.unspent o hob)

theorem Describes.connectAll {ix : Index T P} {txs txs' : List (Tx T P)}
    (h : Describes ix txs) (hc : ConnectableAll ix txs') :
    Describes (connectAll ix txs') (txs ++ txs') := by
  induction txs' generalizing ix txs with
  | nil => simpa [Ledger.connectAll] using h
  | cons tx txs' ih =>
    have hrest := ih (h.connect hc.1) hc.2
    rw [List.append_assoc] at hrest
    exact hrest

theorem Describes.connectableAll_of_spendableAll {ix : Index T P} {txs txs' : List (Tx T P)}
    (h : Describes ix txs) (hs : SpendableAll ix txs') (hids : (txs'.map Tx.id).Nodup)
    (hsame : ∀ tx' ∈ txs', ∀ tx ∈ txs, tx.id = tx'.id → tx.ins = tx'.ins ∧ tx'.ins ≠ []) :
    ConnectableAll ix txs' := by
  induction txs' generalizing ix txs with
  | nil => trivial
  | cons tx' txs' ih =>
    obtain ⟨hno, hids⟩ := List.nodup_cons.mp hids
    have hfresh : ix tx'.id = none := by
      by_contra hknown
      obtain ⟨tx, htx, hid⟩ := (h.known tx'.id).mp hknown
      have hne := (hsame tx' List.mem_cons_self tx htx hid).2
      exact hknown (h.fresh_of_spends hs.1 hne fun tx htx hid =>
        (hsame tx' List.mem_cons_self tx htx hid).1)
    have hc : Connectable ix tx' := ⟨hs.1, hfresh⟩
    refine ⟨hc, ih (h.connect hc) hs.2 hids fun tx'' htx'' tx htx hid => ?_⟩
    rcases List.mem_append.mp htx with htx | htx
    · exact hsame tx'' (List.mem_cons_of_mem _ htx'') tx htx hid
    · obtain rfl := List.mem_singleton.mp htx
      exact absurd (List.mem_map.mpr ⟨tx'', htx'', hid.symm⟩) hno

omit [DecidableEq T] in
theorem Describes.known_iff {ix : Index T P} {txs : List (Tx T P)} (h : Describes ix txs)
    {o : T × ℕ} : Known ix o ↔ ∃ tx ∈ txs, tx.id = o.1 ∧ o.2 < tx.nOut := by
  constructor
  · rintro ⟨r, hr, hn⟩
    obtain ⟨tx, htx, hid⟩ := (h.known o.1).mp (by rw [hr]; exact Option.some_ne_none r)
    obtain ⟨r', hr', _, hlen⟩ := h.record tx htx
    obtain rfl : r = r' := Option.some_injective _ (hr.symm.trans (hid ▸ hr'))
    exact ⟨tx, htx, hid, hlen ▸ hn⟩
  · rintro ⟨tx, htx, hid, hn⟩
    obtain ⟨r, hr, _, hlen⟩ := h.record tx htx
    exact ⟨r, hid ▸ hr, hlen.symm ▸ hn⟩

theorem eq_of_pairwise_disjoint {α β : Type*} {f : α → List β} {l : List α}
    (h : l.Pairwise fun a b => ∀ o ∈ f a, o ∉ f b) {a b : α} (ha : a ∈ l) (hb : b ∈ l) {o : β}
    (hoa : o ∈ f a) (hob : o ∈ f b) : a = b := by
  obtain ⟨i, hi, rfl⟩ := List.getElem_of_mem ha
  obtain ⟨j, hj, rfl⟩ := List.getElem_of_mem hb
  rw [List.pairwise_iff_getElem] at h
  rcases lt_trichotomy i j with hlt | rfl | hlt
  · exact absurd hob (h i j hi hj hlt o hoa)
  · rfl
  · exact absurd hoa (h j i hj hi hlt o hob)

/-- The output exists and something has spent it. -/
def Spent (ix : Index T P) (o : T × ℕ) : Prop :=
  ∃ r p, ix o.1 = some r ∧ r.spent[o.2]? = some (some p)

omit [DecidableEq T] in
theorem Spent.not_unspent {ix : Index T P} {o : T × ℕ} (h : Spent ix o) : ¬Unspent ix o := by
  rintro ⟨r, hr, hn⟩
  obtain ⟨r', p, hr', hn'⟩ := h
  obtain rfl : r = r' := Option.some_injective _ (hr.symm.trans hr')
  rw [hn] at hn'
  cases hn'

theorem Connectable.spent {ix : Index T P} {tx : Tx T P} (h : Connectable ix tx) {o : T × ℕ}
    (ho : o ∈ tx.ins) : Spent (connect ix tx) o := by
  obtain ⟨r, hr, hn⟩ := h.unspent o ho
  obtain ⟨r', hr', _, _, hmark⟩ := markAll_apply tx.ins (some tx.pos) hr
  refine ⟨r', tx.pos, ?_, ?_⟩
  · rw [connect_apply_ne ix tx (h.ins_ne_id o ho)]
    exact hr'
  · rw [hmark o.2 (List.getElem?_eq_some_iff.mp hn).1, if_pos ho]

theorem Spent.connect {ix : Index T P} {o : T × ℕ} (h : Spent ix o) {tx : Tx T P}
    (hfresh : ix tx.id = none) : Spent (connect ix tx) o := by
  obtain ⟨r, p, hr, hn⟩ := h
  have hne : o.1 ≠ tx.id := by
    intro heq
    rw [heq, hfresh] at hr
    cases hr
  obtain ⟨r', hr', _, _, hmark⟩ := markAll_apply tx.ins (some tx.pos) hr
  have hval := hmark o.2 (List.getElem?_eq_some_iff.mp hn).1
  rw [← connect_apply_ne ix tx hne] at hr'
  split_ifs at hval
  · exact ⟨r', tx.pos, hr', hval⟩
  · exact ⟨r', p, hr', hval.trans hn⟩

theorem Spent.connectAll {ix : Index T P} {o : T × ℕ} (h : Spent ix o) {txs : List (Tx T P)}
    (hc : ConnectableAll ix txs) : Spent (connectAll ix txs) o := by
  induction txs generalizing ix with
  | nil => exact h
  | cons tx txs ih => exact ih (h.connect hc.1.fresh) hc.2

theorem ConnectableAll.spent {ix : Index T P} {txs : List (Tx T P)} (h : ConnectableAll ix txs)
    {tx : Tx T P} (htx : tx ∈ txs) {o : T × ℕ} (ho : o ∈ tx.ins) :
    Spent (connectAll ix txs) o := by
  induction txs generalizing ix with
  | nil => cases htx
  | cons tx' txs ih =>
    rcases List.mem_cons.mp htx with rfl | htx
    · exact (h.1.spent ho).connectAll h.2
    · exact ih h.2 htx

theorem ConnectableAll.nodup_ins {ix : Index T P} {txs : List (Tx T P)}
    (h : ConnectableAll ix txs) : (txs.flatMap Tx.ins).Nodup := by
  induction txs using List.reverseRecOn with
  | nil => exact List.nodup_nil
  | append_singleton txs tx ih =>
    obtain ⟨hall, hlast, -⟩ := connectableAll_append.mp h
    rw [List.flatMap_append, List.flatMap_singleton, List.nodup_append']
    refine ⟨ih hall, hlast.nodup, ?_⟩
    intro o ho hins
    obtain ⟨tx', htx', ho'⟩ := List.mem_flatMap.mp ho
    exact (hall.spent htx' ho').not_unspent (hlast.unspent o hins)

end Ledger
