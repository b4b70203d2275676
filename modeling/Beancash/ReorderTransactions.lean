import Beancash.LoadWallet
import Mathlib.Data.List.Sort
import Mathlib.Order.Lattice
import Mathlib.Algebra.Order.Group.Int

namespace Beancash

/-- What a transaction of the wallet, or an accounting entry, stands under. -/
inductive OrderKey
  | tx (hash : ℕ)
  | acentry (strAccount : String) (nEntryNo : ℕ)
deriving DecidableEq

/-- What is looked at of a `CWalletTx` or a `CAccountingEntry`; the time of a transaction is
`nTimeReceived`. -/
structure OrderItem where
  key : OrderKey
  nTime : ℤ
  nOrderPos : ℤ
deriving DecidableEq

/-- The transactions stand in the order of their hashes, the accounting entries of the database in
the order of their keys. -/
structure OrderedWallet where
  mapWallet : List OrderItem
  acentries : List OrderItem
  nOrderPosNext : ℤ
deriving DecidableEq

def OrderKey.isEntry : OrderKey → Bool
  | .tx _ => false
  | .acentry _ _ => true

def OrderKey.inAccount (strAccount : String) : OrderKey → Bool
  | .tx _ => false
  | .acentry account _ => decide (account = strAccount)

namespace OrderedWallet

/-- `ListAccountCreditDebit`. The cursor goes from the first entry of the account to its last; the
entries of an account stand together. -/
def listAccountCreditDebit (w : OrderedWallet) (strAccount : String) : List OrderItem :=
  if strAccount = "*" then w.acentries else w.acentries.filter fun item => item.key.inAccount strAccount

def setOrderPos (w : OrderedWallet) (key : OrderKey) (nOrderPos : ℤ) : OrderedWallet :=
  let set := fun item : OrderItem =>
    if item.key = key then { item with nOrderPos := nOrderPos } else item
  { w with mapWallet := w.mapWallet.map set, acentries := w.acentries.map set }

def txByTime (w : OrderedWallet) : List OrderItem :=
  (w.mapWallet ++ w.listAccountCreditDebit "").insertionSort fun a b => a.nTime ≤ b.nTime

end OrderedWallet

/-- The loop of `ReorderTransactions`. `fWrite` says for which keys the database can be written;
accounting entries are nowhere else. -/
def reorderLoop (fWrite : OrderKey → Bool) :
    List OrderItem → List ℤ → OrderedWallet → DBErrors × OrderedWallet
  | [], _, w => (.loadOk, w)
  | item :: it, nOrderPosOffsets, w =>
    if item.nOrderPos = -1 then
      let nOrderPos := w.nOrderPosNext
      let w := { w with nOrderPosNext := w.nOrderPosNext + 1 }
      -- have to write accounting regardless, since we don't keep it in memory
      if item.key.isEntry && !fWrite item.key then (.loadFail, w)
      else reorderLoop fWrite it (nOrderPosOffsets ++ [nOrderPos]) (w.setOrderPos item.key nOrderPos)
    else
      let nOrderPosOff := nOrderPosOffsets.countP (· ≤ item.nOrderPos)
      let nOrderPos := item.nOrderPos + nOrderPosOff
      let w := { w with nOrderPosNext := max w.nOrderPosNext (nOrderPos + 1) }
      if nOrderPosOff = 0 then reorderLoop fWrite it nOrderPosOffsets w
      -- since we're changing the order, write it back
      else if !fWrite item.key then
        (.loadFail, if item.key.isEntry then w else w.setOrderPos item.key nOrderPos)
      else reorderLoop fWrite it nOrderPosOffsets (w.setOrderPos item.key nOrderPos)

def reorderTransactions (fWrite : OrderKey → Bool) (w : OrderedWallet) :
    DBErrors × OrderedWallet :=
  reorderLoop fWrite w.txByTime [] { w with nOrderPosNext := 0 }

/-- `p`, and one more for each of the positions up to it. -/
def raised (handedOut : List ℤ) (p : ℤ) : ℤ := p + handedOut.countP (· ≤ p)

/-- What is known after some of the positions: the first that is free, and those that were given to
entries without one. -/
structure Numbering where
  next : ℤ
  handedOut : List ℤ

namespace Numbering

def place (n : Numbering) (p : ℤ) : ℤ := if p = -1 then n.next else raised n.handedOut p

def add (n : Numbering) (p : ℤ) : Numbering where
  next := max n.next (n.place p + 1)
  handedOut := if p = -1 then n.handedOut ++ [n.next] else n.handedOut

end Numbering

def numbering (positions : List ℤ) : Numbering := positions.foldl Numbering.add ⟨0, []⟩

theorem numbering_append (l l' : List ℤ) :
    numbering (l ++ l') = l'.foldl Numbering.add (numbering l) := by
  unfold numbering
  rw [List.foldl_append]

theorem numbering_concat (l : List ℤ) (p : ℤ) : numbering (l ++ [p]) = (numbering l).add p :=
  numbering_append l [p]

theorem next_le_foldl (n : Numbering) (l : List ℤ) : n.next ≤ (l.foldl Numbering.add n).next := by
  induction l generalizing n with
  | nil => exact le_rfl
  | cons p l ih => exact (le_max_left _ _).trans (ih (n.add p))

theorem next_mono (l l' : List ℤ) : (numbering l).next ≤ (numbering (l ++ l')).next := by
  rw [numbering_append]
  exact next_le_foldl _ l'

theorem place_lt_next (l : List ℤ) (p : ℤ) (l' : List ℤ) :
    (numbering l).place p < (numbering (l ++ p :: l')).next := by
  have hstep : (numbering l).place p + 1 ≤ (numbering (l ++ [p])).next := by
    rw [numbering_concat]
    exact le_max_right _ _
  have hmono := next_mono (l ++ [p]) l'
  rw [List.append_assoc, List.singleton_append] at hmono
  omega

theorem next_nonneg (l : List ℤ) : 0 ≤ (numbering l).next := next_mono [] l

theorem next_le_iff (l : List ℤ) (x : ℤ) : (numbering l).next ≤ x ↔
    0 ≤ x ∧ ∀ a p b, l = a ++ p :: b → (numbering a).place p < x := by
  constructor
  · intro h
    refine ⟨(next_nonneg l).trans h, ?_⟩
    rintro a p b rfl
    exact lt_of_lt_of_le (place_lt_next a p b) h
  · rintro ⟨hzero, hall⟩
    induction l using List.reverseRecOn with
    | nil => exact hzero
    | append_singleton l p ih =>
      rw [numbering_concat]
      refine max_le (ih ?_) (hall l p [] rfl)
      rintro a q b rfl
      exact hall a q (b ++ [p]) (by rw [List.append_assoc, List.cons_append])

theorem concat_eq_append_cons {α : Type} {l a b : List α} {p q : α} :
    l ++ [p] = a ++ q :: b ↔
      (b = [] ∧ l = a ∧ p = q) ∨ ∃ b', b = b' ++ [p] ∧ l = a ++ q :: b' := by
  constructor
  · intro h
    rcases List.eq_nil_or_concat b with rfl | ⟨b', p', rfl⟩
    · obtain ⟨hl, hp⟩ := List.append_inj' h rfl
      exact .inl ⟨rfl, hl, List.singleton_inj.mp hp⟩
    · rw [List.concat_eq_append, ← List.cons_append, ← List.append_assoc] at h
      obtain ⟨hl, hp⟩ := List.append_inj' h rfl
      rw [List.concat_eq_append, List.singleton_inj.mp hp]
      exact .inr ⟨b', rfl, hl⟩
  · rintro (⟨rfl, rfl, rfl⟩ | ⟨b', rfl, rfl⟩)
    · rfl
    · rw [List.append_assoc, List.cons_append]

theorem mem_handedOut_iff (l : List ℤ) (o : ℤ) : o ∈ (numbering l).handedOut ↔
    ∃ a b, l = a ++ -1 :: b ∧ o = (numbering a).next := by
  induction l using List.reverseRecOn with
  | nil =>
    constructor
    · intro h
      exact absurd h List.not_mem_nil
    · rintro ⟨a, b, hl, -⟩
      exact absurd hl.symm (List.append_ne_nil_of_right_ne_nil a (List.cons_ne_nil _ _))
  | append_singleton l p ih =>
    have hold : (∃ a b, (∃ b', b = b' ++ [p] ∧ l = a ++ -1 :: b') ∧ o = (numbering a).next) ↔
        o ∈ (numbering l).handedOut := by
      rw [ih]
      constructor
      · rintro ⟨a, b, ⟨b', -, hl⟩, ho⟩
        exact ⟨a, b', hl, ho⟩
      · rintro ⟨a, b, hl, ho⟩
        exact ⟨a, b ++ [p], ⟨b, rfl, hl⟩, ho⟩
    have hnew : (∃ a, ∃ b : List ℤ, (b = [] ∧ l = a ∧ p = -1) ∧ o = (numbering a).next) ↔
        p = -1 ∧ o = (numbering l).next := by
      constructor
      · rintro ⟨a, b, ⟨-, rfl, hp⟩, ho⟩
        exact ⟨hp, ho⟩
      · rintro ⟨hp, ho⟩
        exact ⟨l, [], ⟨rfl, rfl, hp⟩, ho⟩
    simp only [concat_eq_append_cons, or_and_right, exists_or, hold, hnew]
    rw [numbering_concat, Numbering.add]
    by_cases hp : p = -1
    · rw [if_pos hp, List.mem_append, List.mem_singleton, or_comm]
      exact or_congr_left (and_iff_right hp).symm
    · rw [if_neg hp]
      exact ⟨.inr, fun h => h.resolve_left fun hboth => hp hboth.1⟩

theorem handedOut_nonneg {l : List ℤ} {o : ℤ} (h : o ∈ (numbering l).handedOut) : 0 ≤ o := by
  obtain ⟨a, b, -, rfl⟩ := (mem_handedOut_iff l o).mp h
  exact next_nonneg a

theorem length_handedOut_le (l : List ℤ) : (numbering l).handedOut.length ≤ l.length := by
  induction l using List.reverseRecOn with
  | nil => exact le_rfl
  | append_singleton l p ih =>
    rw [numbering_concat, Numbering.add, List.length_append, List.length_singleton]
    dsimp only
    split_ifs
    · rw [List.length_append, List.length_singleton]
      omega
    · omega

theorem next_le_add_length {l : List ℤ} {bound : ℤ} (hzero : 0 ≤ bound) (h : ∀ p ∈ l, p < bound) :
    (numbering l).next ≤ bound + l.length := by
  induction l using List.reverseRecOn with
  | nil => exact hzero.trans (le_of_eq (add_zero bound).symm)
  | append_singleton l p ih =>
    have hnext := ih fun q hq => h q (List.mem_append_left _ hq)
    have hp := h p (List.mem_append_right _ (List.mem_singleton.mpr rfl))
    have hlength := length_handedOut_le l
    have hcount := List.countP_le_length (p := fun o => decide (o ≤ p)) (l := (numbering l).handedOut)
    have hplace : (numbering l).place p + 1 ≤ bound + l.length + 1 := by
      rw [Numbering.place]
      split_ifs
      · omega
      · rw [raised]
        omega
    rw [numbering_concat, List.length_append, List.length_singleton]
    exact max_le (by omega) (by omega)

theorem le_raised (handedOut : List ℤ) (p : ℤ) : p ≤ raised handedOut p := by
  unfold raised
  omega

theorem raised_strictMono (handedOut : List ℤ) {p q : ℤ} (h : p < q) :
    raised handedOut p < raised handedOut q := by
  have hcount : handedOut.countP (· ≤ p) ≤ handedOut.countP (· ≤ q) := by
    apply List.countP_mono_left
    intro o _ ho
    rw [decide_eq_true_iff] at ho ⊢
    omega
  unfold raised
  omega

theorem place_eq_raised (a : List ℤ) {p : ℤ} (hp : p ≠ -1) (b : List ℤ) :
    (numbering a).place p = raised (numbering (a ++ p :: b)).handedOut p := by
  induction b using List.reverseRecOn with
  | nil =>
    rw [numbering_concat, Numbering.add, if_neg hp, Numbering.place, if_neg hp]
  | append_singleton b q ih =>
    rw [ih, ← List.cons_append, ← List.append_assoc, numbering_concat, Numbering.add]
    by_cases hq : q = -1
    · have hfree : ¬(numbering (a ++ p :: b)).next ≤ p := by
        have hlt := place_lt_next a p b
        have hle := le_raised (numbering (a ++ p :: b)).handedOut p
        omega
      rw [if_pos hq]
      unfold raised
      rw [List.countP_append, List.countP_singleton, decide_eq_false hfree,
        if_neg Bool.false_ne_true, Nat.add_zero]
    · rw [if_neg hq]

theorem next_inj {a b a' b' : List ℤ} (h : a ++ -1 :: b = a' ++ -1 :: b')
    (hnext : (numbering a).next = (numbering a').next) : a = a' := by
  have hlt : ∀ c d : List ℤ, (numbering c).next < (numbering (c ++ -1 :: d)).next := by
    intro c d
    have hplace := place_lt_next c (-1) d
    rwa [Numbering.place, if_pos rfl] at hplace
  rcases List.append_eq_append_iff.mp h with ⟨c, hc, hrest⟩ | ⟨c, hc, hrest⟩
  · cases c with
    | nil => rw [hc, List.append_nil]
    | cons q c =>
      rw [List.cons_append, List.cons.injEq] at hrest
      rw [hc, ← hrest.1] at hnext
      exact absurd hnext (hlt a c).ne
  · cases c with
    | nil => rw [hc, List.append_nil]
    | cons q c =>
      rw [List.cons_append, List.cons.injEq] at hrest
      rw [hc, ← hrest.1] at hnext
      exact absurd hnext (hlt a' c).ne'

namespace OrderedWallet

def items (w : OrderedWallet) : List OrderItem := w.mapWallet ++ w.acentries

def position (w : OrderedWallet) (key : OrderKey) : Option ℤ :=
  (w.items.find? fun item => item.key = key).map OrderItem.nOrderPos

theorem position_setOrderPos (w : OrderedWallet) (key key' : OrderKey) (nOrderPos : ℤ) :
    (w.setOrderPos key nOrderPos).position key' =
      if key' = key then (w.position key').map fun _ => nOrderPos else w.position key' := by
  obtain ⟨set, hset⟩ : ∃ set : OrderItem → OrderItem, set = fun item =>
      if item.key = key then { item with nOrderPos := nOrderPos } else item := ⟨_, rfl⟩
  have hkey : ∀ item, (set item).key = item.key := by
    intro item
    rw [hset]
    dsimp only
    split <;> rfl
  have hitems : (w.setOrderPos key nOrderPos).items = w.items.map set := by
    rw [items, items, List.map_append, hset]
    rfl
  have hfind : (fun item : OrderItem => decide (item.key = key')) ∘ set =
      fun item => decide (item.key = key') := by
    funext item
    rw [Function.comp_apply, hkey]
  rw [position, hitems, List.find?_map, hfind, position, Option.map_map]
  cases hitem : w.items.find? fun item => item.key = key' with
  | none =>
    rw [Option.map_none, Option.map_none, Option.map_none, ite_self]
  | some item =>
    have hsame : item.key = key' := by simpa using List.find?_some hitem
    rw [Option.map_some, Option.map_some, Option.map_some, Function.comp_apply, hset]
    dsimp only
    rw [hsame]
    split <;> rfl

end OrderedWallet

variable {fWrite : OrderKey → Bool} {w w' : OrderedWallet}

theorem reorderLoop_cons {item : OrderItem} {it : List OrderItem} {a : List ℤ}
    (h : reorderLoop fWrite (item :: it) (numbering a).handedOut w = (.loadOk, w'))
    (hnext : w.nOrderPosNext = (numbering a).next)
    (hpos : w.position item.key = some item.nOrderPos) :
    ∃ w1, reorderLoop fWrite it (numbering (a ++ [item.nOrderPos])).handedOut w1 = (.loadOk, w') ∧
      w1.nOrderPosNext = (numbering (a ++ [item.nOrderPos])).next ∧
      ∀ key, w1.position key =
        if key = item.key then some ((numbering a).place item.nOrderPos) else w.position key := by
  have hset : ∀ (w1 : OrderedWallet), w1.items = w.items → ∀ pos key,
      (w1.setOrderPos item.key pos).position key =
        if key = item.key then some pos else w.position key := by
    intro w1 hitems pos key
    have hsame : w1.position = w.position := by
      funext key
      rw [OrderedWallet.position, hitems, OrderedWallet.position]
    rw [OrderedWallet.position_setOrderPos, hsame]
    by_cases hkey : key = item.key
    · rw [if_pos hkey, if_pos hkey, hkey, hpos, Option.map_some]
    · rw [if_neg hkey, if_neg hkey]
  rw [reorderLoop] at h
  dsimp only at h
  rw [numbering_concat, Numbering.add, Numbering.place]
  by_cases hp : item.nOrderPos = -1
  · rw [if_pos hp] at h
    rw [if_pos hp, if_pos hp, max_eq_right (by omega), ← hnext]
    split at h
    · cases h
    · exact ⟨_, h, rfl, hset _ rfl _⟩
  · rw [if_neg hp] at h
    rw [if_neg hp, if_neg hp, ← hnext]
    by_cases hoff : (numbering a).handedOut.countP (· ≤ item.nOrderPos) = 0
    · rw [if_pos hoff] at h
      refine ⟨_, h, rfl, ?_⟩
      intro key
      have hraised : raised (numbering a).handedOut item.nOrderPos = item.nOrderPos := by
        rw [raised, hoff]
        omega
      rw [hraised]
      by_cases hkey : key = item.key
      · rw [if_pos hkey, hkey]
        exact hpos
      · rw [if_neg hkey]
        rfl
    · rw [if_neg hoff] at h
      split at h
      · cases h
      · exact ⟨_, h, rfl, hset _ rfl _⟩

theorem reorderLoop_ok {it : List OrderItem} {a : List ℤ}
    (h : reorderLoop fWrite it (numbering a).handedOut w = (.loadOk, w'))
    (hnext : w.nOrderPosNext = (numbering a).next) (hkeys : (it.map OrderItem.key).Nodup)
    (hpos : ∀ item ∈ it, w.position item.key = some item.nOrderPos) :
    w'.nOrderPosNext = (numbering (a ++ it.map OrderItem.nOrderPos)).next ∧
      (∀ key, key ∉ it.map OrderItem.key → w'.position key = w.position key) ∧
      ∀ b item c, it = b ++ item :: c → w'.position item.key =
        some ((numbering (a ++ b.map OrderItem.nOrderPos)).place item.nOrderPos) := by
  induction it generalizing a w with
  | nil =>
    cases h
    refine ⟨by rw [List.map_nil, List.append_nil]; exact hnext, fun _ _ => rfl, ?_⟩
    intro b item c hl
    exact absurd hl.symm (List.append_ne_nil_of_right_ne_nil b (List.cons_ne_nil _ _))
  | cons item it ih =>
    obtain ⟨w1, h1, hnext1, hpos1⟩ := reorderLoop_cons h hnext (hpos item List.mem_cons_self)
    rw [List.map_cons, List.nodup_cons] at hkeys
    obtain ⟨hfresh, hkeys⟩ := hkeys
    obtain ⟨hnext', hframe, hplaced⟩ := ih h1 hnext1 hkeys (by
      intro other hother
      have hne : other.key ≠ item.key := by
        intro heq
        rw [← heq] at hfresh
        exact hfresh (List.mem_map_of_mem hother)
      rw [hpos1, if_neg hne]
      exact hpos other (List.mem_cons_of_mem _ hother))
    refine ⟨?_, ?_, ?_⟩
    · rw [hnext', List.append_assoc, List.singleton_append, List.map_cons]
    · intro key hkey
      rw [List.map_cons, List.mem_cons, not_or] at hkey
      rw [hframe key hkey.2, hpos1, if_neg hkey.1]
    · intro b other c hl
      cases b with
      | nil =>
        rw [List.nil_append, List.cons.injEq] at hl
        rw [← hl.1, hframe item.key hfresh, hpos1, if_pos rfl, List.map_nil, List.append_nil]
      | cons first b =>
        rw [List.cons_append, List.cons.injEq] at hl
        rw [hplaced b other c hl.2, ← hl.1, List.map_cons, List.append_assoc,
          List.singleton_append]

end Beancash
