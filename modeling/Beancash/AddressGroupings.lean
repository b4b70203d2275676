import Beancash.AccountBalances
import Beancash.FallibleStep
import Beancash.SetMerging
import Mathlib.Data.Finset.Union
import Mathlib.Order.Lattice.Nat

namespace Beancash

open Fallible SetMerging

instance : IsStrictTotalOrder Uint256 fun a b => a.toNat < b.toNat where
  trichotomous a b h h' := BitVec.eq_of_toNat_eq (by omega)
  irrefl a := Nat.lt_irrefl _
  trans a b c := Nat.lt_trans

abbrev MapWallet := SortedMap (fun a b : Uint256 => a.toNat < b.toNat) AccountTx

/-- `CWalletTx()` -/
def AccountTx.null (v : ChainView) : AccountTx where
  tx := ⟨1, .ofInt v.nAdjustedTime, [], [], 0⟩
  hashBlock := 0
  vMerkleBranch := []
  nIndex := -1
  fFromMe := false
  vfSpent := []
  caches := .empty
  vtxPrev := []
  mapValue := .empty
  nTimeReceived := 0
  nTimeSmart := 0
  strFromAccount := []
  nOrderPos := -1

/-- A group is inserted into the set of groups. -/
def insertGroup {α : Type} [DecidableEq α] (groupings : List (Finset α)) (grouping : Finset α) :
    List (Finset α) :=
  if grouping ∈ groupings then groupings else groupings ++ [grouping]

/-- `mapWallet[hash]`: where there is no such transaction, one is made. -/
def walletAt (v : ChainView) (hash : Uint256) : Step MapWallet AccountTx := fun mapWallet =>
  match mapWallet.find hash with
  | some wtx => (some wtx, mapWallet)
  | none => (some (.null v), mapWallet.insert hash (.null v))

/-- The output that an input spends, if the wallet has it. -/
def previousOutput (mapWallet : MapWallet) (prevout : OutPoint) : Option TxOut :=
  (mapWallet.find prevout.hash).bind fun prev => prev.tx.vout[prevout.n.toNat]?

namespace AccountWallet

variable (c : Crypto) (v : ChainView) (w : AccountWallet)

/-- `IsMine` of an input. -/
def isMineInput (mapWallet : MapWallet) (prevout : OutPoint) : Bool :=
  (previousOutput mapWallet prevout).any (w.amounts.isMine c)

/-- The loop that groups all input addresses with each other. -/
def groupInputs : List OutPoint → Finset TxDestination → Step MapWallet (Finset TxDestination)
  | [], grouping => pure grouping
  | prevout :: prevouts, grouping => do
    let prev ← walletAt v prevout.hash
    -- the output is not there to be read if it has no such index
    let txout ← Step.ofOption prev.tx.vout[prevout.n.toNat]?
    match extractDestination c txout.scriptPubKey with
    | none => groupInputs prevouts grouping
    | some address => groupInputs prevouts (insert address grouping)

/-- The loop that groups change with input addresses. -/
def groupChange (first : OutPoint) :
    List TxOut → Finset TxDestination → Step MapWallet (Finset TxDestination)
  | [], grouping => pure grouping
  | txout :: vout, grouping =>
    if w.amounts.isChange c txout then do
      let _ ← walletAt v first.hash
      match extractDestination c txout.scriptPubKey with
      | none => groupChange first vout grouping
      | some txoutAddr => groupChange first vout (insert txoutAddr grouping)
    else groupChange first vout grouping

/-- The loop that groups lone addresses by themselves. -/
def groupLone : List TxOut → List (Finset TxDestination) → List (Finset TxDestination)
  | [], groupings => groupings
  | txout :: vout, groupings =>
    if w.amounts.isMine c txout then
      match extractDestination c txout.scriptPubKey with
      | none => groupLone vout groupings
      | some address => groupLone vout (insertGroup groupings {address})
    else groupLone vout groupings

/-- The group of the inputs and the change of a transaction, if the first input is own. -/
def groupSpending (wtx : AccountTx) (groupings : List (Finset TxDestination)) :
    Step MapWallet (List (Finset TxDestination)) :=
  match wtx.tx.prevouts with
  | [] => pure groupings
  | first :: prevouts => do
    if ← Step.read fun mapWallet => w.isMineInput c mapWallet first then
      let grouping ← groupInputs c v (first :: prevouts) ∅
      let grouping ← groupChange c v w first wtx.tx.vout grouping
      pure (insertGroup groupings grouping)
    else pure groupings

/-- The loop over the transactions. -/
def groupTransactions :
    List AccountTx → List (Finset TxDestination) → Step MapWallet (List (Finset TxDestination))
  | [], groupings => pure groupings
  | wtx :: wtxs, groupings => do
    let groupings ← groupSpending c v w wtx groupings
    groupTransactions wtxs (groupLone c w wtx.tx.vout groupings)

end AccountWallet

/-- What `new` returns: a pointer that no set has which is there. -/
structure Allocator where
  new : Finset ℕ → ℕ
  new_notMem : ∀ live, new live ∉ live

/-- The order in which a set is gone through. -/
structure SetOrder (α : Type) where
  toList : List α → List α
  perm : ∀ l, (toList l).Perm l

/-- The sets that pointers point to, the pointers to groups of addresses, and the group that each
address is in. -/
structure GroupPointers (α : Type) where
  sets : ℕ → Option (Finset α)
  uniqueGroupings : Finset ℕ
  setmap : α → Option ℕ

def GroupPointers.empty {α : Type} : GroupPointers α := ⟨fun _ => none, ∅, fun _ => none⟩

section Merge

variable {α : Type} [DecidableEq α]

/-- A round of the loop over the groups. The groups hit by the new one are read, merged with it and
deleted; a group that has been deleted cannot be read. -/
def mergeGrouping (alloc : Allocator) (s : GroupPointers α) (grouping : Finset α) :
    Option (GroupPointers α) :=
  let hits := grouping.biUnion fun address => (s.setmap address).toFinset
  let merged := alloc.new s.uniqueGroupings
  if ∀ hit ∈ hits, (s.sets hit).isSome then
    let group := grouping ∪ hits.biUnion fun hit => (s.sets hit).getD ∅
    some
      { sets := fun p => if p = merged then some group else if p ∈ hits then none else s.sets p
        uniqueGroupings := insert merged (s.uniqueGroupings \ hits)
        setmap := fun element => if element ∈ group then some merged else s.setmap element }
  else none

/-- The loop over the groups, and the groups that are pointed to in the end. -/
def mergeGroupings (alloc : Allocator) (groupings : List (Finset α)) : Option (Finset (Finset α)) :=
  (groupings.foldlM (mergeGrouping alloc) .empty).bind fun s =>
    if ∀ p ∈ s.uniqueGroupings, (s.sets p).isSome then
      some (s.uniqueGroupings.image fun p => (s.sets p).getD ∅)
    else none

end Merge

def AccountWallet.getAddressGroupings (c : Crypto) (v : ChainView) (alloc : Allocator)
    (order : SetOrder (Finset TxDestination)) (w : AccountWallet) :
    Step MapWallet (Finset (Finset TxDestination)) := do
  let groupings ← groupTransactions c v w w.transactions []
  Step.ofOption (mergeGroupings alloc (order.toList groupings))

section Merge

variable {α : Type}

/-- The pointers point to the groups of `Q`, and the map says where an address is. -/
structure GroupPointers.Holds (s : GroupPointers α) (Q : Set (Finset α)) : Prop where
  live : ∀ p ∈ s.uniqueGroupings, ∃ t ∈ Q, s.sets p = some t
  pointed : ∀ t ∈ Q, ∃ p ∈ s.uniqueGroupings, s.sets p = some t
  setmap : ∀ a p, s.setmap a = some p ↔ p ∈ s.uniqueGroupings ∧ ∃ t, s.sets p = some t ∧ a ∈ t

theorem holds_empty : (GroupPointers.empty : GroupPointers α).Holds ∅ where
  live p hp := absurd hp (Finset.notMem_empty p)
  pointed t ht := absurd ht (Set.notMem_empty t)
  setmap a p := by simp [GroupPointers.empty]

theorem GroupPointers.Holds.mem_hits {s : GroupPointers α} {Q : Set (Finset α)} (h : s.Holds Q)
    (grouping : Finset α) (p : ℕ) :
    p ∈ (grouping.biUnion fun address => (s.setmap address).toFinset) ↔
      p ∈ s.uniqueGroupings ∧ ∃ t, s.sets p = some t ∧ ¬Disjoint t grouping := by
  simp only [Finset.mem_biUnion, Option.mem_toFinset, Option.mem_def, h.setmap,
    Finset.not_disjoint_iff]
  constructor
  · rintro ⟨a, ha, hp, t, ht, hat⟩
    exact ⟨hp, t, ht, a, hat, ha⟩
  · rintro ⟨hp, t, ht, a, hat, ha⟩
    exact ⟨a, ha, hp, t, ht, hat⟩

variable [DecidableEq α]

theorem GroupPointers.Holds.merge {s : GroupPointers α} {G Q : Set (Finset α)} (h : s.Holds Q)
    (hQ : Components G Q) (alloc : Allocator) (grouping : Finset α) :
    ∃ s' Q', mergeGrouping alloc s grouping = some s' ∧ s'.Holds Q' ∧
      Components (insert grouping G) Q' := by
  have hhits := h.mem_hits grouping
  have hnew := alloc.new_notMem s.uniqueGroupings
  unfold mergeGrouping
  generalize (grouping.biUnion fun address => (s.setmap address).toFinset) = hits at hhits ⊢
  generalize alloc.new s.uniqueGroupings = merged at hnew ⊢
  have hread : ∀ hit ∈ hits, (s.sets hit).isSome := fun hit hhit => by
    obtain ⟨-, t, ht, -⟩ := (hhits hit).mp hhit
    exact Option.isSome_of_eq_some ht
  have hgroup : ∀ a, a ∈ (grouping ∪ hits.biUnion fun hit => (s.sets hit).getD ∅) ↔
      a ∈ grouping ∨ ∃ t ∈ Q, ¬Disjoint t grouping ∧ a ∈ t := by
    intro a
    rw [Finset.mem_union, Finset.mem_biUnion]
    refine or_congr_right ⟨?_, ?_⟩
    · rintro ⟨hit, hhit, ha⟩
      obtain ⟨hp, t, ht, hmeets⟩ := (hhits hit).mp hhit
      obtain ⟨t', ht'Q, ht'⟩ := h.live hit hp
      obtain rfl := Option.some_injective _ (ht.symm.trans ht')
      rw [ht, Option.getD_some] at ha
      exact ⟨t, ht'Q, hmeets, ha⟩
    · rintro ⟨t, htQ, hmeets, ha⟩
      obtain ⟨p, hp, ht⟩ := h.pointed t htQ
      exact ⟨p, (hhits p).mpr ⟨hp, t, ht, hmeets⟩, by rwa [ht, Option.getD_some]⟩
  rw [if_pos hread]
  generalize (grouping ∪ hits.biUnion fun hit => (s.sets hit).getD ∅) = group at hgroup ⊢
  refine ⟨_, _, rfl, ?_, hQ.merge hgroup⟩
  -- a pointer that stays is not the new one, and its set is as it was
  have hstays : ∀ p ∈ s.uniqueGroupings, p ≠ merged := fun p hp heq => hnew (heq ▸ hp)
  refine ⟨fun p hp => ?_, fun t ht => ?_, fun a p => ?_⟩
  · rcases Finset.mem_insert.mp hp with rfl | hp
    · exact ⟨group, Set.mem_insert _ _, if_pos rfl⟩
    · obtain ⟨hp, hhit⟩ := Finset.mem_sdiff.mp hp
      obtain ⟨t, htQ, ht⟩ := h.live p hp
      refine ⟨t, Set.mem_insert_of_mem _ ⟨htQ, ?_⟩, ?_⟩
      · by_contra hmeets
        exact hhit ((hhits p).mpr ⟨hp, t, ht, hmeets⟩)
      · rw [← ht]
        exact (if_neg (hstays p hp)).trans (if_neg hhit)
  · rcases ht with rfl | ⟨htQ, hdis⟩
    · exact ⟨merged, Finset.mem_insert_self _ _, if_pos rfl⟩
    · obtain ⟨p, hp, ht⟩ := h.pointed t htQ
      have hhit : p ∉ hits := fun hhit => by
        obtain ⟨-, t', ht', hmeets⟩ := (hhits p).mp hhit
        exact hmeets (Option.some_injective _ (ht.symm.trans ht') ▸ hdis)
      refine ⟨p, Finset.mem_insert_of_mem (Finset.mem_sdiff.mpr ⟨hp, hhit⟩), ?_⟩
      rw [← ht]
      exact (if_neg (hstays p hp)).trans (if_neg hhit)
  · dsimp only
    rw [Finset.mem_insert, Finset.mem_sdiff]
    by_cases hpm : p = merged
    · rw [if_pos hpm, hpm]
      split_ifs with ha
      · exact iff_of_true rfl ⟨.inl rfl, group, rfl, ha⟩
      · refine iff_of_false (fun hset => hnew ((h.setmap a merged).mp hset).1) ?_
        rintro ⟨-, t, ht, hat⟩
        exact ha (Option.some_injective _ ht ▸ hat)
    · rw [if_neg hpm, or_iff_right hpm]
      split_ifs with ha hhit hhit
      · exact iff_of_false (fun heq => hpm (Option.some_injective _ heq).symm)
          fun hset => hset.1.2 hhit
      · refine iff_of_false (fun heq => hpm (Option.some_injective _ heq).symm) ?_
        rintro ⟨⟨hp, -⟩, t, ht, hat⟩
        -- an element of the new group was in a group that was hit, if in any
        rcases (hgroup a).mp ha with hg | ⟨t', ht'Q, hmeets, hat'⟩
        · exact hhit ((hhits p).mpr ⟨hp, t, ht, Finset.not_disjoint_iff.mpr ⟨a, hat, hg⟩⟩)
        · obtain ⟨p', hp', ht'⟩ := h.pointed t' ht'Q
          have hsame := ((h.setmap a p).mpr ⟨hp, t, ht, hat⟩).symm.trans
            ((h.setmap a p').mpr ⟨hp', t', ht', hat'⟩)
          obtain rfl := Option.some_injective _ hsame
          exact hhit ((hhits p).mpr ⟨hp, t', ht', hmeets⟩)
      · refine iff_of_false (fun hset => ?_) fun hset => hset.1.2 hhit
        obtain ⟨-, t, ht, hat⟩ := (h.setmap a p).mp hset
        obtain ⟨hp, t', ht', hmeets⟩ := (hhits p).mp hhit
        obtain rfl := Option.some_injective _ (ht.symm.trans ht')
        obtain ⟨t', ht'Q, ht'⟩ := h.live p hp
        obtain rfl := Option.some_injective _ (ht.symm.trans ht')
        exact ha ((hgroup a).mpr (.inr ⟨t, ht'Q, hmeets, hat⟩))
      · rw [h.setmap, and_iff_left hhit]

theorem mergeGroupings_components (alloc : Allocator) (groupings : List (Finset α)) :
    ∃ groups : Finset (Finset α), mergeGroupings alloc groupings = some groups ∧
      Components {g | g ∈ groupings} {t | t ∈ groups} := by
  have hloop : ∀ (l : List (Finset α)) (s : GroupPointers α) (G Q : Set (Finset α)), s.Holds Q →
      Components G Q → ∃ s' Q', l.foldlM (mergeGrouping alloc) s = some s' ∧ s'.Holds Q' ∧
        Components {g | g ∈ l ∨ g ∈ G} Q' := by
    intro l
    induction l with
    | nil =>
      intro s G Q hs hQ
      exact ⟨s, Q, rfl, hs, by simpa using hQ⟩
    | cons g l ih =>
      intro s G Q hs hQ
      obtain ⟨s₁, Q₁, hs₁, hholds, hQ₁⟩ := hs.merge hQ alloc g
      obtain ⟨s', Q', hs', hholds', hQ'⟩ := ih s₁ _ Q₁ hholds hQ₁
      refine ⟨s', Q', ?_, hholds', ?_⟩
      · rw [List.foldlM_cons, hs₁]
        exact hs'
      · have hsets : {g' | g' ∈ g :: l ∨ g' ∈ G} = {g' | g' ∈ l ∨ g' ∈ insert g G} := by
          ext g'
          simp only [Set.mem_ofPred_eq, List.mem_cons, Set.mem_insert_iff]
          tauto
        rwa [hsets]
  obtain ⟨s, Q, hs, hholds, hQ⟩ := hloop groupings .empty ∅ ∅ holds_empty components_empty
  have hlive : ∀ p ∈ s.uniqueGroupings, (s.sets p).isSome := fun p hp => by
    obtain ⟨t, -, ht⟩ := hholds.live p hp
    exact Option.isSome_of_eq_some ht
  unfold mergeGroupings
  rw [hs, Option.bind_some, if_pos hlive]
  refine ⟨_, rfl, ?_⟩
  have hgroups : {t | t ∈ s.uniqueGroupings.image fun p => (s.sets p).getD ∅} = Q := by
    ext t
    rw [Set.mem_ofPred_eq, Finset.mem_image]
    constructor
    · rintro ⟨p, hp, rfl⟩
      obtain ⟨t, htQ, ht⟩ := hholds.live p hp
      rwa [ht]
    · intro htQ
      obtain ⟨p, hp, ht⟩ := hholds.pointed t htQ
      exact ⟨p, hp, by rw [ht, Option.getD_some]⟩
  rw [hgroups]
  simpa using hQ

end Merge

theorem run_readOutput_of_some {β : Type} (v : ChainView) {mapWallet : MapWallet}
    {prevout : OutPoint} {txout : TxOut} (h : previousOutput mapWallet prevout = some txout)
    (f : TxOut → Step MapWallet β) :
    (do
      let prev ← walletAt v prevout.hash
      let txout ← Step.ofOption prev.tx.vout[prevout.n.toNat]?
      f txout).run mapWallet = (f txout).run mapWallet := by
  obtain ⟨prev, hprev, htxout⟩ := Option.bind_eq_some_iff.mp h
  have hat : (walletAt v prevout.hash).run mapWallet = (some prev, mapWallet) := by
    simp only [Step.run, walletAt, hprev]
  rw [Step.run_bind_of_some hat, htxout]
  exact Step.run_bind_of_some rfl

theorem run_readOutput_of_none {β : Type} (v : ChainView) {mapWallet : MapWallet}
    {prevout : OutPoint} (h : previousOutput mapWallet prevout = none) (f : TxOut → Step MapWallet β) :
    ((do
      let prev ← walletAt v prevout.hash
      let txout ← Step.ofOption prev.tx.vout[prevout.n.toNat]?
      f txout).run mapWallet).1 = none := by
  have hat : ∃ prev mapWallet', (walletAt v prevout.hash).run mapWallet = (some prev, mapWallet') ∧
      prev.tx.vout[prevout.n.toNat]? = none := by
    cases hprev : mapWallet.find prevout.hash with
    | none =>
      exact ⟨.null v, mapWallet.insert prevout.hash (.null v),
        by simp only [Step.run, walletAt, hprev], rfl⟩
    | some prev =>
      refine ⟨prev, mapWallet, by simp only [Step.run, walletAt, hprev], ?_⟩
      rwa [previousOutput, hprev] at h
  obtain ⟨prev, mapWallet', hat, hnone⟩ := hat
  rw [Step.run_bind_of_some hat, hnone]
  exact congrArg Prod.fst (Step.run_bind_of_none rfl)

namespace AccountWallet

variable (c : Crypto) (v : ChainView) (w : AccountWallet)

/-- The addresses that inputs spend from. -/
def inputAddresses (prevouts : List OutPoint) : List TxDestination :=
  prevouts.filterMap fun prevout => (previousOutput w.mapWallet prevout).bind fun txout =>
    extractDestination c txout.scriptPubKey

/-- The addresses that change goes to. -/
def changeAddresses (vout : List TxOut) : List TxDestination :=
  (vout.filter (w.amounts.isChange c)).filterMap fun txout => extractDestination c txout.scriptPubKey

/-- The transaction spends, as its first input shows. -/
def isSpending (wtx : AccountTx) : Bool :=
  wtx.tx.prevouts.head?.any (w.isMineInput c w.mapWallet)

/-- An initial group that a transaction shows. -/
inductive ShowsGroup (wtx : AccountTx) : Finset TxDestination → Prop
  | spending (h : w.isSpending c wtx = true) :
    ShowsGroup wtx
      (w.inputAddresses c wtx.tx.prevouts ++ w.changeAddresses c wtx.tx.vout).toFinset
  | lone {txout : TxOut} {address : TxDestination} (hmem : txout ∈ wtx.tx.vout)
    (hmine : w.amounts.isMine c txout = true)
    (haddress : extractDestination c txout.scriptPubKey = some address) : ShowsGroup wtx {address}

/-- An initial group. -/
def IsInitialGroup (grouping : Finset TxDestination) : Prop :=
  ∃ wtx ∈ w.transactions, w.ShowsGroup c wtx grouping

/-- The wallet has every output that the transaction spends. -/
def HasPrevious (wtx : AccountTx) : Prop :=
  ∀ prevout ∈ wtx.tx.prevouts, (previousOutput w.mapWallet prevout).isSome = true

theorem groupInputs_of_isSome {prevouts : List OutPoint}
    (h : ∀ prevout ∈ prevouts, (previousOutput w.mapWallet prevout).isSome = true)
    (grouping : Finset TxDestination) :
    (groupInputs c v prevouts grouping).run w.mapWallet =
      (some (grouping ∪ (w.inputAddresses c prevouts).toFinset), w.mapWallet) := by
  induction prevouts generalizing grouping with
  | nil =>
    simp only [groupInputs, inputAddresses, Step.run_pure, List.filterMap_nil, List.toFinset_nil,
      Finset.union_empty]
  | cons prevout prevouts ih =>
    obtain ⟨hfirst, hrest⟩ := List.forall_mem_cons.mp h
    obtain ⟨txout, htxout⟩ := Option.isSome_iff_exists.mp hfirst
    rw [groupInputs, run_readOutput_of_some v htxout]
    unfold inputAddresses at ih ⊢
    cases haddress : extractDestination c txout.scriptPubKey with
    | none =>
      dsimp only
      rw [ih hrest, List.filterMap_cons_none (by rw [htxout]; exact haddress)]
    | some address =>
      dsimp only
      rw [ih hrest, List.filterMap_cons_some (by rw [htxout]; exact haddress), List.toFinset_cons,
        Finset.insert_union, Finset.union_insert]

theorem groupInputs_of_eq_none {prevouts : List OutPoint} {prevout : OutPoint}
    (hmem : prevout ∈ prevouts) (h : previousOutput w.mapWallet prevout = none)
    (grouping : Finset TxDestination) :
    ((groupInputs c v prevouts grouping).run w.mapWallet).1 = none := by
  induction prevouts generalizing grouping with
  | nil => exact absurd hmem (List.not_mem_nil)
  | cons first prevouts ih =>
    rw [groupInputs]
    cases hfirst : previousOutput w.mapWallet first with
    | none => exact run_readOutput_of_none v hfirst _
    | some txout =>
      rw [run_readOutput_of_some v hfirst]
      have hrest : prevout ∈ prevouts := by
        rcases List.mem_cons.mp hmem with rfl | hrest
        · exact absurd (h.symm.trans hfirst) (by simp)
        · exact hrest
      cases extractDestination c txout.scriptPubKey with
      | none => exact ih hrest grouping
      | some address => exact ih hrest (insert address grouping)

/-- The transaction that the first input spends from is looked up, and nothing done with it. -/
theorem groupChange_run {first : OutPoint}
    (h : (previousOutput w.mapWallet first).isSome = true) (vout : List TxOut)
    (grouping : Finset TxDestination) :
    (groupChange c v w first vout grouping).run w.mapWallet =
      (some (grouping ∪ (w.changeAddresses c vout).toFinset), w.mapWallet) := by
  obtain ⟨prev, hprev⟩ : ∃ prev, w.mapWallet.find first.hash = some prev := by
    obtain ⟨txout, htxout⟩ := Option.isSome_iff_exists.mp h
    obtain ⟨prev, hprev, -⟩ := Option.bind_eq_some_iff.mp htxout
    exact ⟨prev, hprev⟩
  have hat : (walletAt v first.hash).run w.mapWallet = (some prev, w.mapWallet) := by
    simp only [Step.run, walletAt, hprev]
  induction vout generalizing grouping with
  | nil =>
    simp only [groupChange, changeAddresses, Step.run_pure, List.filter_nil, List.filterMap_nil,
      List.toFinset_nil, Finset.union_empty]
  | cons txout vout ih =>
    rw [groupChange]
    unfold changeAddresses at ih ⊢
    by_cases hchange : w.amounts.isChange c txout = true
    · rw [if_pos hchange, Step.run_bind_of_some hat, List.filter_cons_of_pos hchange]
      cases haddress : extractDestination c txout.scriptPubKey with
      | none =>
        dsimp only
        rw [ih, List.filterMap_cons_none
          (f := fun txout : TxOut => extractDestination c txout.scriptPubKey) haddress]
      | some address =>
        dsimp only
        rw [ih, List.filterMap_cons_some
          (f := fun txout : TxOut => extractDestination c txout.scriptPubKey) haddress,
          List.toFinset_cons, Finset.insert_union, Finset.union_insert]
    · rw [if_neg hchange, ih, List.filter_cons_of_neg hchange]

theorem mem_insertGroup {α : Type} [DecidableEq α] {groupings : List (Finset α)}
    {grouping g : Finset α} : g ∈ insertGroup groupings grouping ↔ g ∈ groupings ∨ g = grouping := by
  unfold insertGroup
  split_ifs with hmem
  · refine (or_iff_left_of_imp ?_).symm
    rintro rfl
    exact hmem
  · rw [List.mem_append, List.mem_singleton]

theorem mem_groupLone (vout : List TxOut) (groupings : List (Finset TxDestination))
    (g : Finset TxDestination) :
    g ∈ groupLone c w vout groupings ↔ g ∈ groupings ∨ ∃ txout ∈ vout, ∃ address,
      w.amounts.isMine c txout = true ∧ extractDestination c txout.scriptPubKey = some address ∧
        g = {address} := by
  induction vout generalizing groupings with
  | nil => simp [groupLone]
  | cons txout vout ih =>
    simp only [List.exists_mem_cons_iff]
    unfold groupLone
    by_cases hmine : w.amounts.isMine c txout = true
    · rw [if_pos hmine]
      cases haddress : extractDestination c txout.scriptPubKey with
      | none => simp [ih]
      | some address =>
        simp only [ih, mem_insertGroup, hmine, true_and, Option.some.injEq, exists_eq_left', or_assoc]
    · rw [if_neg hmine, ih]
      simp [hmine]

theorem groupSpending_run (wtx : AccountTx) (groupings : List (Finset TxDestination)) :
    (groupSpending c v w wtx groupings).run w.mapWallet =
      if w.isSpending c wtx then
        (do
          let grouping ← groupInputs c v wtx.tx.prevouts ∅
          let grouping ← groupChange c v w (wtx.tx.prevouts.headD ⟨0, 0⟩) wtx.tx.vout grouping
          pure (insertGroup groupings grouping)).run w.mapWallet
      else (some groupings, w.mapWallet) := by
  unfold groupSpending isSpending
  cases wtx.tx.prevouts with
  | nil => rfl
  | cons first prevouts =>
    rw [Step.run_bind_of_some (Step.run_read _ _)]
    dsimp only [List.head?_cons, Option.any_some, List.headD_cons]
    by_cases hmine : w.isMineInput c w.mapWallet first = true
    · rw [if_pos hmine]
      exact (if_pos hmine).symm
    · rw [if_neg hmine]
      exact (if_neg hmine).symm

/-- The groups of a transaction of which the wallet has every output that it spends. -/
theorem groupSpending_of_hasPrevious {wtx : AccountTx}
    (h : w.isSpending c wtx = true → w.HasPrevious wtx) (groupings : List (Finset TxDestination)) :
    ∃ groupings', (groupSpending c v w wtx groupings).run w.mapWallet =
        (some groupings', w.mapWallet) ∧
      ∀ g, g ∈ groupLone c w wtx.tx.vout groupings' ↔ g ∈ groupings ∨ w.ShowsGroup c wtx g := by
  rw [groupSpending_run]
  have hlone : ∀ g, (∃ txout ∈ wtx.tx.vout, ∃ address, w.amounts.isMine c txout = true ∧
      extractDestination c txout.scriptPubKey = some address ∧ g = {address}) →
      w.ShowsGroup c wtx g := by
    rintro g ⟨txout, hmem, address, hmine, haddress, rfl⟩
    exact .lone hmem hmine haddress
  by_cases hspending : w.isSpending c wtx = true
  · have hprevious := h hspending
    have hfirst : (previousOutput w.mapWallet (wtx.tx.prevouts.headD ⟨0, 0⟩)).isSome = true := by
      unfold HasPrevious at hprevious
      unfold isSpending at hspending
      cases hprevouts : wtx.tx.prevouts with
      | nil => simp [hprevouts] at hspending
      | cons first prevouts => exact hprevious first (by rw [hprevouts]; exact List.mem_cons_self)
    rw [if_pos hspending, Step.run_bind_of_some (groupInputs_of_isSome c v w hprevious ∅),
      Step.run_bind_of_some (groupChange_run c v w hfirst _ _)]
    refine ⟨_, rfl, fun g => ?_⟩
    rw [mem_groupLone, mem_insertGroup, Finset.empty_union, ← List.toFinset_append, or_assoc]
    refine or_congr_right ⟨?_, ?_⟩
    · rintro (rfl | h)
      · exact .spending hspending
      · exact hlone g h
    · rintro (- | ⟨hmem, hmine, haddress⟩)
      · exact .inl rfl
      · exact .inr ⟨_, hmem, _, hmine, haddress, rfl⟩
  · rw [if_neg hspending]
    refine ⟨groupings, rfl, fun g => ?_⟩
    rw [mem_groupLone]
    refine or_congr_right ⟨hlone g, ?_⟩
    rintro (h | ⟨hmem, hmine, haddress⟩)
    · exact absurd h hspending
    · exact ⟨_, hmem, _, hmine, haddress, rfl⟩

theorem groupSpending_of_not_hasPrevious {wtx : AccountTx} (hspending : w.isSpending c wtx = true)
    (h : ¬w.HasPrevious wtx) (groupings : List (Finset TxDestination)) :
    ((groupSpending c v w wtx groupings).run w.mapWallet).1 = none := by
  obtain ⟨prevout, hmem, hnone⟩ : ∃ prevout ∈ wtx.tx.prevouts,
      previousOutput w.mapWallet prevout = none := by
    simpa [HasPrevious] using h
  rw [groupSpending_run, if_pos hspending]
  have hinputs := groupInputs_of_eq_none c v w hmem hnone ∅
  exact congrArg Prod.fst (Step.run_bind_of_none (Prod.ext hinputs rfl))

theorem groupTransactions_of_hasPrevious {l : List AccountTx}
    (h : ∀ wtx ∈ l, w.isSpending c wtx = true → w.HasPrevious wtx)
    (groupings : List (Finset TxDestination)) :
    ∃ groupings', (groupTransactions c v w l groupings).run w.mapWallet =
        (some groupings', w.mapWallet) ∧
      ∀ g, g ∈ groupings' ↔ g ∈ groupings ∨ ∃ wtx ∈ l, w.ShowsGroup c wtx g := by
  induction l generalizing groupings with
  | nil => exact ⟨groupings, rfl, by simp⟩
  | cons wtx l ih =>
    obtain ⟨hwtx, hrest⟩ := List.forall_mem_cons.mp h
    obtain ⟨groupings₁, hrun₁, hmem₁⟩ := groupSpending_of_hasPrevious c v w hwtx groupings
    obtain ⟨groupings', hrun, hmem⟩ := ih hrest (groupLone c w wtx.tx.vout groupings₁)
    refine ⟨groupings', ?_, fun g => ?_⟩
    · rw [groupTransactions, Step.run_bind_of_some hrun₁, hrun]
    · rw [hmem, hmem₁, List.exists_mem_cons_iff, or_assoc]

theorem groupTransactions_of_not_hasPrevious {l : List AccountTx}
    (h : ∃ wtx ∈ l, w.isSpending c wtx = true ∧ ¬w.HasPrevious wtx)
    (groupings : List (Finset TxDestination)) :
    ((groupTransactions c v w l groupings).run w.mapWallet).1 = none := by
  induction l generalizing groupings with
  | nil =>
    obtain ⟨wtx, hmem, -⟩ := h
    exact absurd hmem List.not_mem_nil
  | cons wtx l ih =>
    rw [groupTransactions]
    by_cases hwtx : w.isSpending c wtx = true → w.HasPrevious wtx
    · obtain ⟨groupings₁, hrun₁, -⟩ := groupSpending_of_hasPrevious c v w hwtx groupings
      rw [Step.run_bind_of_some hrun₁]
      refine ih ?_ _
      rcases (List.exists_mem_cons_iff _ _ _).mp h with ⟨hspending, hnot⟩ | hrest
      · exact absurd (hwtx hspending) hnot
      · exact hrest
    · obtain ⟨hspending, hnot⟩ := Classical.not_imp.mp hwtx
      have hfails := groupSpending_of_not_hasPrevious c v w hspending hnot groupings
      exact congrArg Prod.fst (Step.run_bind_of_none (Prod.ext hfails rfl))

theorem getAddressGroupings_of_hasPrevious (alloc : Allocator)
    (order : SetOrder (Finset TxDestination))
    (h : ∀ wtx ∈ w.transactions, w.isSpending c wtx = true → w.HasPrevious wtx) :
    ∃ groups, (getAddressGroupings c v alloc order w).run w.mapWallet =
        (some groups, w.mapWallet) ∧
      Components {g | w.IsInitialGroup c g} {t | t ∈ groups} := by
  obtain ⟨groupings, hrun, hmem⟩ := groupTransactions_of_hasPrevious c v w h []
  obtain ⟨groups, hgroups, hcomponents⟩ :=
    mergeGroupings_components alloc (order.toList groupings)
  refine ⟨groups, ?_, ?_⟩
  · unfold getAddressGroupings
    rw [Step.run_bind_of_some hrun, hgroups, Step.run_ofOption]
  · -- the order of the groups does not matter
    have hinitial : {g | g ∈ order.toList groupings} = {g | w.IsInitialGroup c g} := by
      ext g
      rw [Set.mem_ofPred_eq, Set.mem_ofPred_eq, (order.perm groupings).mem_iff, hmem]
      exact or_iff_right List.not_mem_nil
    rwa [hinitial] at hcomponents

theorem getAddressGroupings_of_not_hasPrevious (alloc : Allocator)
    (order : SetOrder (Finset TxDestination))
    (h : ¬∀ wtx ∈ w.transactions, w.isSpending c wtx = true → w.HasPrevious wtx) :
    ((getAddressGroupings c v alloc order w).run w.mapWallet).1 = none := by
  obtain ⟨wtx, hmem, hnot⟩ : ∃ wtx ∈ w.transactions,
      w.isSpending c wtx = true ∧ ¬w.HasPrevious wtx := by
    simpa using h
  have hfails := groupTransactions_of_not_hasPrevious c v w ⟨wtx, hmem, hnot⟩ []
  unfold getAddressGroupings
  rw [Step.run_bind_of_none (Prod.ext hfails rfl)]

/-- The call returns, and leaves the wallet as it was, if the wallet has every output that a
transaction spends of which it has the first. Only this one is looked for before all are read. -/
theorem getAddressGroupings_frame (alloc : Allocator) (order : SetOrder (Finset TxDestination)) :
    (∃ groups, (getAddressGroupings c v alloc order w).run w.mapWallet =
        (some groups, w.mapWallet)) ↔
      ∀ wtx ∈ w.transactions, w.isSpending c wtx = true → w.HasPrevious wtx := by
  constructor
  · rintro ⟨groups, hrun⟩
    by_contra h
    have hnone := getAddressGroupings_of_not_hasPrevious c v w alloc order h
    rw [hrun] at hnone
    cases hnone
  · intro h
    obtain ⟨groups, hrun, -⟩ := getAddressGroupings_of_hasPrevious c v w alloc order h
    exact ⟨groups, hrun⟩

/-- The groups are disjoint, are of the addresses of the initial groups, and have those together that
are connected through initial groups. There are groups if every output that is read is there. -/
theorem getAddressGroupings_components (alloc : Allocator)
    (order : SetOrder (Finset TxDestination)) :
    (((getAddressGroupings c v alloc order w).run w.mapWallet).1.isSome = true ↔
        ∀ wtx ∈ w.transactions, w.isSpending c wtx = true → w.HasPrevious wtx) ∧
      ∀ groups, ((getAddressGroupings c v alloc order w).run w.mapWallet).1 = some groups →
        (∀ s ∈ groups, ∀ t ∈ groups, s ≠ t → Disjoint s t) ∧
        (∀ a, (∃ t ∈ groups, a ∈ t) ↔ ∃ g, w.IsInitialGroup c g ∧ a ∈ g) ∧
        ∀ a b, (∃ t ∈ groups, a ∈ t ∧ b ∈ t) ↔ Connected {g | w.IsInitialGroup c g} a b := by
  by_cases h : ∀ wtx ∈ w.transactions, w.isSpending c wtx = true → w.HasPrevious wtx
  · obtain ⟨groups, hrun, hcomponents⟩ := getAddressGroupings_of_hasPrevious c v w alloc order h
    rw [hrun]
    refine ⟨iff_of_true rfl h, ?_⟩
    rintro _ ⟨⟩
    exact ⟨hcomponents.disjoint, fun a => hcomponents.exists_mem_iff, hcomponents.together_iff⟩
  · rw [getAddressGroupings_of_not_hasPrevious c v w alloc order h]
    exact ⟨iff_of_false (by simp) h, fun _ hgroups => by cases hgroups⟩

end AccountWallet

namespace Sample

def allocator : Allocator where
  new live := live.sup id + 1
  new_notMem _ hmem := Nat.not_succ_le_self _ (Finset.le_sup (f := id) hmem)

/-- It spends what has been paid to the key together with an output that the wallet has not. -/
def mixes : Transaction :=
  spend 23 [⟨params.txHash paysKey, 0⟩, ⟨9, 0⟩] [⟨4 * bean, Script.ofKeyID (.replicate 20 9)⟩]

def mixedWallet : AccountWallet :=
  { savingsWallet paysKey with
    mapWallet := (savingsWallet paysKey).mapWallet.insert (params.txHash mixes) (reported mixes) }

end Sample

open Sample AccountWallet in
/-- The second input is looked for with `mapWallet[...]`, which makes a transaction without outputs,
and the output of it is read. -/
theorem getAddressGroupings_mixes :
    let r := (getAddressGroupings anyCrypto (poolView []) allocator ⟨id, .refl⟩ mixedWallet).run
      mixedWallet.mapWallet
    r.1 = none ∧ mixedWallet.mapWallet.entries.length = 2 ∧ r.2.entries.length = 3 := by
  decide

open Sample AccountWallet in
example : ((getAddressGroupings anyCrypto (poolView []) allocator ⟨id, .refl⟩
    (savingsWallet paysKey)).run (savingsWallet paysKey).mapWallet).1 =
      some {{.keyID dumpedKeyID}} := by decide +kernel

end Beancash
