import Beancash.ConnectSpec
import Beancash.FailedSwitch
import Beancash.WalletNotices

namespace Beancash

open Fallible

/-- A block to be connected or disconnected, as far as it can be read. -/
structure Visit where
  pindex : BlockPtr
  b : Option Block
  io : BlockIo
  fConnect : Bool

/-- A block that `Reorganize` reads from disk. -/
def Io.visit (P : Params) (io : Io) (fConnect : Bool) (pindex : BlockPtr) : Visit where
  pindex := pindex
  b := (io.block (BlockPtr.hash pindex)).readFromDisk P pindex
  io := io.block (BlockPtr.hash pindex)
  fConnect := fConnect

/-- What has to be connected and disconnected for `SetBestChain` to return true, in order. -/
def visits (P : Params) (io : Io) (b : Block) (pindexNew : BlockPtr) (n : Node) : List Visit :=
  if n.pindexGenesisBlock.isEmpty ∧ b.hash P = P.hashGenesisBlock then []
  else if b.header.hashPrevBlock = n.hashBestChain then
    [⟨pindexNew, some b, io.block (b.hash P), true⟩]
  else
    let pindexIntermediate :=
      (BlockPtr.postpone (BlockPtr.nChainTrust n.pindexBest) pindexNew).1
    match BlockPtr.findFork pindexIntermediate n.pindexBest with
    | none => []
    | some pfork =>
      (BlockPtr.downTo pfork n.pindexBest).map (io.visit P false) ++
        (BlockPtr.downTo pfork pindexIntermediate).reverse.map (io.visit P true)

def Visit.attempt (P : Params) (v : Visit) (b : Block) : Step Node Unit :=
  if v.fConnect then connectBlock P v.io b false v.pindex
  else disconnectBlock P v.io b v.pindex

def visit (P : Params) (v : Visit) : Step Node Block := do
  let b ← Step.ofOption v.b
  v.attempt P b
  return b

/-- What the wallets are told of a block. -/
def Visit.notices (v : Visit) : List Notice :=
  v.b.toList.flatMap fun b => b.vtx.map fun tx => ⟨b, tx, v.fConnect, v.io.writeToDisk⟩

/-- All that the wallets are told, the last first. -/
def log (done : List Visit) : List Notice := (done.flatMap Visit.notices).reverse

/-- `SetBestChain` goes through `k` blocks and fails to connect or to disconnect the next. -/
structure FailsAt (P : Params) (io : Io) (b : Block) (pindexNew : BlockPtr) (n : Node) (k : ℕ) :
    Prop where
  begun : io.txnBegin = true
  done : ((Step.collect (visit P) ((visits P io b pindexNew n).take k)).run n.txnBegin).1.isSome
  fails : ∃ v, (visits P io b pindexNew n)[k]? = some v ∧
    ((visit P v).run ((Step.collect (visit P) ((visits P io b pindexNew n).take k)).run
      n.txnBegin).2).1 = none

theorem setpwalletRegistered_writeBlockIndex (n : Node) (pindex : BlockPtr) (hashNext : Uint256) :
    (n.writeBlockIndex pindex hashNext).setpwalletRegistered = n.setpwalletRegistered := by
  cases pindex <;> rfl

theorem setpwalletRegistered_writeQueuedChanges (n : Node) (queue : QueuedChanges) :
    (n.writeQueuedChanges queue).setpwalletRegistered = n.setpwalletRegistered := by
  unfold Node.writeQueuedChanges
  generalize queue.entries = changes
  induction changes generalizing n with
  | nil => rfl
  | cons change changes ih =>
    rw [List.foldl_cons, ih]
    rfl

theorem keeps_disconnectInputs_wallets (P : Params) (tx : Transaction) :
    Step.Keeps (Step.Same Node.setpwalletRegistered) (disconnectInputs P tx) := by
  unfold disconnectInputs
  refine (Step.Keeps.forEach fun prevout _ => ?_).bind fun _ => Step.keeps_modify fun n => rfl
  unfold disconnectInput
  refine (Step.keeps_read _).bind fun _ => (Step.keeps_ofOption _).bind fun _ => ?_
  exact (Step.keeps_guard _).bind fun _ => Step.keeps_modify fun n => rfl

theorem visit_eq_some {P : Params} {v : Visit} {n n' : Node} {b : Block}
    (h : (visit P v).run n = (some b, n')) :
    v.b = some b ∧ n'.setpwalletRegistered = n.setpwalletRegistered.map
      (Wallet.syncBlock P b v.fConnect v.fConnect v.io.writeToDisk) := by
  unfold visit at h
  obtain ⟨b, n₁, hread, h₁⟩ := Step.run_bind_eq_some.mp h
  obtain ⟨hb, rfl⟩ := Step.run_ofOption_eq_some.mp hread
  obtain ⟨u, n₂, h₂, h₃⟩ := Step.run_bind_eq_some.mp h₁
  cases h₃
  refine ⟨hb, ?_⟩
  unfold Visit.attempt at h₂
  cases hc : v.fConnect with
  | true =>
    rw [hc, if_pos rfl] at h₂
    cases hp : v.pindex with
    | nil =>
      rw [hp] at h₂
      cases h₂
    | cons pindex pprev =>
      rw [hp] at h₂
      obtain ⟨s, -, rfl, -⟩ := connectBlock_eq_some h₂
      simp only [Node.connected, Node.syncWithWallets, setpwalletRegistered_writeBlockIndex,
        setpwalletRegistered_writeQueuedChanges]
      rfl
  | false =>
    rw [hc, if_neg Bool.false_ne_true] at h₂
    obtain ⟨n₃, h₃, rfl⟩ := run_disconnectBlock.mp h₂
    have hsame : n₃.setpwalletRegistered = n₁.setpwalletRegistered :=
      (Step.Keeps.forEach fun tx _ => keeps_disconnectInputs_wallets P tx).returnKeeps _ _ _ h₃
    simp only [Node.disconnected, Node.syncWithWallets, setpwalletRegistered_writeBlockIndex,
      hsame]

theorem visit_eq_none {P : Params} {v : Visit} {n n' : Node}
    (h : (visit P v).run n = (none, n')) :
    n'.setpwalletRegistered = n.setpwalletRegistered := by
  unfold visit at h
  rcases Step.run_bind_eq_none.mp h with hread | ⟨b, n₁, hread, h₁⟩
  · exact congrArg Node.setpwalletRegistered (congrArg Prod.snd hread).symm
  obtain ⟨-, rfl⟩ := Step.run_ofOption_eq_some.mp hread
  rcases Step.run_bind_eq_none.mp h₁ with h₂ | ⟨u, n₂, -, h₂⟩
  · unfold Visit.attempt at h₂
    split at h₂
    · cases hp : v.pindex with
      | nil =>
        rw [hp] at h₂
        exact congrArg Node.setpwalletRegistered (congrArg Prod.snd h₂).symm
      | cons pindex pprev =>
        rw [hp, run_connectBlock] at h₂
        split at h₂ <;> cases h₂
        rfl
    · unfold disconnectBlock at h₂
      rcases Step.run_bind_eq_none.mp h₂ with h₃ | ⟨u, n₂, -, h₃⟩
      · exact (Step.Keeps.forEach fun tx _ => keeps_disconnectInputs_wallets P tx).failKeeps _ _ h₃
      · cases h₃
  · cases h₂

theorem syncBlock_eq_after (P : Params) (b : Block) (fConnect fWritten : Bool) (w : Wallet) :
    w.syncBlock P b fConnect fConnect fWritten =
      w.after P (b.vtx.map fun tx => ⟨b, tx, fConnect, fWritten⟩).reverse := by
  unfold Wallet.syncBlock Wallet.after
  rw [List.foldr_reverse, List.foldl_map]
  rfl

theorem collect_visit_eq_some {P : Params} {done : List Visit} {bs : List Block} {n n' : Node}
    (h : (Step.collect (visit P) done).run n = (some bs, n')) :
    n'.setpwalletRegistered = n.setpwalletRegistered.map fun w => w.after P (log done) := by
  induction done generalizing n bs with
  | nil =>
    cases h
    exact (List.map_id _).symm
  | cons v done ih =>
    obtain ⟨b, n₁, hb, h₁⟩ := Step.run_bind_eq_some.mp h
    obtain ⟨bs', n₂, hbs, h₂⟩ := Step.run_bind_eq_some.mp h₁
    cases h₂
    obtain ⟨hv, hn₁⟩ := visit_eq_some hb
    rw [ih hbs, hn₁, List.map_map]
    refine congrArg (List.map · _) (funext fun w => ?_)
    simp only [Function.comp_apply, syncBlock_eq_after, log, List.flatMap_cons, Visit.notices, hv,
      Option.toList_some, List.flatMap_nil, List.append_nil, List.reverse_append,
      Wallet.after, List.foldr_append]

theorem disconnectOld_eq (P : Params) (io : Io) (pindex : BlockPtr) :
    disconnectOld P io pindex = (fun b : Block => b.vtx.filter fun tx =>
      !(tx.isBeanBase || tx.isBeanStake)) <$> visit P (io.visit P false pindex) := by
  simp only [disconnectOld, visit, Visit.attempt, Io.visit, Bool.false_eq_true, if_false,
    map_eq_pure_bind,
    Step.bind_assoc, pure_bind]

theorem connectNew_eq (P : Params) (io : Io) (pindex : BlockPtr) :
    connectNew P io pindex = Block.vtx <$> visit P (io.visit P true pindex) := by
  simp only [connectNew, visit, Visit.attempt, Io.visit, if_true, map_eq_pure_bind,
    Step.bind_assoc, pure_bind]

theorem reorganizeDb_eq_none_of_visits {P : Params} {io : Io} (pindexNew : BlockPtr)
    {vDisconnect vConnect : List BlockPtr} {n n' : Node}
    (h : (Step.collect (visit P) (vDisconnect.map (io.visit P false) ++
      vConnect.map (io.visit P true))).run n = (none, n')) :
    (reorganizeDb P io pindexNew vDisconnect vConnect).run n = (none, n') := by
  unfold reorganizeDb
  rw [funext (disconnectOld_eq P io), funext (connectNew_eq P io), Step.collect_map,
    Step.collect_map]
  rcases Step.run_collect_append_eq_none.mp h with h | ⟨bs, n₁, h₁, h₂⟩
  · exact Step.run_bind_eq_none.mpr (Or.inl (Step.run_map_eq_none.mpr h))
  · refine Step.run_bind_eq_none.mpr (Or.inr ⟨_, n₁, Step.run_map_eq_some.mpr ⟨bs, h₁, rfl⟩, ?_⟩)
    exact Step.run_bind_eq_none.mpr (Or.inl (Step.run_map_eq_none.mpr h₂))

theorem setpwalletRegistered_invalidChainFound (n : Node) (pindexNew : BlockPtr) :
    (n.txnAbort.invalidChainFound pindexNew).setpwalletRegistered = n.setpwalletRegistered := by
  unfold Node.invalidChainFound
  dsimp only
  split <;> rfl

theorem attach_eq_none_of_visits {P : Params} {io : Io} {b : Block} {pindexNew : BlockPtr}
    {n m n₁ : Node} (h : (Step.collect (visit P) (visits P io b pindexNew n)).run m = (none, n₁))
    (hm : m.pindexBest = n.pindexBest) :
    ∃ n', (attach P io b pindexNew n).run m = (none, n') ∧
      n'.setpwalletRegistered = n₁.setpwalletRegistered := by
  refine ⟨_, ?_, setpwalletRegistered_invalidChainFound n₁ pindexNew⟩
  unfold visits at h
  unfold attach
  by_cases hgenesis : n.pindexGenesisBlock.isEmpty ∧ b.hash P = P.hashGenesisBlock
  · rw [if_pos hgenesis] at h
    cases h
  rw [if_neg hgenesis] at h ⊢
  by_cases hprev : b.header.hashPrevBlock = n.hashBestChain
  · -- the block is not read again
    rw [if_pos hprev] at h ⊢
    have hconnect : (connectBlock P (io.block (b.hash P)) b false pindexNew).run m = (none, n₁) := by
      rcases Step.run_bind_eq_none.mp h with h₁ | ⟨_, _, -, h₁⟩
      · rcases Step.run_bind_eq_none.mp h₁ with h₂ | ⟨b', m', hread, h₂⟩
        · cases h₂
        · obtain ⟨hb, rfl⟩ := Step.run_ofOption_eq_some.mp hread
          cases hb
          rcases Step.run_bind_eq_none.mp h₂ with h₃ | ⟨_, _, -, h₃⟩
          · exact h₃
          · cases h₃
      · cases h₁
    unfold setBestChainInner
    refine Step.run_bind_eq_none.mpr (Or.inl (Step.run_onFail_eq_none.mpr ⟨n₁, ?_, rfl⟩))
    exact Step.run_bind_eq_none.mpr (Or.inl hconnect)
  · rw [if_neg hprev] at h ⊢
    unfold switchBranch
    simp only at h
    split at h
    · cases h
    · rename_i pfork hfork
      refine Step.run_bind_eq_none.mpr (Or.inl (Step.run_onFail_eq_none.mpr ⟨n₁, ?_, rfl⟩))
      unfold reorganize
      rw [Step.run_bind_of_some (Step.run_read _ _), hm, hfork,
        Step.run_bind_of_some (Step.run_ofOption _ _)]
      exact Step.run_bind_eq_none.mpr (Or.inl (reorganizeDb_eq_none_of_visits _ h))

theorem FailsAt.collect_visits {P : Params} {io : Io} {b : Block} {pindexNew : BlockPtr} {n : Node}
    {k : ℕ} (h : FailsAt P io b pindexNew n k) :
    ∃ n₁, (Step.collect (visit P) (visits P io b pindexNew n)).run n.txnBegin = (none, n₁) ∧
      n₁.setpwalletRegistered = n.setpwalletRegistered.map fun w =>
        w.after P (log ((visits P io b pindexNew n).take k)) := by
  obtain ⟨v, hv, hfails⟩ := h.fails
  have hdone := h.done
  generalize visits P io b pindexNew n = vs at hv hfails hdone ⊢
  rcases hrun : (Step.collect (visit P) (vs.take k)).run n.txnBegin with ⟨_ | bs, n₁⟩
  · rw [hrun] at hdone
    cases hdone
  · rw [hrun] at hfails
    obtain ⟨n₂, hn₂⟩ : ∃ n₂, (visit P v).run n₁ = (none, n₂) := ⟨_, Prod.ext hfails rfl⟩
    obtain ⟨hk, rfl⟩ := List.getElem?_eq_some_iff.mp hv
    have htold := collect_visit_eq_some hrun
    refine ⟨n₂, ?_, (visit_eq_none hn₂).trans htold⟩
    rw [← List.take_append_drop k vs, List.drop_eq_getElem_cons hk]
    refine Step.run_collect_append_eq_none.mpr (Or.inr ⟨bs, n₁, hrun, ?_⟩)
    exact Step.run_bind_eq_none.mpr (Or.inl hn₂)

theorem FailsAt.of_collect_visits {P : Params} {io : Io} {b : Block} {pindexNew : BlockPtr}
    {n n₁ : Node} (hbegin : io.txnBegin = true)
    (h : (Step.collect (visit P) (visits P io b pindexNew n)).run n.txnBegin = (none, n₁)) :
    ∃ k, FailsAt P io b pindexNew n k := by
  obtain ⟨done, v, rest, bs, n₂, hvs, hdone, hv⟩ := Step.run_collect_eq_none h
  have htake : (visits P io b pindexNew n).take done.length = done := by
    rw [hvs, List.take_left]
  refine ⟨done.length, hbegin, ?_, v, ?_, ?_⟩
  · rw [htake, hdone]
    rfl
  · rw [hvs, List.getElem?_append_right (Nat.le_refl _), Nat.sub_self]
    rfl
  · rw [htake, hdone, hv]

theorem visits_of_reorganizeDb_eq_none {P : Params} {io : Io} {pindexNew : BlockPtr}
    {vDisconnect vConnect : List BlockPtr} {n n' : Node} (hcommit : io.txnCommit = true)
    (h : (reorganizeDb P io pindexNew vDisconnect vConnect).run n = (none, n')) :
    (Step.collect (visit P) (vDisconnect.map (io.visit P false) ++
      vConnect.map (io.visit P true))).run n = (none, n') := by
  unfold reorganizeDb at h
  rw [funext (disconnectOld_eq P io), funext (connectNew_eq P io), Step.collect_map,
    Step.collect_map, hcommit] at h
  rw [Step.run_collect_append_eq_none]
  rcases Step.run_bind_eq_none.mp h with h₁ | ⟨_, n₁, hold, h₁⟩
  · exact Or.inl (Step.run_map_eq_none.mp h₁)
  · obtain ⟨bs, hold, -⟩ := Step.run_map_eq_some.mp hold
    rcases Step.run_bind_eq_none.mp h₁ with h₂ | ⟨_, n₂, -, h₂⟩
    · exact Or.inr ⟨bs, n₁, hold, Step.run_map_eq_none.mp h₂⟩
    · cases h₂

/-- With a database that begins and commits, and a fork to go down to, there is no other way
for `SetBestChain` to fail. -/
theorem FailsAt.of_eq_none {P : Params} {io : Io} {b : Block} {pindexNew : BlockPtr} {n n' : Node}
    (hbegin : io.txnBegin = true) (hcommit : io.txnCommit = true)
    (hcommit' : (io.block (b.hash P)).txnCommit = true)
    (hfork : BlockPtr.findFork
      (BlockPtr.postpone (BlockPtr.nChainTrust n.pindexBest) pindexNew).1 n.pindexBest ≠ none)
    (h : (setBestChain P io b pindexNew).run n = (none, n')) :
    ∃ k, FailsAt P io b pindexNew n k := by
  have hattach : (attach P io b pindexNew n).run n.txnBegin = (none, n') := by
    unfold setBestChain at h
    rw [hbegin] at h
    rcases Step.run_bind_eq_none.mp h with h₁ | ⟨_, n₁, h₁, h₂⟩
    · cases h₁
    · cases h₁
      rw [Step.run_bind_of_some (Step.run_modify _ _), Step.run_bind_of_some (Step.run_read _ _)]
        at h₂
      rcases Step.run_bind_eq_none.mp h₂ with h₃ | ⟨_, _, -, h₃⟩
      · exact h₃
      · cases h₃
  obtain ⟨n₁, hn₁⟩ : ∃ n₁, (Step.collect (visit P) (visits P io b pindexNew n)).run n.txnBegin =
      (none, n₁) := by
    unfold attach at hattach
    unfold visits
    by_cases hgenesis : n.pindexGenesisBlock.isEmpty ∧ b.hash P = P.hashGenesisBlock
    · rw [if_pos hgenesis] at hattach
      unfold setGenesis at hattach
      rw [hcommit] at hattach
      cases hattach
    rw [if_neg hgenesis] at hattach ⊢
    by_cases hprev : b.header.hashPrevBlock = n.hashBestChain
    · rw [if_pos hprev] at hattach ⊢
      unfold setBestChainInner at hattach
      rw [hcommit'] at hattach
      rcases Step.run_bind_eq_none.mp hattach with h₁ | ⟨_, _, -, h₁⟩
      · obtain ⟨n₁, h₁, -⟩ := Step.run_onFail_eq_none.mp h₁
        rcases Step.run_bind_eq_none.mp h₁ with h₂ | ⟨_, _, -, h₂⟩
        · refine ⟨n₁, Step.run_bind_eq_none.mpr (Or.inl ?_)⟩
          exact Step.run_bind_eq_none.mpr (Or.inr
            ⟨b, _, rfl, Step.run_bind_eq_none.mpr (Or.inl h₂)⟩)
        · cases h₂
      · cases h₁
    · rw [if_neg hprev] at hattach ⊢
      unfold switchBranch at hattach
      rcases Step.run_bind_eq_none.mp hattach with h₁ | ⟨_, _, -, h₁⟩
      · obtain ⟨n₁, h₁, -⟩ := Step.run_onFail_eq_none.mp h₁
        unfold reorganize at h₁
        rw [Step.run_bind_of_some (Step.run_read _ _)] at h₁
        change (Step.ofOption (BlockPtr.findFork _ n.pindexBest) >>= _).run _ = _ at h₁
        cases hfork' : BlockPtr.findFork
            (BlockPtr.postpone (BlockPtr.nChainTrust n.pindexBest) pindexNew).1 n.pindexBest with
        | none => exact absurd hfork' hfork
        | some pfork =>
          rw [hfork', Step.run_bind_of_some (Step.run_ofOption _ _)] at h₁
          rcases Step.run_bind_eq_none.mp h₁ with h₂ | ⟨_, _, -, h₂⟩
          · refine ⟨n₁, ?_⟩
            simp only [hfork']
            exact visits_of_reorganizeDb_eq_none hcommit h₂
          · cases h₂
      · exact absurd h₁ ((Step.total_forEachWhile _ _).not_fails _ _)
  exact FailsAt.of_collect_visits hbegin hn₁

/-- When a block cannot be connected or disconnected, the call returns false, and what the
wallets hold is as before exactly if the notices of the blocks that were connected and
disconnected before it do not disturb them. -/
theorem setBestChain_wallets_iff {P : Params} {io : Io} {b : Block} {pindexNew : BlockPtr}
    {n : Node} {k : ℕ} (h : FailsAt P io b pindexNew n k) :
    let x := (setBestChain P io b pindexNew).run n
    x.1 = none ∧ (List.Forall₂ Wallet.Same n.setpwalletRegistered x.2.setpwalletRegistered ↔
      ∀ w ∈ n.setpwalletRegistered,
        w.Undisturbed P (log ((visits P io b pindexNew n).take k))) := by
  intro x
  obtain ⟨n₁, hvisits, hwallets⟩ := h.collect_visits
  obtain ⟨n', hn', hsame⟩ := attach_eq_none_of_visits hvisits (m := n.txnBegin) rfl
  have hx : x = (none, n') := by
    have hbegin : (Step.guard io.txnBegin).run n = (some (), n) :=
      Step.run_guard_eq_some.mpr ⟨h.begun, rfl⟩
    change (setBestChain P io b pindexNew).run n = _
    unfold setBestChain
    rw [Step.run_bind_of_some hbegin, Step.run_bind_of_some (Step.run_modify _ _),
      Step.run_bind_of_some (Step.run_read _ _)]
    exact Step.run_bind_eq_none.mpr (Or.inl hn')
  rw [hx]
  refine ⟨rfl, ?_⟩
  rw [hsame, hwallets, List.forall₂_map_right_iff, List.forall₂_same]
  exact forall₂_congr fun w _ => Wallet.same_after_iff P w _

theorem undisturbed_of_mapWallet_eq_empty {P : Params} {w : Wallet} {log : List Notice}
    (hempty : w.mapWallet = ∅)
    (hnews : ∀ ν ∈ log, (w.isMineTx ν.tx || w.isFromMe ν.tx) = false) : w.Undisturbed P log where
  noNews ν hν _ := .inr (hnews ν hν)
  place hash := by
    have hnone : w.placeOf hash = none := by
      rw [Wallet.placeOf, hempty]
      rfl
    clear hnews
    induction log with
    | nil => rfl
    | cons ν log ih =>
      rw [Wallet.placeAfter, ih, hnone]
      exact ite_self none
  spent hash i f ho := by
    obtain ⟨tx, htx, -⟩ := ho
    rw [Wallet.txOf, hempty] at htx
    cases htx

namespace Sample

def wallet : Wallet := ⟨∅, fun script => script = [0x52], 0⟩

/-- A node on the branch of `first`; the branch beside it pays the wallet. -/
def rivalNode : Node :=
  ((setBestChain params rivalIo first [entry first, entry genesis]).run
    { node with setpwalletRegistered := [wallet] }).2

/-- The same node with a wallet that no block pays. -/
def strangerNode : Node :=
  { rivalNode with setpwalletRegistered := [⟨∅, fun script => script = [0x53], 0⟩] }

end Sample

open Sample in
/-- `first` is disconnected and `rival` connected before `greedy` fails, and the wallet is as before. -/
theorem setBestChain_wallets_iff_overpaid :
    let pindexNew := [entry greedy, entry rival, entry genesis]
    let x := setBestChain params rivalIo greedy pindexNew
    (x.run strangerNode).1 = none ∧ List.Forall₂ Wallet.Same strangerNode.setpwalletRegistered
      (x.run strangerNode).2.setpwalletRegistered := by
  intro pindexNew x
  let vs := visits params rivalIo greedy pindexNew strangerNode
  have hvisits : ((Step.collect (visit params) (vs.take 2)).run strangerNode.txnBegin).1.isSome ∧
      ((visit params (rivalIo.visit params true pindexNew)).run
        ((Step.collect (visit params) (vs.take 2)).run strangerNode.txnBegin).2).1 = none ∧
      (strangerNode.setpwalletRegistered.all fun w => (log (vs.take 2)).all fun ν =>
        !(w.isMineTx ν.tx || w.isFromMe ν.tx)) = true := by
    decide +kernel
  obtain ⟨hdone, hfails, hnews⟩ := hvisits
  obtain ⟨hx, hiff⟩ := setBestChain_wallets_iff ⟨rfl, hdone, _, rfl, hfails⟩
  refine ⟨hx, hiff.mpr fun w hw => undisturbed_of_mapWallet_eq_empty ?_ fun ν hν => ?_⟩
  · rw [List.mem_singleton.mp hw]
  · have hinvolved := List.all_eq_true.mp (List.all_eq_true.mp hnews w hw) ν hν
    rwa [Bool.not_eq_true'] at hinvolved

open Sample in
/-- The call goes on to `greedy` when `first` is disconnected and `rival` connected, and the wallet
keeps the transaction of `rival`, as confirmed. -/
theorem setBestChain_wallets_rival :
    let pindexNew := [entry greedy, entry rival, entry genesis]
    let x := setBestChain params rivalIo greedy pindexNew
    FailsAt params rivalIo greedy pindexNew rivalNode 2 ∧ (x.run rivalNode).1 = none ∧
      (x.run rivalNode).2.pindexBest = [entry first, entry genesis] ∧
      ((x.run rivalNode).2.setpwalletRegistered.map fun w =>
        (w.placeOf 5).map Prod.fst) = [some (rival.hash params)] ∧
      ¬List.Forall₂ Wallet.Same rivalNode.setpwalletRegistered
        (x.run rivalNode).2.setpwalletRegistered := by
  intro pindexNew x
  let vs := visits params rivalIo greedy pindexNew rivalNode
  have hrun : (((Step.collect (visit params) (vs.take 2)).run rivalNode.txnBegin).1.isSome ∧
      ((visit params (rivalIo.visit params true pindexNew)).run
        ((Step.collect (visit params) (vs.take 2)).run rivalNode.txnBegin).2).1 = none) ∧
      (x.run rivalNode).1 = none ∧ (x.run rivalNode).2.pindexBest = [entry first, entry genesis] ∧
      ((x.run rivalNode).2.setpwalletRegistered.map fun w => (w.placeOf 5).map Prod.fst) =
        [some (rival.hash params)] := by
    decide +kernel
  obtain ⟨⟨hdone, hfails⟩, hnone, hbest, hplace⟩ := hrun
  refine ⟨⟨rfl, hdone, _, rfl, hfails⟩, hnone, hbest, hplace, fun h => ?_⟩
  have hsame : ((x.run rivalNode).2.setpwalletRegistered.map fun w => w.placeOf 5) =
      rivalNode.setpwalletRegistered.map fun w => w.placeOf 5 := by
    generalize rivalNode.setpwalletRegistered = ws at h
    generalize (x.run rivalNode).2.setpwalletRegistered = ws' at h
    induction h with
    | nil => rfl
    | cons hw _ ih => rw [List.map_cons, List.map_cons, ih, hw.placeOf]
  have hmap := congrArg (List.map (Option.map Prod.fst)) hsame
  rw [List.map_map, List.map_map] at hmap
  rw [show ((x.run rivalNode).2.setpwalletRegistered.map
    (Option.map Prod.fst ∘ fun w => w.placeOf 5)) = _ from hplace] at hmap
  revert hmap
  decide +kernel

end Beancash
