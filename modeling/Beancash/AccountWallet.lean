import Beancash.AccountingRecord
import Beancash.BeanStake
import Beancash.ReportedAmounts

namespace Beancash

open ByteStream

instance instAddCommGroupInt64 : AddCommGroup Int64 where
  add_assoc := Int64.add_assoc
  zero_add := Int64.zero_add
  add_zero := Int64.add_zero
  add_comm := Int64.add_comm
  neg_add_cancel := Int64.add_left_neg
  sub_eq_add_neg := Int64.sub_eq_add_neg
  nsmul := nsmulRec
  zsmul := zsmulRec

/-- A `CAccountingEntry` of the database with its account and its number. -/
structure AccountingEntry extends AccountingRecord where
  strAccount : List UInt8
  nEntryNo : UInt64

/-- What is after `"acentry"` in the key of an entry. -/
def acentryKey (strAccount : List UInt8) (nEntryNo : UInt64) : List UInt8 :=
  serializeBytes strAccount ++ littleEndian 8 nEntryNo.toNat

namespace AccountingEntry

def key (e : AccountingEntry) : List UInt8 := acentryKey e.strAccount e.nEntryNo

end AccountingEntry

/-- The accounting entries that can be read, in the order of the database. -/
structure AccountingEntries where
  entries : List AccountingEntry
  sorted : entries.Pairwise fun e e' => strLess e.key e'.key
  readable : ∀ e ∈ entries, e.strAccount.length ≤ maxSize

namespace AccountingEntries

def empty : AccountingEntries := ⟨[], .nil, fun _ he => absurd he List.not_mem_nil⟩

/-- `ListAccountCreditDebit`: the cursor goes on from the first key of the account, or of all. -/
def listAccountCreditDebit (acentries : AccountingEntries) (strAccount : List UInt8) :
    List AccountingEntry :=
  let fAllAccounts := decide (strAccount = bytesOf "*")
  let ssKey := acentryKey (if fAllAccounts then [] else strAccount) 0
  (acentries.entries.dropWhile fun e => decide (strLess e.key ssKey)).takeWhile fun e =>
    fAllAccounts || decide (e.strAccount = strAccount)

def getAccountCreditDebit (acentries : AccountingEntries) (strAccount : List UInt8) : Int64 :=
  (acentries.listAccountCreditDebit strAccount).foldl (fun nCreditDebit e =>
    nCreditDebit + e.nCreditDebit) 0

end AccountingEntries

/-- A `CWallet` with what is kept for reports. The address book may have `CNoDestination` in it. -/
structure AccountWallet where
  mapWallet : SortedMap (fun a b : Uint256 => a.toNat < b.toNat) AccountTx
  keystore : KeyStore
  mapAddressBook : AList fun _ : Option TxDestination => List UInt8
  acentries : AccountingEntries

def getBlocksToMaturity (P : Params) (v : ChainView) (wtx : WalletTx) : ℤ :=
  if !(wtx.tx.isBeanBase || wtx.tx.isBeanStake) then 0
  else max 0 (P.nBeanbaseMaturity + 10 - getDepthInMainChain P v wtx)

/-- The balances of `listaccounts`. -/
abbrev AccountBalances := SortedMap strLess Int64

/-- `mapAccountBalances[strAccount] += nAmount` -/
def AccountBalances.add (mapAccountBalances : AccountBalances) (strAccount : List UInt8)
    (nAmount : Int64) : AccountBalances :=
  mapAccountBalances.insert strAccount ((mapAccountBalances.find strAccount).getD 0 + nAmount)

namespace AccountWallet

/-- The wallet transactions in the order of their hashes. -/
def transactions (w : AccountWallet) : List AccountTx := w.mapWallet.entries.map Prod.snd

/-- What the amounts depend on. -/
def amounts (w : AccountWallet) : AmountWallet where
  mapWallet := ⟨w.mapWallet.entries.map fun e => ⟨e.1, e.2.toCachedTx⟩, by
    rw [List.NodupKeys, List.keys, List.map_map]
    refine List.pairwise_map.mpr (w.mapWallet.sorted.imp fun hlt heq => ?_)
    exact absurd (congrArg BitVec.toNat heq) (Nat.ne_of_lt hlt)⟩
  keystore := w.keystore
  mapAddressBook := (w.mapAddressBook.keys.filterMap id).toFinset
  vchDefaultKey := none
  fFileBacked := true

/-- The account of an address, which is `""` if the address book does not have it. -/
def accountOf (w : AccountWallet) (address : Option TxDestination) : List UInt8 :=
  (w.mapAddressBook.lookup address).getD []

def isMineAddress (w : AccountWallet) (address : Option TxDestination) : Bool :=
  address.any w.keystore.isMineDestination

variable (P : Params) (c : Crypto) (v : ChainView) (w : AccountWallet)

/-- The loop over what has been received. -/
def accountReceived (strAccount : List UInt8) (listReceived : List (Option TxDestination × Int64)) :
    Int64 :=
  listReceived.foldl (fun nReceived r =>
    match w.mapAddressBook.lookup r.1 with
    | some strName => if strName = strAccount then nReceived + r.2 else nReceived
    | none => if strAccount.isEmpty then nReceived + r.2 else nReceived) 0

/-- `GetAccountAmounts`: what has been received and sent, and the fee. -/
def getAccountAmounts (wtx : AccountTx) (strAccount : List UInt8) : Option (Int64 × Int64 × Int64) :=
  (wtx.getAmounts c w.amounts).map fun r =>
    let nReceived := w.accountReceived strAccount r.listReceived
    if strAccount = r.strSentAccount then
      (nReceived, r.listSent.foldl (fun nSent s => nSent + s.2) 0, r.nFee)
    else (nReceived, 0, 0)

/-- A round of the loop over the transactions. -/
def tallyTransaction (strAccount : List UInt8) (nMinDepth : ℤ) (nBalance : Int64) (wtx : AccountTx) :
    Option Int64 :=
  let nDepth := getDepthInMainChain P v wtx.toWalletTx
  if !wtx.tx.isFinal v.nBestHeight v.nAdjustedTime 0 0 ∨ nDepth < 0 then some nBalance
  else (w.getAccountAmounts c wtx strAccount).map fun (nReceived, nSent, nFee) =>
    let nBalance := if nReceived ≠ 0 ∧ nMinDepth ≤ nDepth ∧
      getBlocksToMaturity P v wtx.toWalletTx = 0 then nBalance + nReceived else nBalance
    nBalance - (nSent + nFee)

def getAccountBalance (strAccount : List UInt8) (nMinDepth : ℤ) : Option Int64 :=
  (w.transactions.foldlM (tallyTransaction P c v w strAccount nMinDepth) 0).map fun nBalance =>
    nBalance + w.acentries.getAccountCreditDebit strAccount

/-- The accounts of the own addresses. -/
def ownAccounts : AccountBalances :=
  w.mapAddressBook.entries.foldl (fun mapAccountBalances e =>
    if w.isMineAddress e.1 then mapAccountBalances.insert e.2 0 else mapAccountBalances) .empty

/-- A round of the loop over the transactions. -/
def listTransaction (nMinDepth : ℤ) (mapAccountBalances : AccountBalances) (wtx : AccountTx) :
    Option AccountBalances :=
  let nDepth := getDepthInMainChain P v wtx.toWalletTx
  if nDepth < 0 then some mapAccountBalances
  else (wtx.getAmounts c w.amounts).map fun r =>
    let mapAccountBalances := mapAccountBalances.add r.strSentAccount (-r.nFee)
    let mapAccountBalances := r.listSent.foldl (fun mapAccountBalances s =>
      mapAccountBalances.add r.strSentAccount (-s.2)) mapAccountBalances
    if nMinDepth ≤ nDepth ∧ getBlocksToMaturity P v wtx.toWalletTx = 0 then
      r.listReceived.foldl (fun mapAccountBalances r =>
        mapAccountBalances.add (w.accountOf r.1) r.2) mapAccountBalances
    else mapAccountBalances

def listAccounts (nMinDepth : ℤ) : Option AccountBalances :=
  (w.transactions.foldlM (listTransaction P c v w nMinDepth) w.ownAccounts).map
    fun mapAccountBalances =>
      (w.acentries.listAccountCreditDebit (bytesOf "*")).foldl (fun mapAccountBalances e =>
        mapAccountBalances.add e.strAccount e.nCreditDebit) mapAccountBalances

end AccountWallet

/-- In a list that is sorted, the elements that come from the first one on and have a property are
all that have it, if the property does not begin a second time. -/
theorem takeWhile_dropWhile_eq_filter {α : Type} {before has : α → Bool} {l : List α}
    (hhas : ∀ a ∈ l, has a = true → before a = false)
    (hsorted : l.Pairwise fun a b => before a = false →
      before b = false ∧ (has b = true → has a = true)) :
    (l.dropWhile before).takeWhile has = l.filter has := by
  induction l with
  | nil => rfl
  | cons a l ih =>
    obtain ⟨hfirst, hrest⟩ := List.pairwise_cons.mp hsorted
    have ih := ih (fun b hb => hhas b (List.mem_cons_of_mem a hb)) hrest
    cases hbefore : before a with
    | true =>
      have hnot : has a = false := by
        cases hhas' : has a with
        | false => rfl
        | true => exact absurd hbefore (by simp [hhas a List.mem_cons_self hhas'])
      rw [List.dropWhile_cons_of_pos hbefore, ih, List.filter_cons_of_neg (by simp [hnot])]
    | false =>
      -- nothing is skipped any more
      have hdrop : l.dropWhile before = l := by
        cases l with
        | nil => rfl
        | cons b l =>
          have hb := (hfirst b List.mem_cons_self hbefore).1
          rw [List.dropWhile_cons_of_neg (by simp [hb])]
      rw [List.dropWhile_cons_of_neg (by simp [hbefore])]
      rw [hdrop] at ih
      cases hhas' : has a with
      | true => rw [List.takeWhile_cons_of_pos hhas', List.filter_cons_of_pos hhas', ih]
      | false =>
        rw [List.takeWhile_cons_of_neg (by simp [hhas']), List.filter_cons_of_neg (by simp [hhas'])]
        refine (List.filter_eq_nil_iff.mpr fun b hb hb' => ?_).symm
        exact absurd ((hfirst b hb hbefore).2 hb') (by simp [hhas'])

theorem not_strLess_replicate_zero {l : List UInt8} {n : ℕ} (h : n ≤ l.length) :
    ¬strLess l (List.replicate n 0) := by
  induction n generalizing l with
  | zero => exact fun hlt => by cases hlt
  | succ n ih =>
    cases l with
    | nil => exact absurd h (by simp)
    | cons b l =>
      intro hlt
      rw [List.replicate_succ] at hlt
      cases hlt with
      | cons hlt => exact ih (by simpa using h) hlt
      | rel hlt => exact absurd hlt (by simp)

theorem prefix_of_between {p x y l : List UInt8} (hlow : ¬strLess l (p ++ y))
    (hhigh : strLess l (p ++ x)) : p <+: l := by
  induction p generalizing l with
  | nil => exact List.nil_prefix
  | cons b p ih =>
    cases l with
    | nil => exact absurd List.Lex.nil hlow
    | cons d l =>
      rw [List.cons_append] at hlow hhigh
      cases hhigh with
      | cons hhigh => exact List.cons_prefix_cons.mpr ⟨rfl, ih (fun h => hlow (.cons h)) hhigh⟩
      | rel hlt => exact (hlow (List.Lex.rel hlt)).elim

theorem not_strLess_append {p x y : List UInt8} (h : ¬strLess x y) : ¬strLess (p ++ x) (p ++ y) := by
  induction p with
  | nil => exact h
  | cons b p ih =>
    intro hlt
    rw [List.cons_append, List.cons_append] at hlt
    cases hlt with
    | cons hlt => exact ih hlt
    | rel hlt => exact absurd hlt (Nat.lt_irrefl _)

theorem eq_of_append_eq_serializeBytes {a b rest : List UInt8} (ha : a.length ≤ maxSize)
    (hb : b.length ≤ maxSize) (h : serializeBytes a <+: serializeBytes b ++ rest) : b = a := by
  obtain ⟨z, hz⟩ := h
  have hread := reads_unserializeString ha z
  rw [hz, reads_unserializeString hb] at hread
  exact (Prod.mk.inj (Option.some_injective _ hread)).1

theorem AccountingEntries.listAccountCreditDebit_eq_filter (acentries : AccountingEntries)
    (strAccount : List UInt8) :
    acentries.listAccountCreditDebit strAccount = acentries.entries.filter fun e =>
      decide (strAccount = bytesOf "*") || decide (e.strAccount = strAccount) := by
  have hzero : littleEndian 8 (0 : UInt64).toNat = List.replicate 8 0 := by decide
  have hkey : ∀ e : AccountingEntry, ¬strLess (littleEndian 8 e.nEntryNo.toNat)
      (littleEndian 8 (0 : UInt64).toNat) := fun e => by
    rw [hzero]
    exact not_strLess_replicate_zero (length_littleEndian 8 _).ge
  refine takeWhile_dropWhile_eq_filter (fun e he hhas => ?_) (acentries.sorted.imp_of_mem ?_)
  · refine decide_eq_false ?_
    by_cases hall : strAccount = bytesOf "*"
    · rw [if_pos (decide_eq_true hall), acentryKey, hzero,
        show serializeBytes [] = List.replicate 1 0 from by decide, ← List.replicate_add]
      refine not_strLess_replicate_zero ?_
      rw [AccountingEntry.key, acentryKey, List.length_append, length_littleEndian]
      have hsize : 1 ≤ (serializeBytes e.strAccount).length := by
        rw [length_serializeBytes, getSizeOfCompactSize]
        split_ifs <;> omega
      omega
    · rw [decide_eq_false hall, Bool.false_or] at hhas
      rw [if_neg (by simp [hall]), AccountingEntry.key, of_decide_eq_true hhas]
      exact not_strLess_append (hkey e)
  · intro e e' he he' hlt hfrom
    have hfrom := of_decide_eq_false hfrom
    refine ⟨decide_eq_false fun hlt' => hfrom (trans_of strLess hlt hlt'), fun hhas => ?_⟩
    by_cases hall : strAccount = bytesOf "*"
    · rw [decide_eq_true hall, Bool.true_or]
    · rw [decide_eq_false hall, Bool.false_or] at hhas ⊢
      rw [if_neg (by simp [hall])] at hfrom
      have hacc := of_decide_eq_true hhas
      rw [AccountingEntry.key, AccountingEntry.key, acentryKey, acentryKey, hacc] at hlt
      refine decide_eq_true (eq_of_append_eq_serializeBytes ?_ (acentries.readable e he)
        (prefix_of_between hfrom hlt))
      exact hacc ▸ acentries.readable e' he'

end Beancash
