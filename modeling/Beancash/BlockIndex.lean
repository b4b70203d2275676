import Beancash.Block

namespace Beancash

/-- What `CBlockIndex` holds of a block itself. -/
structure BlockIndex where
  phashBlock : Uint256
  nFile : FileNumber
  nBlockPos : UInt32
  header : BlockHeader
  fProofOfStake : Bool
  fStakeEntropy : Bool
  fStakeModifier : Bool
  nStakeModifier : UInt64
  prevoutStake : OutPoint
  nStakeTime : UInt32
  hashProof : Uint256
deriving DecidableEq

/-- The block first, then its parent (`pprev`) and so on; the null pointer is empty. -/
abbrev BlockPtr := List BlockIndex

namespace BlockPtr

def pprev (p : BlockPtr) : BlockPtr := p.tail

def nHeight (p : BlockPtr) : ℕ := p.length - 1

def hash : BlockPtr → Uint256
  | [] => 0
  | e :: _ => e.phashBlock

def nChainTrust (p : BlockPtr) : Uint256 := (p.map fun e => blockTrust e.header.nBits).sum

@[simp] theorem pprev_cons (e : BlockIndex) (p : BlockPtr) : pprev (e :: p) = p := rfl

@[simp] theorem hash_cons (e : BlockIndex) (p : BlockPtr) : hash (e :: p) = e.phashBlock := rfl

@[simp] theorem nHeight_cons (e : BlockIndex) (p : BlockPtr) : nHeight (e :: p) = p.length := rfl

end BlockPtr

/-- `CBlockIndex::GetBlockTime` -/
def BlockIndex.blockTime (e : BlockIndex) : ℤ := e.header.nTime.toNat

/-- The bits of the block that a pointer points to. -/
def BlockPtr.nBits : BlockPtr → UInt32
  | [] => 0
  | e :: _ => e.header.nBits

def BlockPtr.blockTime : BlockPtr → ℤ
  | [] => 0
  | e :: _ => e.blockTime

/-- `CDiskBlockIndex`: the entry with its links spelled out as hashes. -/
structure DiskBlockIndex where
  index : BlockIndex
  nHeight : ℕ
  nMint : Int64
  nMoneySupply : Int64
  hashPrev : Uint256
  hashNext : Uint256
deriving DecidableEq

/-- The bytes of a number, least significant first, as many as it has. -/
def vchBytes : ℕ → ℕ → List UInt8
  | fuel + 1, n => if n = 0 then [] else UInt8.ofNat n :: vchBytes fuel (n / 256)
  | 0, _ => []

/-- `CBigNum::getvch` of a number that is not negative: a further byte holds the sign
when the last one has its top bit set. -/
def getvch (n : ℕ) : List UInt8 :=
  let vch := vchBytes n n
  if vch.getLast?.any fun b => 128 ≤ b then vch ++ [0] else vch

/-- `CScript() << nHeight`, for the heights that an `int` holds. -/
def heightScript (nHeight : ℕ) : Script :=
  if 1 ≤ nHeight ∧ nHeight ≤ 16 then [UInt8.ofNat (nHeight + 0x50)]
  else UInt8.ofNat (getvch nHeight).length :: getvch nHeight

/-- The last check of `AcceptBlock`, that the beanbase starts with the height of the block. -/
def beanbaseHeightMatches (b : Block) (nHeight : ℕ) : Bool :=
  match b.vtx.head?.bind fun tx => tx.vin.head? with
  | some txin => (heightScript nHeight).isPrefixOf txin.scriptSig
  | none => false

/-- The number that bytes stand for. -/
def vchValue : List UInt8 → ℕ
  | [] => 0
  | b :: vch => b.toNat + 256 * vchValue vch

theorem vchValue_append_zero (vch : List UInt8) : vchValue (vch ++ [0]) = vchValue vch := by
  induction vch with
  | nil => rfl
  | cons b vch ih => simp only [List.cons_append, vchValue, ih]

theorem vchValue_vchBytes {fuel n : ℕ} (h : n ≤ fuel) : vchValue (vchBytes fuel n) = n := by
  induction fuel generalizing n with
  | zero =>
    have hn : n = 0 := by omega
    rw [hn]
    rfl
  | succ fuel ih =>
    by_cases hn : n = 0
    · rw [hn]
      rfl
    · simp only [vchBytes, if_neg hn, vchValue, UInt8.toNat_ofNat']
      rw [ih (by omega)]
      omega

theorem vchValue_getvch (n : ℕ) : vchValue (getvch n) = n := by
  simp only [getvch]
  split
  · rw [vchValue_append_zero, vchValue_vchBytes le_rfl]
  · exact vchValue_vchBytes le_rfl

theorem length_vchBytes_le {fuel n k : ℕ} (h : n < 256 ^ k) : (vchBytes fuel n).length ≤ k := by
  induction fuel generalizing n k with
  | zero => exact Nat.zero_le k
  | succ fuel ih =>
    by_cases hn : n = 0
    · simp only [vchBytes, if_pos hn, List.length_nil, Nat.zero_le]
    · cases k with
      | zero => omega
      | succ k =>
        rw [pow_succ] at h
        have hk := ih (n := n / 256) (k := k) (by omega)
        simp only [vchBytes, if_neg hn, List.length_cons]
        omega

theorem length_getvch_le {n : ℕ} (h : n < 2 ^ 31) : (getvch n).length ≤ 5 := by
  have hl : (vchBytes n n).length ≤ 4 := length_vchBytes_le (by omega)
  simp only [getvch]
  split
  · rw [List.length_append, List.length_singleton]
    omega
  · omega

theorem heightScript_cases {n : ℕ} (h : n < 2 ^ 31) : ∃ b : UInt8,
    (1 ≤ n ∧ n ≤ 16 ∧ b.toNat = n + 0x50 ∧ heightScript n = [b]) ∨
      (b.toNat = (getvch n).length ∧ b.toNat ≤ 5 ∧ heightScript n = b :: getvch n) := by
  by_cases hn : 1 ≤ n ∧ n ≤ 16
  · refine ⟨UInt8.ofNat (n + 0x50), Or.inl ⟨hn.1, hn.2, ?_, if_pos hn⟩⟩
    rw [UInt8.toNat_ofNat']
    omega
  · have hl := length_getvch_le h
    have hb : (UInt8.ofNat (getvch n).length).toNat = (getvch n).length := by
      rw [UInt8.toNat_ofNat']
      omega
    exact ⟨UInt8.ofNat (getvch n).length, Or.inr ⟨hb, by omega, if_neg hn⟩⟩

theorem heightScript_injective {n m : ℕ} {script : Script} (hn : n < 2 ^ 31) (hm : m < 2 ^ 31)
    (h : heightScript n <+: script) (h' : heightScript m <+: script) : n = m := by
  obtain ⟨b, hb⟩ := heightScript_cases hn
  obtain ⟨b', hb'⟩ := heightScript_cases hm
  have hfirst : b = b' := by
    obtain ⟨l, hl⟩ := h
    obtain ⟨l', hl'⟩ := h'
    rcases hb with hb | hb <;> rcases hb' with hb' | hb' <;>
      simp only [hb, hb', List.cons_append, ← hl', List.cons.injEq] at hl <;> exact hl.1
  -- a length is smaller than the byte of any small number
  rcases hb with ⟨_, _, hbn, _⟩ | ⟨hbl, hb5, hs⟩ <;>
    rcases hb' with ⟨_, _, hbm, _⟩ | ⟨hbl', hb5', hs'⟩ <;> rw [hfirst] at *
  · omega
  · omega
  · omega
  · rw [hs] at h
    rw [hs'] at h'
    have hlen : (b' :: getvch n).length = (b' :: getvch m).length := by
      simp only [List.length_cons]
      omega
    have hv := (List.prefix_of_prefix_length_le h h' hlen.le).eq_of_length hlen
    rw [← vchValue_getvch n, ← vchValue_getvch m, (List.cons.inj hv).2]

theorem beanbase_ne_of_heights {b b' : Block} {n m : ℕ} (hn : n < 2 ^ 31) (hm : m < 2 ^ 31)
    (h : beanbaseHeightMatches b n = true) (h' : beanbaseHeightMatches b' m = true)
    (hne : n ≠ m) : b.vtx.head? ≠ b'.vtx.head? := by
  intro heq
  unfold beanbaseHeightMatches at h h'
  rw [← heq] at h'
  split at h
  · rename_i txin htxin
    simp only [htxin] at h'
    exact hne (heightScript_injective hn hm (List.isPrefixOf_iff_prefix.mp h)
      (List.isPrefixOf_iff_prefix.mp h'))
  · cases h

namespace Sample

def beanbase (label : UInt32) (nHeight : ℕ) (vout : List TxOut) : Transaction where
  nVersion := 1
  nTime := 0
  vin := [⟨⟨0, 0xffffffff⟩, heightScript nHeight ++ [0], 0xffffffff⟩]
  vout := vout
  nLockTime := label

def block (label : UInt32) (hashPrevBlock : Uint256) (vtx : List Transaction) : Block where
  header := ⟨1, hashPrevBlock, buildMerkleTree params vtx, 0, 0x207fffff, label⟩
  vtx := vtx
  vchBlockSig := []

def entry (b : Block) : BlockIndex where
  phashBlock := b.hash params
  nFile := ⟨1, firstFile_ne⟩
  nBlockPos := 10000 * b.header.nNonce
  header := b.header
  fProofOfStake := b.isProofOfStake
  fStakeEntropy := false
  fStakeModifier := false
  nStakeModifier := 0
  prevoutStake := ⟨0, 0⟩
  nStakeTime := 0
  hashProof := 0

def genesis : Block := block 0 0 [beanbase 0 0 [out 0]]

/-- A block after the genesis block, of which the transaction pays itself. -/
def first : Block := block 1 1 [beanbase 1 1 [out 1000]]

end Sample

end Beancash
