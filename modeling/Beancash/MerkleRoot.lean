import Beancash.BeanStake
import Beancash.MerkleTree
import Mathlib.Data.Nat.Bitwise

namespace Beancash

open MerkleTree Relation

variable {P : Params}

/-- What is hashed to a node that is no leaf. -/
def hashNode (P : Params) (x : Uint256 × Uint256) : Uint256 := P.hashPair x.1 x.2

theorem merkleLevel_eq_parents (level : List Uint256) :
    merkleLevel P level = parents (hashNode P) level := by
  induction level using pairs.induct with
  | case1 a b l ih => rw [merkleLevel, ih]; rfl
  | case2 a => rfl
  | case3 => rfl

/-- All that `BuildMerkleTree` hashes above the leaves. -/
def merkleNodes (P : Params) (vtx : List Transaction) : List (Uint256 × Uint256) :=
  hashed (hashNode P) vtx.length (vtx.map P.txHash)

theorem climbs_getLast {fuel : ℕ} {level : List Uint256} (hne : level ≠ [])
    (hfuel : level.length ≤ fuel) : ∃ root, (merkleLevels P fuel level).getLast? = some root ∧
      ReflTransGen (Climbs (hashNode P)) level [root] := by
  induction fuel generalizing level with
  | zero => exact absurd (List.length_eq_zero_iff.mp (Nat.le_zero.mp hfuel)) hne
  | succ fuel ih =>
    rw [merkleLevels]
    by_cases hlt : 1 < level.length
    · rw [if_pos hlt, merkleLevel_eq_parents]
      have hclimb : Climbs (hashNode P) level (parents (hashNode P) level) := ⟨hlt, rfl⟩
      have hdec := hclimb.length_lt
      have hparents : parents (hashNode P) level ≠ [] := by
        refine List.ne_nil_of_length_pos ?_
        rw [length_parents]
        omega
      obtain ⟨root, hlast, hroot⟩ := ih hparents (by omega)
      exact ⟨root, List.mem_getLast?_append_of_mem_getLast? hlast, .head hclimb hroot⟩
    · rw [if_neg hlt]
      have hpos := List.length_pos_of_ne_nil hne
      obtain ⟨root, rfl⟩ := List.length_eq_one_iff.mp (show level.length = 1 by omega)
      exact ⟨root, rfl, .refl⟩

theorem climbs_buildMerkleTree {vtx : List Transaction} (h : vtx ≠ []) :
    ReflTransGen (Climbs (hashNode P)) (vtx.map P.txHash) [buildMerkleTree P vtx] := by
  have hne : vtx.map P.txHash ≠ [] := fun hnil => h (List.map_eq_nil_iff.mp hnil)
  obtain ⟨root, hlast, hroot⟩ :=
    climbs_getLast (P := P) hne (Nat.le_of_eq (List.length_map P.txHash))
  rw [buildMerkleTree, vMerkleTree, hlast]
  exact hroot

/-- Of two lists in which no transaction is repeated, as `CheckBlock` demands, and of which no two
hashes collide, the roots are different if the lists are, unless one list is empty and the root
of the other is the null hash that the empty one has. -/
theorem buildMerkleTree_injective {vtx vtx' : List Transaction} (hids : (vtx.map P.txHash).Nodup)
    (hids' : (vtx'.map P.txHash).Nodup) (htx : {tx | tx ∈ vtx ∨ tx ∈ vtx'}.InjOn P.txHash)
    (hnode : {x | x ∈ merkleNodes P vtx ∨ x ∈ merkleNodes P vtx'}.InjOn (hashNode P))
    (hleaf : ∀ x, x ∈ merkleNodes P vtx ∨ x ∈ merkleNodes P vtx' → ∀ tx, tx ∈ vtx ∨ tx ∈ vtx' →
      P.txHash tx ≠ hashNode P x)
    (hroot : buildMerkleTree P vtx = buildMerkleTree P vtx') :
    vtx = vtx' ∨ (vtx = [] ∨ vtx' = []) ∧ buildMerkleTree P vtx = 0 := by
  by_cases hne : vtx = []
  · exact Or.inr ⟨Or.inl hne, by rw [hne]; rfl⟩
  by_cases hne' : vtx' = []
  · exact Or.inr ⟨Or.inr hne', by rw [hroot, hne']; rfl⟩
  refine Or.inl (eq_of_map_eq htx ?_)
  have hclimb := climbs_buildMerkleTree (P := P) hne
  have hclimb' := climbs_buildMerkleTree (P := P) hne'
  rw [← hroot] at hclimb'
  have hnodes : ∀ x ∈ Hashed (hashNode P) (vtx.map P.txHash) ∪
      Hashed (hashNode P) (vtx'.map P.txHash), x ∈ merkleNodes P vtx ∨ x ∈ merkleNodes P vtx' :=
    fun x hx => hx.imp (mem_hashed (Nat.le_of_eq (List.length_map _)))
      (mem_hashed (Nat.le_of_eq (List.length_map _)))
  refine eq_of_root_eq hids hids' (hnode.mono hnodes) (fun x hx => ⟨?_, ?_⟩) hclimb hclimb'
  · rw [List.mem_map]
    rintro ⟨tx, htx, heq⟩
    exact hleaf x (hnodes x hx) tx (Or.inl htx) heq
  · rw [List.mem_map]
    rintro ⟨tx, htx, heq⟩
    exact hleaf x (hnodes x hx) tx (Or.inr htx) heq

namespace Sample

/-- A list for which the last node is doubled on two levels. -/
def leaves : List Transaction := [100, 200, 300, 400, 500].map fun label => spend label [] []

def nullParams : Params := { params with txHash := fun tx => .ofNat 256 tx.nLockTime.toNat }

end Sample

open Sample in
theorem buildMerkleTree_injective_leaves : (leaves.map params.txHash).Nodup ∧
    (leaves = leaves ∨ (leaves = [] ∨ leaves = []) ∧ buildMerkleTree params leaves = 0) := by
  have hids : (leaves.map params.txHash).Nodup := by decide +kernel
  have htx : ∀ tx ∈ leaves, ∀ tx' ∈ leaves, params.txHash tx = params.txHash tx' → tx = tx' := by
    decide +kernel
  have hnode : (merkleNodes params leaves).all (fun x => (merkleNodes params leaves).all fun y =>
      decide (hashNode params x = hashNode params y → x = y)) = true := by decide +kernel
  have hleaf : (merkleNodes params leaves).all (fun x => leaves.all fun tx =>
      decide (params.txHash tx ≠ hashNode params x)) = true := by decide +kernel
  refine ⟨hids, buildMerkleTree_injective hids hids ?_ ?_ ?_ rfl⟩
  · exact fun tx h tx' h' => htx tx (or_self_iff.mp h) tx' (or_self_iff.mp h')
  · intro x h y h'
    exact of_decide_eq_true (List.all_eq_true.mp (List.all_eq_true.mp hnode x (or_self_iff.mp h)) y
      (or_self_iff.mp h'))
  · intro x h tx h'
    exact of_decide_eq_true (List.all_eq_true.mp (List.all_eq_true.mp hleaf x (or_self_iff.mp h)) tx
      (or_self_iff.mp h'))

open Sample in
/-- The empty list and a single transaction whose hash is null. -/
theorem buildMerkleTree_null : ∃ vtx vtx' : List Transaction,
    (vtx.map nullParams.txHash).Nodup ∧ (vtx'.map nullParams.txHash).Nodup ∧
    {tx | tx ∈ vtx ∨ tx ∈ vtx'}.InjOn nullParams.txHash ∧ merkleNodes nullParams vtx = [] ∧
    merkleNodes nullParams vtx' = [] ∧
    buildMerkleTree nullParams vtx = buildMerkleTree nullParams vtx' ∧ vtx ≠ vtx' := by
  refine ⟨[], [spend 0 [] []], by decide, by decide, ?_, rfl, rfl, by decide +kernel, by decide⟩
  rintro tx (h | h) tx' (h' | h') _
  · cases h
  · cases h
  · cases h'
  · rw [List.mem_singleton.mp h, List.mem_singleton.mp h']

/-- `GetMerkleBranch` of a block that may have its tree already. -/
def cachedMerkleBranch (P : Params) (cached : List Uint256) (vtx : List Transaction)
    (nIndex : ℕ) : List Uint256 :=
  merkleBranchFrom (if cached.isEmpty then vMerkleTree P vtx else cached) vtx.length 0 vtx.length
    nIndex

/-- `CheckMerkleBranch`, in which -1 is the index of a transaction that is in no block. -/
def Block.checkMerkleBranch (P : Params) (hash : Uint256) (vMerkleBranch : List Uint256)
    (nIndex : ℤ) : Uint256 :=
  if nIndex = -1 then 0 else Beancash.checkMerkleBranch P hash vMerkleBranch nIndex.toNat

theorem getElem?_merkleLevel {level : List Uint256} {nIndex : ℕ} {hash otherside : Uint256}
    (hhash : level[nIndex]? = some hash)
    (hother : level[min (nIndex ^^^ 1) (level.length - 1)]? = some otherside) :
    (merkleLevel P level)[nIndex / 2]? = some
      (if nIndex % 2 = 1 then P.hashPair otherside hash else P.hashPair hash otherside) := by
  have hlt := (List.getElem?_eq_some_iff.mp hhash).1
  rw [merkleLevel_eq_parents, parents, List.getElem?_map]
  by_cases hodd : nIndex % 2 = 1
  · have hxor : nIndex ^^^ 1 = nIndex - 1 := Nat.xor_one_of_odd (Nat.odd_iff.mpr hodd)
    rw [hxor, Nat.min_eq_left (by omega)] at hother
    have hpair := getElem?_pairs (l := level) (k := nIndex / 2) (a := otherside) (b := hash)
      (by rw [show 2 * (nIndex / 2) = nIndex - 1 by omega, hother])
      (by rw [show min (2 * (nIndex / 2) + 1) (level.length - 1) = nIndex by omega, hhash])
    rw [hpair, if_pos hodd]
    rfl
  · have hxor : nIndex ^^^ 1 = nIndex + 1 := Nat.xor_one_of_even (Nat.even_iff.mpr (by omega))
    rw [hxor] at hother
    have hpair := getElem?_pairs (l := level) (k := nIndex / 2) (a := hash) (b := otherside)
      (by rw [show 2 * (nIndex / 2) = nIndex by omega, hhash])
      (by rw [show 2 * (nIndex / 2) = nIndex by omega, hother])
    rw [hpair, if_neg hodd]
    rfl

/-- From a node of the level that starts at `j` in the tree the branch leads to the root. -/
theorem checkMerkleBranch_merkleBranchFrom {tree : List Uint256} {fuel j nIndex : ℕ}
    {level : List Uint256} {hash : Uint256} (hfuel : level.length ≤ fuel)
    (htree : tree.drop j = merkleLevels P fuel level) (hhash : level[nIndex]? = some hash) :
    some (checkMerkleBranch P hash (merkleBranchFrom tree fuel j level.length nIndex) nIndex) =
      (merkleLevels P fuel level).getLast? := by
  have hlt := (List.getElem?_eq_some_iff.mp hhash).1
  induction fuel generalizing j nIndex level hash with
  | zero => omega
  | succ fuel ih =>
    rw [merkleLevels] at htree ⊢
    rw [merkleBranchFrom]
    by_cases hmany : 1 < level.length
    · rw [if_pos hmany] at htree ⊢
      rw [if_pos hmany, checkMerkleBranch]
      have hsibling : min (nIndex ^^^ 1) (level.length - 1) < level.length := by omega
      have hother : tree.getD (j + min (nIndex ^^^ 1) (level.length - 1)) 0 =
          level[min (nIndex ^^^ 1) (level.length - 1)] := by
        rw [List.getD_eq_getElem?_getD, ← List.getElem?_drop, htree,
          List.getElem?_append_left hsibling, List.getElem?_eq_getElem hsibling]
        rfl
      have hparent := getElem?_merkleLevel (P := P) hhash (List.getElem?_eq_getElem hsibling)
      have hlen : (merkleLevel P level).length = (level.length + 1) / 2 := by
        rw [merkleLevel_eq_parents, length_parents]
      have habove : tree.drop (j + level.length) =
          merkleLevels P fuel (merkleLevel P level) := by
        rw [← List.drop_drop, htree, List.drop_left]
      have hrest := ih (by omega) habove hparent (by omega)
      rw [hlen] at hrest
      rw [hother, hrest, List.getLast?_append, ← hrest]
      rfl
    · rw [if_neg hmany, if_neg hmany, checkMerkleBranch]
      obtain ⟨root, rfl⟩ := List.length_eq_one_iff.mp (show level.length = 1 by omega)
      obtain rfl : nIndex = 0 := by omega
      rw [← Option.some_injective _ hhash]
      rfl

/-- The branch of each transaction of a block leads from its hash to the root. -/
theorem checkMerkleBranch_getMerkleBranch (P : Params) {cached : List Uint256}
    {vtx : List Transaction} (hcached : cached = [] ∨ cached = vMerkleTree P vtx) {nIndex : ℕ}
    (h : nIndex < vtx.length) :
    Block.checkMerkleBranch P (P.txHash vtx[nIndex]) (cachedMerkleBranch P cached vtx nIndex)
      nIndex = buildMerkleTree P vtx := by
  have htree : (if cached.isEmpty then vMerkleTree P vtx else cached) = vMerkleTree P vtx := by
    rcases hcached with rfl | rfl
    · rfl
    · exact ite_self _
  have hlen : (vtx.map P.txHash).length = vtx.length := List.length_map _
  have hhash : (vtx.map P.txHash)[nIndex]? = some (P.txHash vtx[nIndex]) := by
    rw [List.getElem?_map, List.getElem?_eq_getElem h]
    rfl
  have hbranch := checkMerkleBranch_merkleBranchFrom (P := P) (j := 0) (Nat.le_of_eq hlen)
    (List.drop_zero (l := vMerkleTree P vtx)) hhash
  rw [hlen] at hbranch
  rw [Block.checkMerkleBranch, if_neg (by omega), Int.toNat_natCast, cachedMerkleBranch, htree,
    buildMerkleTree, vMerkleTree, ← hbranch]
  rfl

open Sample in
theorem checkMerkleBranch_getMerkleBranch_leaves :
    Block.checkMerkleBranch params (params.txHash (leaves.get ⟨4, by decide⟩))
      (cachedMerkleBranch params [] leaves 4) (4 : ℕ) = buildMerkleTree params leaves :=
  checkMerkleBranch_getMerkleBranch params (Or.inl rfl) (by decide)

end Beancash
