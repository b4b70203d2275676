import Beancash.BlockIndex
import Beancash.CandidateScan
import Mathlib.Data.List.Sort

namespace Beancash

abbrev MapBlockIndex := Uint256 → Option BlockPtr

/-- `Hash` of the proof hash of a block and the previous stake modifier. -/
abbrev SelectionHash := Uint256 → UInt64 → Uint256

def modifierIntervalRatio : ℕ := 3

/-- `GetLastStakeModifier`: the modifier, and when it was generated. -/
def getLastStakeModifier : BlockPtr → Option (UInt64 × ℤ)
  | [] => none
  | e :: p =>
    if e.fStakeModifier then some (e.nStakeModifier, e.blockTime) else getLastStakeModifier p

/-- `GetStakeModifierSelectionIntervalSection` -/
def selectionIntervalSection (P : Params) (nSection : ℕ) : ℤ :=
  (P.nModifierInterval * 63 /
    UInt32.ofNat (63 + (63 - nSection) * (modifierIntervalRatio - 1))).toNat

/-- `GetStakeModifierSelectionInterval` -/
def selectionInterval (P : Params) : ℤ := ((List.range 64).map (selectionIntervalSection P)).sum

/-- A block of proof of bean is favoured over one of proof of work. -/
def hashSelection (H : SelectionHash) (nStakeModifierPrev : UInt64) (e : BlockIndex) : Uint256 :=
  let hash := H e.hashProof nStakeModifierPrev
  if e.fProofOfStake then hash >>> 32 else hash

/-- The loop; `best` is `hashBest` and `pindexSelected` once `fSelected` is set, and the result
is missing when a candidate is not indexed. -/
def selectLoop (H : SelectionHash) (mapBlockIndex : MapBlockIndex)
    (mapSelectedBlocks : List Uint256) (nSelectionIntervalStop : ℤ) (nStakeModifierPrev : UInt64) :
    List (ℤ × Uint256) → Option (Uint256 × BlockIndex) → Option (Option (Uint256 × BlockIndex))
  | [], best => some best
  | item :: items, best =>
    match mapBlockIndex item.2 with
    | some (pindex :: _) =>
      if best.isSome ∧ nSelectionIntervalStop < pindex.blockTime then some best
      else if mapSelectedBlocks.contains pindex.phashBlock then
        selectLoop H mapBlockIndex mapSelectedBlocks nSelectionIntervalStop nStakeModifierPrev
          items best
      else
        let hash := hashSelection H nStakeModifierPrev pindex
        selectLoop H mapBlockIndex mapSelectedBlocks nSelectionIntervalStop nStakeModifierPrev items
          (match best with
          | some (hashBest, pindexSelected) =>
            if hash < hashBest then some (hash, pindex) else some (hashBest, pindexSelected)
          | none => some (hash, pindex))
    | _ => none

/-- `SelectBlockFromCandidates`; `none` is a failure. -/
def selectBlockFromCandidates (H : SelectionHash) (mapBlockIndex : MapBlockIndex)
    (vSortedByTimestamp : List (ℤ × Uint256)) (mapSelectedBlocks : List Uint256)
    (nSelectionIntervalStop : ℤ) (nStakeModifierPrev : UInt64) : Option BlockIndex :=
  (selectLoop H mapBlockIndex mapSelectedBlocks nSelectionIntervalStop nStakeModifierPrev
    vSortedByTimestamp none).bind fun best => best.map Prod.snd

/-- The order of `pair<int64_t, uint256>`. -/
def pairLE (a b : ℤ × Uint256) : Prop := a.1 < b.1 ∨ a.1 = b.1 ∧ a.2 ≤ b.2

instance : DecidableRel pairLE := fun a b =>
  inferInstanceAs (Decidable (a.1 < b.1 ∨ a.1 = b.1 ∧ a.2 ≤ b.2))

def candidatePair (e : BlockIndex) : ℤ × Uint256 := (e.blockTime, e.phashBlock)

/-- `nSelectionIntervalStart` -/
def selectionIntervalStart (P : Params) (nTime : ℤ) : ℤ :=
  nTime / P.nModifierInterval.toNat * P.nModifierInterval.toNat - selectionInterval P

/-- The blocks from the last one down to the first that is before the window. -/
def candidateWindow (nSelectionIntervalStart : ℤ) (pindexPrev : BlockPtr) : List BlockIndex :=
  pindexPrev.takeWhile fun e => decide (nSelectionIntervalStart ≤ e.blockTime)

/-- `vSortedByTimestamp` -/
def sortedByTimestamp (nSelectionIntervalStart : ℤ) (pindexPrev : BlockPtr) :
    List (ℤ × Uint256) :=
  ((candidateWindow nSelectionIntervalStart pindexPrev).map candidatePair).reverse.insertionSort
    pairLE

/-- The rounds, as many as are left, from round `nRound` on. -/
def selectRounds (P : Params) (H : SelectionHash) (mapBlockIndex : MapBlockIndex)
    (vSortedByTimestamp : List (ℤ × Uint256)) (nStakeModifier : UInt64) :
    ℕ → ℕ → UInt64 → ℤ → List Uint256 → Option UInt64
  | 0, _, nStakeModifierNew, _, _ => some nStakeModifierNew
  | rounds + 1, nRound, nStakeModifierNew, nSelectionIntervalStop, mapSelectedBlocks =>
    let nSelectionIntervalStop := nSelectionIntervalStop + selectionIntervalSection P nRound
    match selectBlockFromCandidates H mapBlockIndex vSortedByTimestamp mapSelectedBlocks
        nSelectionIntervalStop nStakeModifier with
    | none => none
    | some pindex =>
      selectRounds P H mapBlockIndex vSortedByTimestamp nStakeModifier rounds (nRound + 1)
        (nStakeModifierNew ||| ((if pindex.fStakeEntropy then 1 else 0) <<< UInt64.ofNat nRound))
        nSelectionIntervalStop (pindex.phashBlock :: mapSelectedBlocks)

/-- `nStakeModifierNew` of the rounds over the window before a block. -/
def newStakeModifier (P : Params) (H : SelectionHash) (mapBlockIndex : MapBlockIndex)
    (pindexPrev : BlockPtr) (nStakeModifier : UInt64) : Option UInt64 :=
  let nSelectionIntervalStart := selectionIntervalStart P (BlockPtr.blockTime pindexPrev)
  let vSortedByTimestamp := sortedByTimestamp nSelectionIntervalStart pindexPrev
  selectRounds P H mapBlockIndex vSortedByTimestamp nStakeModifier
    (min 64 vSortedByTimestamp.length) 0 0 nSelectionIntervalStart []

/-- `printFormatStringLiteral`: what is left of a format, from its first conversion on. -/
def printFormatStringLiteral : List Char → List Char
  | [] => []
  | '%' :: '%' :: fmt => printFormatStringLiteral fmt
  | '%' :: fmt => '%' :: fmt
  | _ :: fmt => printFormatStringLiteral fmt

/-- `streamStateFromFormat` throws where there is no conversion left for an argument. -/
def notEnoughConversions (fmt : List Char) : Bool :=
  (printFormatStringLiteral fmt).head? != some '%'

/-- The call fails, or a `runtime_error` leaves it. -/
inductive ModifierError
  | failed
  | runtimeError
deriving DecidableEq

/-- `ComputeNextStakeModifier`: the modifier, and whether it was generated. -/
def computeNextStakeModifier (P : Params) (H : SelectionHash) (mapBlockIndex : MapBlockIndex) :
    BlockPtr → Except ModifierError (UInt64 × Bool)
  | [] => .ok (0, true)
  | e :: p =>
    match getLastStakeModifier (e :: p) with
    | none => .error .failed
    | some (nStakeModifier, nModifierTime) =>
      if e.blockTime / P.nModifierInterval.toNat ≤ nModifierTime / P.nModifierInterval.toNat then
        .ok (nStakeModifier, false)
      else
        match newStakeModifier P H mapBlockIndex (e :: p) nStakeModifier with
        | none => .error .failed
        | some nStakeModifierNew =>
          -- `LogPrintf` takes the name of the category for its format
          if notEnoughConversions "sproutmodifier".toList then .error .runtimeError
          else .ok (nStakeModifierNew, true)

/-- Every block of a chain is found under its hash. -/
def Indexed (mapBlockIndex : MapBlockIndex) (p : BlockPtr) : Prop :=
  ∀ q, q <:+ p → q ≠ [] → mapBlockIndex (BlockPtr.hash q) = some q

/-- Every block of a list is found under its hash, somewhere. -/
def Found (mapBlockIndex : MapBlockIndex) (l : List BlockIndex) : Prop :=
  ∀ e ∈ l, ∃ q, mapBlockIndex e.phashBlock = some (e :: q)

variable {P : Params} {H : SelectionHash} {mapBlockIndex mapBlockIndex' : MapBlockIndex}
  {p : BlockPtr} {l : List BlockIndex}

theorem Indexed.found (h : Indexed mapBlockIndex p) : Found mapBlockIndex p := by
  intro e he
  obtain ⟨q, r, rfl⟩ := List.append_of_mem he
  exact ⟨r, h (e :: r) (List.suffix_append q _) (List.cons_ne_nil e r)⟩

theorem Indexed.nodup (h : Indexed mapBlockIndex p) :
    (p.map BlockIndex.phashBlock).Nodup := by
  induction p with
  | nil => exact List.nodup_nil
  | cons e p ih =>
    rw [List.map_cons, List.nodup_cons]
    refine ⟨fun hmem => ?_, ih fun q hq => h q (hq.trans (List.suffix_cons e p))⟩
    obtain ⟨d, hd, hhash⟩ := List.mem_map.mp hmem
    obtain ⟨q, r, rfl⟩ := List.append_of_mem hd
    have hfirst := h (e :: (q ++ d :: r)) List.suffix_rfl (List.cons_ne_nil _ _)
    have hother := h (d :: r) ((List.suffix_append q _).trans (List.suffix_cons e _))
      (List.cons_ne_nil _ _)
    simp only [BlockPtr.hash_cons] at hfirst hother
    rw [hhash, hfirst] at hother
    have hlen := congrArg List.length (Option.some_injective _ hother)
    simp only [List.length_cons, List.length_append] at hlen
    omega

def selectionKey (H : SelectionHash) (nStakeModifierPrev : UInt64) (e : BlockIndex) : ℕ :=
  (hashSelection H nStakeModifierPrev e).toNat

def isSelected (mapSelectedBlocks : List Uint256) (e : BlockIndex) : Bool :=
  mapSelectedBlocks.contains e.phashBlock

theorem selectLoop_eq (hfound : Found mapBlockIndex l) (mapSelectedBlocks : List Uint256)
    (stop : ℤ) (prev : UInt64) (best : Option BlockIndex) :
    selectLoop H mapBlockIndex mapSelectedBlocks stop prev (l.map candidatePair)
        (best.map fun e => (hashSelection H prev e, e)) =
      some ((CandidateScan.scan BlockIndex.blockTime (selectionKey H prev)
        (isSelected mapSelectedBlocks) stop l best).map fun e => (hashSelection H prev e, e)) := by
  induction l generalizing best with
  | nil => rfl
  | cons e l ih =>
    obtain ⟨q, hq⟩ := hfound e List.mem_cons_self
    have hrest := ih fun d hd => hfound d (List.mem_cons_of_mem e hd)
    rw [List.map_cons, selectLoop, CandidateScan.scan]
    simp only [candidatePair, hq, Option.isSome_map]
    split
    · rfl
    · rw [isSelected]
      split
      · exact hrest best
      · rw [← hrest]
        congr 1
        cases best with
        | none => rfl
        | some d =>
          simp only [Option.map_some, CandidateScan.better, selectionKey, BitVec.lt_def]
          split <;> rename_i hlt <;> simp only [hlt, if_true, if_false, Option.map_some]

theorem selectBlockFromCandidates_eq (hfound : Found mapBlockIndex l)
    (mapSelectedBlocks : List Uint256) (stop : ℤ) (prev : UInt64) :
    selectBlockFromCandidates H mapBlockIndex (l.map candidatePair) mapSelectedBlocks stop prev =
      CandidateScan.scan BlockIndex.blockTime (selectionKey H prev)
        (isSelected mapSelectedBlocks) stop l none := by
  have hloop := selectLoop_eq (H := H) hfound mapSelectedBlocks stop prev none
  rw [Option.map_none] at hloop
  rw [selectBlockFromCandidates, hloop, Option.bind_some, Option.map_map]
  exact Option.map_id'

instance : Std.Total pairLE where
  total a b := by
    unfold pairLE
    have hle := Std.le_total (a := a.2) (b := b.2)
    rcases lt_trichotomy a.1 b.1 with h | h | h
    · exact Or.inl (Or.inl h)
    · exact hle.imp (fun hab => Or.inr ⟨h, hab⟩) fun hba => Or.inr ⟨h.symm, hba⟩
    · exact Or.inr (Or.inl h)

instance : IsTrans (ℤ × Uint256) pairLE where
  trans a b c := by
    unfold pairLE
    rintro (hab | ⟨hab, hab'⟩) (hbc | ⟨hbc, hbc'⟩)
    · exact Or.inl (hab.trans hbc)
    · exact Or.inl (hbc ▸ hab)
    · exact Or.inl (hab ▸ hbc)
    · exact Or.inr ⟨hab.trans hbc, Std.le_trans hab' hbc'⟩

/-- The candidates in the order of their times and hashes. -/
def candidates (nSelectionIntervalStart : ℤ) (pindexPrev : BlockPtr) : List BlockIndex :=
  (candidateWindow nSelectionIntervalStart pindexPrev).reverse.insertionSort
    fun e d => pairLE (candidatePair e) (candidatePair d)

theorem candidates_perm (start : ℤ) (p : BlockPtr) :
    (candidates start p).Perm (candidateWindow start p) :=
  (List.perm_insertionSort _ _).trans (List.reverse_perm _)

theorem map_candidates (start : ℤ) (p : BlockPtr) :
    (candidates start p).map candidatePair = sortedByTimestamp start p := by
  rw [candidates, sortedByTimestamp, ← List.map_reverse]
  exact List.map_insertionSort _ _ _ _ fun _ _ _ _ => Iff.rfl

theorem candidates_sorted (start : ℤ) (p : BlockPtr) :
    (candidates start p).Pairwise fun e d => pairLE (candidatePair e) (candidatePair d) := by
  have hsorted := List.pairwise_insertionSort pairLE
    ((candidateWindow start p).map candidatePair).reverse
  rw [← sortedByTimestamp, ← map_candidates, List.pairwise_map] at hsorted
  exact hsorted

theorem blockTime_le_of_pairLE {e d : BlockIndex} (h : pairLE (candidatePair e) (candidatePair d)) :
    e.blockTime ≤ d.blockTime := h.elim le_of_lt fun h => h.1.le

theorem Found.candidates (h : Found mapBlockIndex p) (start : ℤ) :
    Found mapBlockIndex (candidates start p) := fun e he =>
  h e ((List.takeWhile_sublist _).subset ((candidates_perm start p).mem_iff.mp he))

theorem candidates_nodup (h : (p.map BlockIndex.phashBlock).Nodup) (start : ℤ) :
    ((candidates start p).map BlockIndex.phashBlock).Nodup := by
  refine ((candidates_perm start p).map _).nodup_iff.mpr ?_
  exact h.sublist ((List.takeWhile_sublist _).map _)

/-- The time up to which round `nRound` looks for candidates. -/
def stopTime (P : Params) (start : ℤ) (nRound : ℕ) : ℤ :=
  start + ((List.range (nRound + 1)).map (selectionIntervalSection P)).sum

/-- What each of the rounds so far has chosen: a block that no earlier one has, by its rule. -/
structure Chosen (P : Params) (H : SelectionHash) (start : ℤ) (prev : UInt64)
    (l chosen : List BlockIndex) : Prop where
  nodup : (chosen.map BlockIndex.phashBlock).Nodup
  choice : ∀ r e, chosen[r]? = some e →
    CandidateScan.IsChoice BlockIndex.blockTime (selectionKey H prev)
      (isSelected ((chosen.take r).map BlockIndex.phashBlock)) (stopTime P start r) l e

/-- The bits of a modifier are the entropy bits of the blocks. -/
def HasBits (nStakeModifier : UInt64) (chosen : List BlockIndex) : Prop :=
  ∀ r < 64, nStakeModifier.toNat.testBit r = chosen[r]?.any BlockIndex.fStakeEntropy

theorem HasBits.concat {m : UInt64} {chosen : List BlockIndex} (h : HasBits m chosen)
    (hlen : chosen.length < 64) (e : BlockIndex) :
    HasBits (m ||| ((if e.fStakeEntropy then 1 else 0) <<< UInt64.ofNat chosen.length))
      (chosen ++ [e]) := by
  intro r hr
  have hbool : (if e.fStakeEntropy then 1 else 0 : UInt64).toNat = e.fStakeEntropy.toNat := by
    cases e.fStakeEntropy <;> rfl
  have hbit : ((if e.fStakeEntropy then 1 else 0 : UInt64) <<<
      UInt64.ofNat chosen.length).toNat.testBit r =
        (decide (r = chosen.length) && e.fStakeEntropy) := by
    rw [UInt64.toNat_shiftLeft, hbool, UInt64.toNat_ofNat', Nat.testBit_mod_two_pow,
      Nat.mod_eq_of_lt (by omega : chosen.length < 2 ^ 64), Nat.mod_eq_of_lt hlen,
      Nat.testBit_shiftLeft, Nat.testBit_bool_toNat, ← Bool.and_assoc, ← Bool.and_assoc,
      ← Bool.decide_and, ← Bool.decide_and]
    congr 2
    rw [eq_iff_iff]
    omega
  rw [UInt64.toNat_or, Nat.testBit_or, h r hr, hbit]
  rcases lt_trichotomy r chosen.length with hlt | heq | hgt
  · rw [List.getElem?_append_left hlt, decide_eq_false hlt.ne, Bool.false_and, Bool.or_false]
  · rw [heq, List.getElem?_concat_length, List.getElem?_eq_none le_rfl, decide_eq_true rfl]
    rfl
  · rw [List.getElem?_eq_none hgt.le, decide_eq_false hgt.ne', List.getElem?_eq_none]
    · rfl
    · rw [List.length_append]
      exact hgt

theorem exists_choice (hfound : Found mapBlockIndex l)
    (hsorted : l.Pairwise fun e d => pairLE (candidatePair e) (candidatePair d))
    (hnodup : (l.map BlockIndex.phashBlock).Nodup) {chosen : List BlockIndex}
    (hlen : chosen.length < l.length) {mapSelectedBlocks : List Uint256}
    (hsel : ∀ hash, hash ∈ mapSelectedBlocks ↔ hash ∈ chosen.map BlockIndex.phashBlock)
    (stop : ℤ) (prev : UInt64) :
    ∃ e, selectBlockFromCandidates H mapBlockIndex (l.map candidatePair) mapSelectedBlocks stop
        prev = some e ∧
      CandidateScan.IsChoice BlockIndex.blockTime (selectionKey H prev)
        (isSelected (chosen.map BlockIndex.phashBlock)) stop l e := by
  have hexcluded : isSelected mapSelectedBlocks =
      isSelected (chosen.map BlockIndex.phashBlock) := by
    funext e
    rw [isSelected, isSelected, Bool.eq_iff_iff, List.contains_iff_mem, List.contains_iff_mem]
    exact hsel e.phashBlock
  rw [selectBlockFromCandidates_eq hfound, hexcluded]
  refine CandidateScan.scan_none (hsorted.imp blockTime_le_of_pairLE) ?_
  -- fewer blocks were chosen than there are candidates
  by_contra hall
  have hsub : l.map BlockIndex.phashBlock ⊆ chosen.map BlockIndex.phashBlock := by
    intro hash hmem
    obtain ⟨e, he, rfl⟩ := List.mem_map.mp hmem
    by_contra hout
    refine hall ⟨e, he, ?_⟩
    rw [isSelected, ← Bool.not_eq_true, List.contains_iff_mem]
    exact hout
  have hle := (hnodup.subperm hsub).length_le
  simp only [List.length_map] at hle
  omega

theorem selectRounds_eq_some (hfound : Found mapBlockIndex l)
    (hsorted : l.Pairwise fun e d => pairLE (candidatePair e) (candidatePair d))
    (hnodup : (l.map BlockIndex.phashBlock).Nodup) (start : ℤ) (prev : UInt64) {rounds : ℕ}
    {m : UInt64} {chosen : List BlockIndex} {mapSelectedBlocks : List Uint256} {stop : ℤ}
    (hstop : stop + selectionIntervalSection P chosen.length = stopTime P start chosen.length)
    (hlen : chosen.length + rounds ≤ min 64 l.length)
    (hsel : ∀ hash, hash ∈ mapSelectedBlocks ↔ hash ∈ chosen.map BlockIndex.phashBlock)
    (hchosen : Chosen P H start prev l chosen) (hbits : HasBits m chosen) :
    ∃ m' chosen', selectRounds P H mapBlockIndex (l.map candidatePair) prev rounds chosen.length m
        stop mapSelectedBlocks = some m' ∧ chosen'.length = chosen.length + rounds ∧
      Chosen P H start prev l chosen' ∧ HasBits m' chosen' := by
  induction rounds generalizing m chosen mapSelectedBlocks stop with
  | zero => exact ⟨m, chosen, rfl, rfl, hchosen, hbits⟩
  | succ rounds ih =>
    obtain ⟨e, he, hchoice⟩ := exists_choice (H := H) hfound hsorted hnodup (by omega) hsel
      (stopTime P start chosen.length) prev
    have hfresh : e.phashBlock ∉ chosen.map BlockIndex.phashBlock := by
      have hfree := hchoice.free
      rw [isSelected, ← Bool.not_eq_true, List.contains_iff_mem] at hfree
      exact hfree
    have hconcat : (chosen ++ [e]).length = chosen.length + 1 := List.length_append
    have hchosen' : Chosen P H start prev l (chosen ++ [e]) := by
      refine ⟨?_, fun r d hd => ?_⟩
      · rw [List.map_append, List.nodup_append]
        refine ⟨hchosen.nodup, List.nodup_singleton _, ?_⟩
        intro hash hmem hash' hmem' heq
        rw [List.map_singleton, List.mem_singleton] at hmem'
        exact hfresh (hmem' ▸ heq ▸ hmem)
      · by_cases hr : r < chosen.length
        · rw [List.getElem?_append_left hr] at hd
          rw [List.take_append_of_le_length hr.le]
          exact hchosen.choice r d hd
        · have hr' := (List.getElem?_eq_some_iff.mp hd).1
          obtain rfl : r = chosen.length := by omega
          rw [List.getElem?_concat_length, Option.some.injEq] at hd
          rw [List.take_left', ← hd]
          · exact hchoice
          · rfl
    obtain ⟨m', chosen', hm, hlen', hres⟩ := @ih (m ||| ((if e.fStakeEntropy then 1 else 0) <<<
        UInt64.ofNat chosen.length)) (chosen ++ [e]) (e.phashBlock :: mapSelectedBlocks)
      (stopTime P start chosen.length)
      (by
        rw [hconcat, stopTime, stopTime, List.range_succ (n := chosen.length + 1), List.map_append,
          List.sum_append, List.map_singleton, List.sum_singleton, add_assoc])
      (by omega)
      (by
        intro hash
        rw [List.mem_cons, hsel, List.map_append, List.mem_append, List.map_singleton,
          List.mem_singleton, or_comm])
      hchosen' (hbits.concat (by omega) e)
    refine ⟨m', chosen', ?_, by omega, hres⟩
    rw [selectRounds]
    simp only [hstop, he]
    rw [hconcat] at hm
    exact hm

theorem selectRounds_congr (hfound : Found mapBlockIndex l) (hfound' : Found mapBlockIndex' l)
    (prev : UInt64) (rounds nRound : ℕ) (m : UInt64) (stop : ℤ) (mapSelectedBlocks : List Uint256) :
    selectRounds P H mapBlockIndex (l.map candidatePair) prev rounds nRound m stop
        mapSelectedBlocks =
      selectRounds P H mapBlockIndex' (l.map candidatePair) prev rounds nRound m stop
        mapSelectedBlocks := by
  induction rounds generalizing nRound m stop mapSelectedBlocks with
  | zero => rfl
  | succ rounds ih =>
    simp only [selectRounds, selectBlockFromCandidates_eq hfound,
      selectBlockFromCandidates_eq hfound', ih]

/-- What the rounds of a regeneration make of the window before a block: there are as many as
there are candidates, up to 64, and their blocks give the bits. -/
def Regenerates (P : Params) (H : SelectionHash) (p : BlockPtr) (prev m : UInt64) : Prop :=
  let start := selectionIntervalStart P (BlockPtr.blockTime p)
  ∃ chosen, chosen.length = min 64 (candidates start p).length ∧
    Chosen P H start prev (candidates start p) chosen ∧ HasBits m chosen

/-- When a modifier is not old enough to be generated again. -/
def Recent (P : Params) (p : BlockPtr) (nModifierTime : ℤ) : Prop :=
  BlockPtr.blockTime p / P.nModifierInterval.toNat ≤ nModifierTime / P.nModifierInterval.toNat

instance (P : Params) (p : BlockPtr) (nModifierTime : ℤ) : Decidable (Recent P p nModifierTime) :=
  inferInstanceAs (Decidable (_ ≤ _))

theorem getLastStakeModifier_isSome (h : p.getLast?.any BlockIndex.fStakeModifier = true) :
    (getLastStakeModifier p).isSome = true := by
  induction p with
  | nil => cases h
  | cons e p ih =>
    rw [getLastStakeModifier]
    by_cases he : e.fStakeModifier = true
    · rw [if_pos he]
      rfl
    · rw [if_neg he]
      cases p with
      | nil => exact absurd h he
      | cons d p => exact ih h

theorem newStakeModifier_spec (hindexed : Indexed mapBlockIndex p) (prev : UInt64) :
    ∃ m, Regenerates P H p prev m ∧ ∀ mapBlockIndex', Indexed mapBlockIndex' p →
      newStakeModifier P H mapBlockIndex' p prev = some m := by
  have hnodup := candidates_nodup hindexed.nodup (selectionIntervalStart P (BlockPtr.blockTime p))
  have hfound := hindexed.found.candidates (selectionIntervalStart P (BlockPtr.blockTime p))
  have hempty : Chosen P H (selectionIntervalStart P (BlockPtr.blockTime p)) prev
      (candidates (selectionIntervalStart P (BlockPtr.blockTime p)) p) [] :=
    ⟨List.nodup_nil, fun r e h => nomatch h⟩
  obtain ⟨m, chosen, hm, hlen, hchosen, hbits⟩ :=
    @selectRounds_eq_some P H mapBlockIndex _ hfound (candidates_sorted _ _) hnodup
      (selectionIntervalStart P (BlockPtr.blockTime p)) prev
      (min 64 (candidates (selectionIntervalStart P (BlockPtr.blockTime p)) p).length) 0 [] []
      (selectionIntervalStart P (BlockPtr.blockTime p)) (by simp [stopTime]) (by simp)
      (fun _ => Iff.rfl) hempty (fun r _ => Nat.zero_testBit r)
  rw [List.length_nil, Nat.zero_add] at hlen
  refine ⟨m, ⟨chosen, hlen, hchosen, hbits⟩, fun mapBlockIndex' hindexed' => ?_⟩
  have hfound' := hindexed'.found.candidates (selectionIntervalStart P (BlockPtr.blockTime p))
  rw [selectRounds_congr hfound hfound'] at hm
  rw [newStakeModifier, ← map_candidates, List.length_map]
  exact hm

/-- The last generated modifier of a chain is not old enough to be generated again. -/
def KeepsModifier (P : Params) (p : BlockPtr) : Prop :=
  ∀ last ∈ getLastStakeModifier p, Recent P p last.2

/-- The next modifier is the last one, or it is generated by the rule, and it does not depend on
the blocks that are not on the chain. -/
def NextModifier (P : Params) (H : SelectionHash) (mapBlockIndex : MapBlockIndex) (p : BlockPtr) :
    Prop :=
  ∃ last ∈ getLastStakeModifier p, ∃ m fGenerated,
    (fGenerated = true → Regenerates P H p last.1 m) ∧ (fGenerated = false → m = last.1) ∧
      computeNextStakeModifier P H mapBlockIndex p = .ok (m, fGenerated) ∧
      ∀ mapBlockIndex', Indexed mapBlockIndex' p →
        computeNextStakeModifier P H mapBlockIndex' p = .ok (m, fGenerated)

theorem KeepsModifier.next {last : UInt64 × ℤ} (h : KeepsModifier P p) (hp : p ≠ [])
    (hlast : getLastStakeModifier p = some last) (mapBlockIndex : MapBlockIndex) :
    computeNextStakeModifier P H mapBlockIndex p = .ok (last.1, false) := by
  cases p with
  | nil => exact absurd rfl hp
  | cons e p =>
    simp only [computeNextStakeModifier, hlast]
    exact if_pos (h last hlast)

theorem computeNextStakeModifier_throws {last : UInt64 × ℤ} {m : UInt64} (hp : p ≠ [])
    (hlast : getLastStakeModifier p = some last) (hold : ¬Recent P p last.2)
    (hm : newStakeModifier P H mapBlockIndex p last.1 = some m) :
    computeNextStakeModifier P H mapBlockIndex p = .error .runtimeError := by
  cases p with
  | nil => exact absurd rfl hp
  | cons e p =>
    simp only [computeNextStakeModifier, hlast, hm]
    exact (if_neg hold).trans (if_pos (by decide))

theorem eq_nil_of_generated {m : UInt64}
    (h : computeNextStakeModifier P H mapBlockIndex p = .ok (m, true)) : p = [] := by
  cases p with
  | nil => rfl
  | cons e p =>
    unfold computeNextStakeModifier at h
    have hthrows : notEnoughConversions "sproutmodifier".toList = true := by decide
    simp only [hthrows, if_true] at h
    split at h
    · cases h
    · split at h
      · cases h
      · split at h <;> cases h

/-- On a chain of which the genesis block has a generated modifier, the next modifier is as it
should be exactly where the last one is kept. Otherwise the rounds select the blocks by their rule,
and the modifier that they make is lost with the exception. -/
theorem computeNextStakeModifier_iff (P : Params) (H : SelectionHash)
    {mapBlockIndex : MapBlockIndex} {p : BlockPtr} (hindexed : Indexed mapBlockIndex p)
    (hgenesis : p.getLast?.any BlockIndex.fStakeModifier = true) :
    (NextModifier P H mapBlockIndex p ↔ KeepsModifier P p) ∧
      (¬KeepsModifier P p → ∃ last ∈ getLastStakeModifier p, ∃ m, Regenerates P H p last.1 m ∧
        ∀ mapBlockIndex', Indexed mapBlockIndex' p →
          newStakeModifier P H mapBlockIndex' p last.1 = some m ∧
          computeNextStakeModifier P H mapBlockIndex' p = .error .runtimeError) := by
  obtain ⟨last, hlast⟩ := Option.isSome_iff_exists.mp (getLastStakeModifier_isSome hgenesis)
  have hne : p ≠ [] := by
    rintro rfl
    cases hgenesis
  obtain ⟨m, hrule, hm⟩ := newStakeModifier_spec (P := P) (H := H) hindexed last.1
  have hthrows : ¬KeepsModifier P p → ∀ mapBlockIndex', Indexed mapBlockIndex' p →
      computeNextStakeModifier P H mapBlockIndex' p = .error .runtimeError := by
    intro hkeeps mapBlockIndex' hindexed'
    refine computeNextStakeModifier_throws hne hlast (fun hrecent => hkeeps ?_)
      (hm mapBlockIndex' hindexed')
    intro last' hlast'
    obtain rfl : last = last' := Option.some.inj (hlast.symm.trans hlast')
    exact hrecent
  refine ⟨⟨fun hnext => ?_, fun hkeeps => ?_⟩, fun hkeeps => ?_⟩
  · by_contra hkeeps
    obtain ⟨_, _, m', fGenerated, _, _, hok, _⟩ := hnext
    rw [hthrows hkeeps mapBlockIndex hindexed] at hok
    cases hok
  · exact ⟨last, hlast, last.1, false, fun h => (Bool.false_ne_true h).elim, fun _ => rfl,
      hkeeps.next hne hlast mapBlockIndex, fun mapBlockIndex' _ =>
        hkeeps.next hne hlast mapBlockIndex'⟩
  · exact ⟨last, hlast, m, hrule, fun mapBlockIndex' hindexed' =>
      ⟨hm mapBlockIndex' hindexed', hthrows hkeeps mapBlockIndex' hindexed'⟩⟩

namespace Sample

/-- The index that holds just the blocks of a chain. -/
def indexOf (p : BlockPtr) : MapBlockIndex := fun hash =>
  p.tails.find? fun q => !q.isEmpty && BlockPtr.hash q == hash

def selectionHash : SelectionHash := fun hashProof nStakeModifier =>
  hashProof + .ofNat 256 nStakeModifier.toNat

def stakeEntry (label nTime : UInt32) (fStakeModifier : Bool) : BlockIndex :=
  let e := entry (block label (.ofNat 256 label.toNat) [])
  { e with
    header := { e.header with nTime := nTime }
    fStakeEntropy := true
    fStakeModifier := fStakeModifier
    hashProof := .ofNat 256 (100 - label.toNat) }

/-- Two blocks after a genesis block, more than a modifier interval apart. -/
def modifierChain : BlockPtr := [stakeEntry 2 1300 false, stakeEntry 1 700 false,
  stakeEntry 0 0 true]

theorem indexed_modifierChain : Indexed (indexOf modifierChain) modifierChain := by
  have htails : ∀ q ∈ modifierChain.tails, q ≠ [] →
      indexOf modifierChain (BlockPtr.hash q) = some q := by decide
  exact fun q hq hne => htails q ((List.mem_tails _ _).mpr hq) hne

end Sample

open Sample in
/-- All three blocks are selected, and the modifier has three bits set, but it is not returned. -/
theorem computeNextStakeModifier_iff_modifierChain :
    newStakeModifier params selectionHash (indexOf modifierChain) modifierChain 0 = some 7 ∧
      NextModifier params selectionHash (indexOf modifierChain) (modifierChain.drop 2) := by
  have hgenesis : Indexed (indexOf modifierChain) (modifierChain.drop 2) := fun q hq hne =>
    indexed_modifierChain q (hq.trans (List.drop_suffix 2 modifierChain)) hne
  refine ⟨by decide, (computeNextStakeModifier_iff params selectionHash hgenesis
    (by decide)).1.mpr fun last hlast => ?_⟩
  obtain rfl : (0, 0) = last := Option.some.inj hlast
  decide

open Sample in
/-- A block that is more than an interval above the genesis block cannot have a successor. -/
theorem computeNextStakeModifier_modifierChain :
    Indexed (indexOf modifierChain) modifierChain ∧
      modifierChain.getLast?.any BlockIndex.fStakeModifier = true ∧
      computeNextStakeModifier params selectionHash (indexOf modifierChain) modifierChain =
        .error .runtimeError ∧
      ¬NextModifier params selectionHash (indexOf modifierChain) modifierChain := by
  have hthrows : computeNextStakeModifier params selectionHash (indexOf modifierChain)
      modifierChain = .error .runtimeError := by
    refine @computeNextStakeModifier_throws params selectionHash (indexOf modifierChain)
      modifierChain (0, 0) 7 ?_ ?_ ?_ ?_ <;> decide
  refine ⟨indexed_modifierChain, by decide, hthrows, ?_⟩
  rintro ⟨_, _, m, fGenerated, _, _, hok, _⟩
  rw [hthrows] at hok
  cases hok

end Beancash
