import Beancash.Script

namespace Beancash

open ByteStream

/-- The loop of `FindAndDelete` from an instruction on, with what it has counted so far. -/
def deleteCount (b : Script) : ℕ → Int32 → Script → Int32 × Script
  | fuel + 1, nFound, pc =>
    if b.isPrefixOf pc then deleteCount b fuel (nFound + 1) (pc.drop b.length)
    else
      match getOp pc with
      | some (_, _, rest) =>
        let found := deleteCount b fuel nFound rest
        (found.1, pc.take (pc.length - rest.length) ++ found.2)
      | none => (nFound, pc)
  | 0, nFound, pc => (nFound, pc)

/-- `FindAndDelete` with its result, and what is left of the script. -/
def Script.findAndDeleteCount (script b : Script) : Int32 × Script :=
  if b.isEmpty then (0, script) else deleteCount b script.length 0 script

theorem snd_deleteCount (b : Script) (fuel : ℕ) (nFound : Int32) (pc : Script) :
    (deleteCount b fuel nFound pc).2 = deleteFrom b fuel pc := by
  induction fuel generalizing nFound pc with
  | zero => rfl
  | succ fuel ih =>
    rw [deleteCount, deleteFrom]
    split
    · exact ih _ _
    · cases getOp pc with
      | none => rfl
      | some op => exact congrArg _ (ih _ _)

theorem Script.snd_findAndDeleteCount (script b : Script) :
    (script.findAndDeleteCount b).2 = script.findAndDelete b := by
  rw [findAndDeleteCount, findAndDelete]
  split
  · rfl
  · exact snd_deleteCount b _ _ _

/-- The script is one instruction and nothing more. -/
def IsOperation (b : Script) : Prop := ∃ opcode vch, getOp b = some (opcode, vch, [])

/-- The instructions of a script as they are written, and what comes after the last one that can be
parsed. -/
inductive Operations : Script → List Script → Script → Prop where
  | nil {tail : Script} (hop : getOp tail = none) : Operations tail [] tail
  | cons {o rest tail : Script} {opcode : UInt8} {vch : List UInt8} {ops : List Script}
      (hop : getOp (o ++ rest) = some (opcode, vch, rest)) (h : Operations rest ops tail) :
      Operations (o ++ rest) (o :: ops) tail

/-- What is meant by `FindAndDelete`: exactly the instructions that are `b` are gone, their number is
returned, and there are no more of them. -/
structure DeletesAll (script b : Script) (ops : List Script) (tail : Script) : Prop where
  left : (script.findAndDeleteCount b).2 = (ops.filter (· ≠ b)).flatten ++ tail
  number : (script.findAndDeleteCount b).1.toInt = ops.count b
  again : (script.findAndDeleteCount b).2.findAndDeleteCount b = (0, (script.findAndDeleteCount b).2)

theorem pushSize_split {opcode : UInt8} {pc rest : Script} {nSize : ℕ}
    (h : (pushSize opcode).run pc = some (nSize, rest)) :
    ∃ field, pc = field ++ rest ∧ ∀ x, (pushSize opcode).run (field ++ x) = some (nSize, x) := by
  have hnumber : ∀ n, (number n).run pc = some (nSize, rest) →
      ∃ field, pc = field ++ rest ∧ ∀ x, (number n).run (field ++ x) = some (nSize, x) := by
    intro n hn
    rw [run_number] at hn
    split at hn
    · rename_i hle
      obtain ⟨rfl, rfl⟩ := Prod.mk.inj (Option.some_injective _ hn)
      have htake : (pc.take n).length = n := by rw [List.length_take, Nat.min_eq_left hle]
      refine ⟨pc.take n, (List.take_append_drop n pc).symm, fun x => ?_⟩
      rw [run_number, List.length_append, htake, if_pos (Nat.le_add_right n _),
        List.take_left' htake, List.drop_left' htake]
    · exact absurd hn (by simp)
  unfold pushSize at h ⊢
  split_ifs at h ⊢
  · obtain ⟨rfl, rfl⟩ := Prod.mk.inj (Option.some_injective _ h)
    exact ⟨[], rfl, fun x => rfl⟩
  · exact hnumber 1 h
  · exact hnumber 2 h
  · exact hnumber 4 h

theorem getOp_split {pc rest : Script} {opcode : UInt8} {vch : List UInt8}
    (h : getOp pc = some (opcode, vch, rest)) :
    ∃ o, pc = o ++ rest ∧ IsOperation o := by
  cases pc with
  | nil => exact absurd h (by simp [getOp])
  | cons code pc =>
    by_cases hle : code ≤ opPushData4
    · rw [getOp, if_pos hle, Option.bind_eq_some_iff] at h
      obtain ⟨⟨nSize, x⟩, hsize, h⟩ := h
      dsimp only at h
      split at h
      · exact absurd h (by simp)
      · rename_i hfits
        obtain ⟨rfl, rfl, rfl⟩ : _ ∧ _ ∧ _ := by simpa using h
        obtain ⟨field, rfl, hfield⟩ := pushSize_split hsize
        have hdata : (x.take nSize).length = nSize := by
          rw [List.length_take]
          omega
        refine ⟨code :: (field ++ x.take nSize), ?_, code, x.take nSize, ?_⟩
        · rw [List.cons_append, List.append_assoc, List.take_append_drop]
        · rw [getOp, if_pos hle, hfield, Option.bind_some]
          dsimp only
          rw [if_neg (by rw [hdata]; omega), List.take_take, min_self,
            List.drop_eq_nil_of_le hdata.le]
    · rw [getOp, if_neg hle] at h
      obtain ⟨rfl, rfl, rfl⟩ : _ ∧ _ ∧ _ := by simpa using h
      refine ⟨[code], rfl, code, [], ?_⟩
      rw [getOp, if_neg hle]

theorem IsOperation.fields {code : UInt8} {b : Script} (hb : IsOperation (code :: b))
    (hle : code ≤ opPushData4) : ∃ field data, b = field ++ data ∧
      ∀ x, (pushSize code).run (field ++ x) = some (data.length, x) := by
  obtain ⟨opcode, vch, hop⟩ := hb
  rw [getOp, if_pos hle, Option.bind_eq_some_iff] at hop
  obtain ⟨⟨nSize, data⟩, hsize, hop⟩ := hop
  dsimp only at hop
  split at hop
  · exact absurd hop (by simp)
  · have hdrop : data.drop nSize = [] := by simpa using congrArg (Option.map (·.2.2)) hop
    have hlen : data.length = nSize := by
      have hle := List.drop_eq_nil_iff.mp hdrop
      omega
    obtain ⟨field, rfl, hfield⟩ := pushSize_split hsize
    exact ⟨field, data, rfl, by rwa [hlen]⟩

theorem IsOperation.ne_nil {b : Script} (hb : IsOperation b) : b ≠ [] := by
  rintro rfl
  obtain ⟨opcode, vch, hop⟩ := hb
  exact absurd hop (by simp [getOp])

theorem IsOperation.eq_of_append_eq {b b' x x' : Script} (hb : IsOperation b) (hb' : IsOperation b')
    (h : b ++ x = b' ++ x') : b = b' ∧ x = x' := by
  cases b with
  | nil => exact absurd rfl hb.ne_nil
  | cons code b =>
    cases b' with
    | nil => exact absurd rfl hb'.ne_nil
    | cons code' b' =>
      rw [List.cons_append, List.cons_append, List.cons.injEq] at h
      obtain ⟨rfl, htail⟩ := h
      by_cases hle : code ≤ opPushData4
      · obtain ⟨field, data, rfl, hfield⟩ := hb.fields hle
        obtain ⟨field', data', rfl, hfield'⟩ := hb'.fields hle
        have hsize := hfield (data ++ x)
        rw [← List.append_assoc, htail, List.append_assoc, hfield', Option.some.injEq,
          Prod.mk.injEq] at hsize
        obtain ⟨rfl, rfl⟩ := List.append_inj hsize.2.symm hsize.1.symm
        rw [List.append_left_inj] at htail
        exact ⟨by rw [htail], rfl⟩
      · obtain ⟨opcode, vch, hop⟩ := hb
        obtain ⟨opcode', vch', hop'⟩ := hb'
        rw [getOp, if_neg hle] at hop hop'
        obtain ⟨-, -, rfl⟩ : _ ∧ _ ∧ _ := by simpa using hop
        obtain ⟨-, -, rfl⟩ : _ ∧ _ ∧ _ := by simpa using hop'
        exact ⟨rfl, htail⟩

theorem eq_of_getOp_append {b x rest : Script} {opcode : UInt8} {vch : List UInt8}
    (hb : IsOperation b) (h : getOp (b ++ x) = some (opcode, vch, rest)) : rest = x := by
  obtain ⟨o, heq, ho⟩ := getOp_split h
  exact (hb.eq_of_append_eq ho heq).2.symm

theorem exists_operations (s : Script) : ∃ ops tail, Operations s ops tail := by
  induction hlen : s.length using Nat.strong_induction_on generalizing s with
  | _ n ih =>
    cases hop : getOp s with
    | none => exact ⟨[], s, .nil hop⟩
    | some op =>
      obtain ⟨opcode, vch, rest⟩ := op
      obtain ⟨o, rfl, -⟩ := getOp_split hop
      obtain ⟨ops, tail, h⟩ := ih rest.length (hlen ▸ (getOp_eq_some hop).2.1) rest rfl
      exact ⟨o :: ops, tail, .cons hop h⟩

theorem IsOperation.eq_of_isPrefixOf {b o x : Script} (hb : IsOperation b) (ho : IsOperation o)
    (h : b.isPrefixOf (o ++ x) = true) : o = b := by
  obtain ⟨y, heq⟩ := List.isPrefixOf_iff_prefix.mp h
  exact (hb.eq_of_append_eq ho heq).1.symm

namespace Operations

variable {b s tail : Script} {ops : List Script}

theorem isOperation (h : Operations s ops tail) : ∀ o ∈ ops, IsOperation o := by
  induction h with
  | nil _ => simp
  | cons hop _ ih =>
    obtain ⟨o, heq, ho⟩ := getOp_split hop
    rw [List.append_cancel_right heq]
    exact List.forall_mem_cons.mpr ⟨ho, ih⟩

theorem getOp_tail (h : Operations s ops tail) : getOp tail = none := by
  induction h with
  | nil hop => exact hop
  | cons _ _ ih => exact ih

theorem length_le (h : Operations s ops tail) : ops.length + tail.length ≤ s.length := by
  induction h with
  | nil _ => simp
  | cons hop _ ih =>
    have hlt := (getOp_eq_some hop).2.1
    rw [List.length_cons]
    omega

end Operations

/-- Up to the end of what can be parsed, the loop takes out and counts the instructions that are `b`. -/
theorem deleteCount_operations {b s tail : Script} {ops : List Script} (hb : IsOperation b)
    (h : Operations s ops tail) {fuel : ℕ} (hfuel : s.length ≤ fuel) (nFound : Int32) :
    ∃ fuel', tail.length ≤ fuel' ∧ deleteCount b fuel nFound s =
      ((deleteCount b fuel' (nFound + .ofNat (ops.count b)) tail).1,
        (ops.filter (· ≠ b)).flatten ++
          (deleteCount b fuel' (nFound + .ofNat (ops.count b)) tail).2) := by
  induction h generalizing fuel nFound with
  | nil hop => exact ⟨fuel, hfuel, by simp⟩
  | @cons o rest tail opcode vch ops hop _ ih =>
    have hlt := (getOp_eq_some hop).2.1
    have ho : IsOperation o := by
      obtain ⟨o', hsplit, ho'⟩ := getOp_split hop
      rwa [List.append_cancel_right hsplit]
    cases fuel with
    | zero => omega
    | succ fuel =>
      have hrest : rest.length ≤ fuel := by omega
      rw [deleteCount]
      by_cases heq : o = b
      · subst heq
        obtain ⟨fuel', hfuel', hcount⟩ := ih hrest (nFound + 1)
        refine ⟨fuel', hfuel', ?_⟩
        have hnumber : nFound + 1 + .ofNat (ops.count o) = nFound + .ofNat (ops.count o + 1) := by
          rw [Int32.ofNat_add, Int32.add_assoc, Int32.add_comm 1]
          rfl
        rw [if_pos (List.isPrefixOf_iff_prefix.mpr (List.prefix_append o rest)), List.drop_left,
          hcount, List.count_cons_self, List.filter_cons_of_neg (by simp), hnumber]
      · obtain ⟨fuel', hfuel', hcount⟩ := ih hrest nFound
        refine ⟨fuel', hfuel', ?_⟩
        have hnot : ¬ b.isPrefixOf (o ++ rest) = true := fun hp => heq (hb.eq_of_isPrefixOf ho hp)
        have htake : (o ++ rest).length - rest.length = o.length := by
          rw [List.length_append, Nat.add_sub_cancel]
        rw [if_neg hnot, hop]
        dsimp only
        rw [hcount, htake, List.take_left, List.count_cons_of_ne heq,
          List.filter_cons_of_pos (by simpa using heq), List.flatten_cons, List.append_assoc]

theorem deleteCount_tail {b tail : Script} (hop : getOp tail = none) (hb : ¬ b <+: tail) (fuel : ℕ)
    (nFound : Int32) : deleteCount b fuel nFound tail = (nFound, tail) := by
  cases fuel with
  | zero => rfl
  | succ fuel =>
    rw [deleteCount, if_neg fun hp => hb (List.isPrefixOf_iff_prefix.mp hp), hop]

theorem length_deleteCount_lt {b pc : Script} (hb : b ≠ []) (hpre : b <+: pc) {fuel : ℕ}
    (hfuel : pc.length ≤ fuel) (nFound : Int32) :
    (deleteCount b fuel nFound pc).2.length < pc.length := by
  have hpos : 0 < b.length := List.length_pos_iff.mpr hb
  have hle := hpre.length_le
  cases fuel with
  | zero => omega
  | succ fuel =>
    have hrest := length_deleteFrom_le b fuel (pc.drop b.length)
    rw [List.length_drop] at hrest
    rw [deleteCount, if_pos (List.isPrefixOf_iff_prefix.mpr hpre), snd_deleteCount]
    omega

/-- Nothing is taken out of instructions that are not `b`, even where they can no more be parsed. -/
theorem deleteCount_kept {b tail : Script} {ops : List Script} (hb : IsOperation b)
    (hops : ∀ o ∈ ops, IsOperation o ∧ o ≠ b) (hop : getOp tail = none) (htail : ¬ b <+: tail)
    (fuel : ℕ) (nFound : Int32) :
    deleteCount b fuel nFound (ops.flatten ++ tail) = (nFound, ops.flatten ++ tail) := by
  induction ops generalizing fuel with
  | nil => exact deleteCount_tail hop htail fuel nFound
  | cons o ops ih =>
    obtain ⟨⟨ho, hne⟩, hrest⟩ := List.forall_mem_cons.mp hops
    rw [List.flatten_cons, List.append_assoc]
    cases fuel with
    | zero => rfl
    | succ fuel =>
      have hnot : ¬ b.isPrefixOf (o ++ (ops.flatten ++ tail)) = true :=
        fun hp => hne (hb.eq_of_isPrefixOf ho hp)
      rw [deleteCount, if_neg hnot]
      cases hget : getOp (o ++ (ops.flatten ++ tail)) with
      | none => rfl
      | some op =>
        obtain ⟨opcode, vch, rest⟩ := op
        obtain rfl := eq_of_getOp_append ho hget
        dsimp only
        rw [ih hrest, List.length_append, Nat.add_sub_cancel, List.take_left]

section

variable {script b tail : Script} {ops : List Script}

theorem findAndDeleteCount_eq (hb : IsOperation b) (script : Script) :
    script.findAndDeleteCount b = deleteCount b script.length 0 script := by
  rw [Script.findAndDeleteCount, if_neg (by simpa using hb.ne_nil)]

theorem deletesAll_of_tail (hb : IsOperation b) (h : Operations script ops tail)
    (htail : ¬ b <+: tail) (hnumber : ops.count b < 2 ^ 31) : DeletesAll script b ops tail := by
  obtain ⟨fuel, -, hcount⟩ := deleteCount_operations hb h le_rfl 0
  rw [deleteCount_tail h.getOp_tail htail, Int32.zero_add] at hcount
  have heq := (findAndDeleteCount_eq hb script).trans hcount
  refine ⟨?_, ?_, ?_⟩
  · rw [heq]
  · rw [heq, ← Int32.ofInt_eq_ofNat, Int32.toInt_ofInt_of_le (by omega) (by omega)]
  · rw [heq, findAndDeleteCount_eq hb]
    apply deleteCount_kept hb _ h.getOp_tail htail
    intro o ho
    obtain ⟨hmem, hne⟩ := List.mem_filter.mp ho
    exact ⟨h.isOperation o hmem, by simpa using hne⟩

theorem tail_of_deletesAll (hb : IsOperation b) (h : Operations script ops tail)
    (hall : DeletesAll script b ops tail) : ¬ b <+: tail ∧ ops.count b < 2 ^ 31 := by
  constructor
  · intro hpre
    obtain ⟨fuel, hfuel, hcount⟩ := deleteCount_operations hb h le_rfl 0
    have hlt := length_deleteCount_lt hb.ne_nil hpre hfuel (0 + .ofNat (ops.count b))
    have hleft := hall.left
    rw [findAndDeleteCount_eq hb, hcount, List.append_right_inj] at hleft
    rw [hleft] at hlt
    exact absurd hlt (lt_irrefl _)
  · have hlt := (script.findAndDeleteCount b).1.toInt_lt
    rw [hall.number] at hlt
    exact_mod_cast hlt

end

theorem IsOperation.getOp_append {b x : Script} (hb : IsOperation b)
    (h : (b ++ x).length < 2 ^ 32) : getOp (b ++ x) ≠ none := by
  cases b with
  | nil => exact absurd rfl hb.ne_nil
  | cons code b =>
    rw [List.cons_append, getOp]
    by_cases hle : code ≤ opPushData4
    · obtain ⟨field, data, rfl, hfield⟩ := hb.fields hle
      have hfits : ¬ (data ++ x).length % 2 ^ 32 < data.length := by
        simp only [List.length_append, List.length_cons] at h ⊢
        omega
      rw [if_pos hle, List.append_assoc, hfield, Option.bind_some]
      dsimp only
      rw [if_neg hfits]
      simp
    · rw [if_neg hle]
      simp

/-- `FindAndDelete` takes out exactly the instructions that are `b`, unless what cannot be parsed
starts with `b` or the counter wraps. Both take a script of `2 ^ 31` bytes or more. -/
theorem findAndDelete_iff (script b : Script) (hb : IsOperation b) :
    (∃ ops tail, Operations script ops tail) ∧
      ∀ ops tail, Operations script ops tail →
        (DeletesAll script b ops tail ↔ ¬ b <+: tail ∧ ops.count b < 2 ^ 31) ∧
          (script.length < 2 ^ 31 → ¬ b <+: tail ∧ ops.count b < 2 ^ 31) := by
  refine ⟨exists_operations script, fun ops tail h => ⟨⟨tail_of_deletesAll hb h, ?_⟩, ?_⟩⟩
  · rintro ⟨htail, hnumber⟩
    exact deletesAll_of_tail hb h htail hnumber
  · intro hlen
    have hle := h.length_le
    constructor
    · rintro ⟨x, rfl⟩
      exact hb.getOp_append (by omega) h.getOp_tail
    · have hcount : ops.count b ≤ ops.length := List.count_le_length
      omega

theorem findAndDelete_iff_pushed :
    (∃ ops tail, Operations [0x51, 1, 7, 1, 7, 2, 1] ops tail) ∧
      ∀ ops tail, Operations [0x51, 1, 7, 1, 7, 2, 1] ops tail →
        (DeletesAll [0x51, 1, 7, 1, 7, 2, 1] [1, 7] ops tail ↔
          ¬ [1, 7] <+: tail ∧ ops.count [1, 7] < 2 ^ 31) ∧
          ([0x51, 1, 7, 1, 7, 2, 1].length < 2 ^ 31 →
            ¬ [1, 7] <+: tail ∧ ops.count [1, 7] < 2 ^ 31) :=
  findAndDelete_iff [0x51, 1, 7, 1, 7, 2, 1] [1, 7] ⟨1, [7], rfl⟩

example : Script.findAndDeleteCount [0x51, 1, 7, 1, 7, 2, 1] [1, 7] = (2, [0x51, 2, 1]) := by decide

/-- What follows the operation that is looked for. -/
def Sample.longTail : Script := List.replicate (2 ^ 32 - 1) 0

/-- With `2 ^ 32` bytes behind its opcode a push is not parsed, but found and deleted all the same. -/
theorem findAndDelete_wrapped :
    IsOperation [1, 0] ∧
      Operations (1 :: 0 :: Sample.longTail) [] (1 :: 0 :: Sample.longTail) ∧
      ¬DeletesAll (1 :: 0 :: Sample.longTail) [1, 0] [] (1 :: 0 :: Sample.longTail) := by
  have hb : IsOperation [1, 0] := ⟨1, [0], rfl⟩
  have hop : getOp (1 :: 0 :: Sample.longTail) = none := by
    have hsize : ∀ pc, (pushSize 1).run pc = some (1, pc) := fun pc => rfl
    have hwraps : (0 :: Sample.longTail).length % 2 ^ 32 < 1 := by
      rw [List.length_cons, Sample.longTail, List.length_replicate]
      decide
    rw [getOp, if_pos (by decide), hsize, Option.bind_some]
    dsimp only
    rw [if_pos hwraps]
  exact ⟨hb, .nil hop, fun hall =>
    (tail_of_deletesAll hb (.nil hop) hall).1 (List.prefix_append [1, 0] Sample.longTail)⟩

end Beancash
