import Beancash.ScriptPushes

namespace Beancash

open ByteStream

/-- What `HasCanonicalPushes` asks of an operation. -/
def isCanonicalPush (opcode : UInt8) (data : List UInt8) : Bool :=
  if op16 < opcode then true
  -- Could have used an OP_n code, rather than a 1-byte push.
  else if opcode < opPushData1 ∧ 0 < opcode ∧ data.length = 1 ∧ data.headD 0 ≤ 16 then false
  -- Could have used a normal n-byte push, rather than OP_PUSHDATA1.
  else if opcode = opPushData1 ∧ data.length < 0x4c then false
  -- Could have used an OP_PUSHDATA1.
  else if opcode = opPushData2 ∧ data.length ≤ 0xff then false
  -- Could have used an OP_PUSHDATA2.
  else if opcode = opPushData4 ∧ data.length ≤ 0xffff then false
  else true

/-- The loop of `HasCanonicalPushes`. Each round takes off at least a byte. -/
def canonicalPushesFrom : ℕ → Script → Bool
  | fuel + 1, pc =>
    if pc = [] then true
    else
      match getOp pc with
      | none => false
      | some (opcode, data, pc) => isCanonicalPush opcode data && canonicalPushesFrom fuel pc
  | 0, _ => true

def Script.hasCanonicalPushes (script : Script) : Bool :=
  canonicalPushesFrom script.length script

theorem canonicalPushesFrom_iff {fuel : ℕ} {pc : Script} (hfuel : pc.length ≤ fuel) :
    canonicalPushesFrom fuel pc = true ↔
      ∃ l, Parses pc l ∧ ∀ i ∈ l, isCanonicalPush i.1 i.2 = true := by
  induction fuel generalizing pc with
  | zero =>
    obtain rfl := List.length_eq_zero_iff.mp (Nat.le_zero.mp hfuel)
    exact iff_of_true rfl ⟨[], .nil, fun i hi => absurd hi List.not_mem_nil⟩
  | succ fuel ih =>
    by_cases hend : pc = []
    · obtain rfl := hend
      exact iff_of_true rfl ⟨[], .nil, fun i hi => absurd hi List.not_mem_nil⟩
    rw [canonicalPushesFrom, if_neg hend]
    cases hop : getOp pc with
    | none =>
      refine iff_of_false Bool.false_ne_true ?_
      rintro ⟨l, hparses, -⟩
      cases hparses with
      | nil => exact hend rfl
      | cons hread _ =>
        rw [hop] at hread
        cases hread
    | some r =>
      obtain ⟨opcode, data, rest⟩ := r
      obtain ⟨-, hlen, -⟩ := getOp_eq_some hop
      dsimp only
      rw [Bool.and_eq_true_iff, ih (by omega)]
      constructor
      · rintro ⟨hcheck, l, hparses, hl⟩
        exact ⟨(opcode, data) :: l, .cons hop hparses, List.forall_mem_cons.mpr ⟨hcheck, hl⟩⟩
      · rintro ⟨l, hparses, hl⟩
        cases hparses with
        | nil => exact absurd rfl hend
        | cons hread hrest =>
          rw [hop] at hread
          cases hread
          obtain ⟨hcheck, hl⟩ := List.forall_mem_cons.mp hl
          exact ⟨hcheck, _, hrest, hl⟩

/-- The least size for which an operation is needed. -/
def PushWidth.least : PushWidth → ℕ
  | .one => 0x4c
  | .two => 0x100
  | .four => 0x10000

namespace PushOp

def instruction (p : PushOp) : Instruction := (p.opcode, p.operand)

/-- No operation that pushes the same is shorter. -/
def Shortest (p : PushOp) : Prop :=
  ∀ q : PushOp, q.data = p.data → p.encode.length ≤ q.encode.length

theorem signedVch_small {n : ℕ} (hpos : 1 ≤ n) (hle : n ≤ 16) : signedVch n = [.ofNat n] := by
  have hall : ((List.range 17).all fun n => n == 0 || signedVch n == [.ofNat n]) = true := by
    decide
  have hn := List.all_eq_true.mp hall n (List.mem_range.mpr (by omega))
  rw [beq_eq_false_iff_ne.mpr (show n ≠ 0 by omega), Bool.false_or] at hn
  exact eq_of_beq hn

theorem toNat_of_singleton {c : UInt8} {n : ℕ} (hle : n ≤ 16) (h : [c] = [.ofNat n]) :
    c.toNat = n := by
  rw [(List.cons.inj h).1, toNat_ofNat_direct (by omega)]

theorem length_encode (p : PushOp) :
    p.encode.length = 1 + p.size.length + p.operand.length := by
  rw [encode, List.length_cons, List.length_append]
  omega

theorem length_encode_pushData {width : PushWidth} {b : List UInt8}
    (hb : b.length < 256 ^ width.bytes) :
    (pushData width b hb).encode.length = 1 + width.bytes + b.length := by
  rw [length_encode, size, length_littleEndian, operand]

theorem shortest_small {n : ℕ} (hpos : 1 ≤ n) (hle : n ≤ 16) : (small n hpos hle).Shortest :=
  fun q _ => Nat.succ_le_succ (Nat.zero_le (q.size ++ q.operand).length)

theorem shortest_direct_iff {b : List UInt8} (hb : b.length < 0x4c) :
    (direct b hb).Shortest ↔ ∀ n, 1 ≤ n → n ≤ 16 → b ≠ [.ofNat n] := by
  constructor
  · rintro h n hpos hle rfl
    have hlen := h (small n hpos hle) (signedVch_small hpos hle)
    exact absurd hlen (by decide : ¬2 ≤ 1)
  · intro h q hq
    rw [length_encode (direct b hb)]
    cases q with
    | small n hpos hle =>
      have hdata : b = signedVch n := hq.symm
      rw [signedVch_small hpos hle] at hdata
      exact absurd hdata (h n hpos hle)
    | direct b' hb' =>
      obtain rfl : b' = b := hq
      exact (length_encode _).ge
    | pushData width b' hb' =>
      obtain rfl : b' = b := hq
      rw [length_encode_pushData]
      change 1 + 0 + b'.length ≤ _
      omega

theorem length_encode_ofBytes {b : List UInt8} (hb : b.length < 2 ^ 32) :
    (ofBytes b hb).encode.length =
      1 + (if b.length < 0x4c then 0 else if b.length ≤ 0xff then 1
        else if b.length ≤ 0xffff then 2 else 4) + b.length := by
  rw [length_encode, operand_ofBytes]
  unfold ofBytes
  split_ifs <;> rfl

/-- A push that spells out the size is the shortest if no smaller number holds the size. -/
theorem shortest_pushData_iff {width : PushWidth} {b : List UInt8}
    (hb : b.length < 256 ^ width.bytes) :
    (pushData width b hb).Shortest ↔ width.least ≤ b.length := by
  constructor
  · intro h
    by_contra hlt
    have hwidth : 256 ^ width.bytes ≤ 2 ^ 32 := by
      cases width <;> decide
    have hlen := h (ofBytes b (hb.trans_le hwidth)) (data_ofBytes _)
    rw [length_encode_pushData, length_encode_ofBytes] at hlen
    cases width <;> simp only [PushWidth.least, PushWidth.bytes] at hlt hlen <;>
      split_ifs at hlen <;> omega
  · intro h q hq
    rw [length_encode_pushData]
    cases q with
    | small n hpos hle =>
      have hdata : b = signedVch n := hq.symm
      rw [signedVch_small hpos hle] at hdata
      rw [hdata, List.length_singleton] at h
      cases width <;> exact absurd h (by decide)
    | direct b' hb' =>
      obtain rfl : b' = b := hq
      cases width <;> simp only [PushWidth.least] at h <;> omega
    | pushData width' b' hb' =>
      obtain rfl : b' = b := hq
      rw [length_encode_pushData]
      cases width <;> cases width' <;> simp only [PushWidth.least, PushWidth.bytes] at * <;> omega

theorem byte_le {c : UInt8} (hle : c ≤ 16) (hne : c ≠ 0) :
    ∃ n, 1 ≤ n ∧ n ≤ 16 ∧ c = .ofNat n := by
  have hle : c.toNat ≤ 16 := UInt8.le_iff_toNat_le.mp hle
  have hpos : c.toNat ≠ 0 := fun h => hne (UInt8.toNat_inj.mp h)
  exact ⟨c.toNat, by omega, hle, UInt8.ofNat_toNat.symm⟩

theorem isCanonicalPush_opcode {opcode : UInt8} {vch : List UInt8} (h : ¬opcode ≤ opPushData4) :
    isCanonicalPush opcode vch = true := by
  have hlt : opPushData4 < opcode := UInt8.not_le.mp h
  have hne : ∀ code ≤ opPushData4, opcode ≠ code := by
    rintro code hle rfl
    exact h hle
  rw [isCanonicalPush]
  by_cases hop16 : op16 < opcode
  · exact if_pos hop16
  · rw [if_neg hop16, if_neg (fun h => UInt8.not_lt.mpr (UInt8.le_of_lt hlt)
      (UInt8.lt_trans h.1 (by decide))), if_neg (fun h => hne opPushData1 (by decide) h.1),
      if_neg (fun h => hne opPushData2 (by decide) h.1),
      if_neg (fun h => hne opPushData4 (by decide) h.1)]

theorem isCanonicalPush_direct {b : List UInt8} (hb : b.length < 0x4c) :
    isCanonicalPush (.ofNat b.length) b = true ↔ ∀ c ≤ 16, b ≠ [c] := by
  have hlt := ofNat_lt_pushData1 hb
  have hop16 : ¬op16 < UInt8.ofNat b.length :=
    UInt8.not_lt.mpr (UInt8.le_trans (ofNat_le_pushData4 hb) (by decide))
  have hne : ∀ opcode, opPushData1 ≤ opcode → UInt8.ofNat b.length ≠ opcode := by
    rintro opcode hle rfl
    exact UInt8.not_lt.mpr hle hlt
  rw [isCanonicalPush, if_neg hop16]
  by_cases h : UInt8.ofNat b.length < opPushData1 ∧ 0 < UInt8.ofNat b.length ∧ b.length = 1 ∧
    b.headD 0 ≤ 16
  · rw [if_pos h]
    obtain ⟨-, -, hlen, hle⟩ := h
    obtain ⟨c, rfl⟩ := List.length_eq_one_iff.mp hlen
    exact iff_of_false Bool.false_ne_true fun hall => hall c hle rfl
  · rw [if_neg h, if_neg (fun h => hne opPushData1 (by decide) h.1),
      if_neg (fun h => hne opPushData2 (by decide) h.1),
      if_neg (fun h => hne opPushData4 (by decide) h.1)]
    refine iff_of_true rfl ?_
    rintro c hle rfl
    exact h ⟨hlt, (by decide : (0 : UInt8) < 1), rfl, hle⟩

theorem isCanonicalPush_pushData (width : PushWidth) (b : List UInt8) :
    isCanonicalPush width.opcode b = true ↔ width.least ≤ b.length := by
  cases width with
  | one => simp [isCanonicalPush, PushWidth.opcode, PushWidth.least, opPushData1, opPushData2,
      opPushData4, op16]
  | two =>
    simp [isCanonicalPush, PushWidth.opcode, PushWidth.least, opPushData1, opPushData2, opPushData4,
      op16]
    exact Iff.rfl
  | four =>
    simp [isCanonicalPush, PushWidth.opcode, PushWidth.least, opPushData1, opPushData2, opPushData4,
      op16]
    exact Iff.rfl

theorem isCanonicalPush_pushOpcode {b : List UInt8} (h : ∀ c ≤ 16, b ≠ [c]) :
    isCanonicalPush (BuildOp.pushOpcode b) b = true := by
  unfold BuildOp.pushOpcode
  split_ifs with hdirect hone htwo
  · exact (isCanonicalPush_direct hdirect).mpr h
  · exact (isCanonicalPush_pushData .one b).mpr (Nat.not_lt.mp hdirect)
  · exact (isCanonicalPush_pushData .two b).mpr (Nat.lt_of_not_le hone)
  · exact (isCanonicalPush_pushData .four b).mpr (Nat.lt_of_not_le htwo)

/-- The check asks for the shortest operation, and refuses the direct push of the byte 0. -/
theorem isCanonicalPush_iff (p : PushOp) :
    isCanonicalPush p.opcode p.operand = true ↔ p.Shortest ∧ p.instruction ≠ (1, [0]) := by
  cases p with
  | small n hpos hle =>
    refine iff_of_true ?_ ⟨shortest_small hpos hle, ?_⟩
    · exact isCanonicalPush_opcode (not_ofNat_le hle)
    · intro h
      exact absurd (congrArg Prod.snd h) (List.cons_ne_nil _ _).symm
  | direct b hb =>
    rw [shortest_direct_iff, opcode, operand, isCanonicalPush_direct hb]
    constructor
    · intro h
      refine ⟨?_, ?_⟩
      · rintro n hpos hle rfl
        exact h _ (UInt8.le_iff_toNat_le.mpr ((toNat_ofNat_direct (by omega)).trans_le hle)) rfl
      · intro h0
        exact h 0 (by decide) (congrArg Prod.snd h0)
    · rintro ⟨hsmall, hne⟩ c hle rfl
      by_cases hc : c = 0
      · rw [hc] at hne
        exact hne rfl
      · obtain ⟨n, hpos, hn, rfl⟩ := byte_le hle hc
        exact hsmall n hpos hn rfl
  | pushData width b hb =>
    have hne : (pushData width b hb).instruction ≠ (1, [0]) := by
      intro h
      have hopcode : width.opcode = 1 := congrArg Prod.fst h
      cases width <;> exact absurd hopcode (by decide)
    rw [shortest_pushData_iff, and_iff_left hne]
    exact isCanonicalPush_pushData width b

end PushOp

theorem littleEndian_ofLittleEndian (vch : List UInt8) :
    littleEndian vch.length (ofLittleEndian vch) = vch := by
  induction vch with
  | nil => rfl
  | cons b vch ih =>
    have hb := b.toNat_lt
    have hbyte : UInt8.ofNat (b.toNat + 256 * ofLittleEndian vch) = b := by
      apply UInt8.toNat_inj.mp
      rw [UInt8.toNat_ofNat']
      omega
    have hrest : (b.toNat + 256 * ofLittleEndian vch) / 256 = ofLittleEndian vch := by omega
    rw [List.length_cons, ofLittleEndian, littleEndian, hbyte, hrest, ih]

theorem eq_of_getOp {code opcode : UInt8} (hle : code ≤ opPushData4) {pc pc' rest : Script} {n : ℕ}
    {vch : List UInt8} (hsize : (pushSize code).run pc = some (n, pc'))
    (h : getOp (code :: pc) = some (opcode, vch, rest)) :
    code = opcode ∧ vch.length = n ∧ pc' = vch ++ rest := by
  rw [getOp_of_pushSize hle hsize] at h
  split_ifs at h with hlen
  cases h
  have hmod := Nat.mod_le pc'.length (2 ^ 32)
  exact ⟨rfl, List.length_take_of_le (by omega), (List.take_append_drop n pc').symm⟩

theorem exists_width {code : UInt8} (hle : code ≤ opPushData4) (hdirect : ¬code < opPushData1) :
    ∃ width : PushWidth, width.opcode = code := by
  rw [UInt8.le_iff_toNat_le] at hle
  rw [UInt8.lt_iff_toNat_lt] at hdirect
  change code.toNat ≤ 0x4e at hle
  change ¬code.toNat < 0x4c at hdirect
  have hcases : code.toNat = opPushData1.toNat ∨ code.toNat = opPushData2.toNat ∨
      code.toNat = opPushData4.toNat := by
    change code.toNat = 0x4c ∨ code.toNat = 0x4d ∨ code.toNat = 0x4e
    omega
  simp only [UInt8.toNat_inj] at hcases
  rcases hcases with rfl | rfl | rfl
  · exact ⟨.one, rfl⟩
  · exact ⟨.two, rfl⟩
  · exact ⟨.four, rfl⟩

section Read

variable {pc rest : Script} {opcode : UInt8} {vch : List UInt8}

theorem exists_direct {code : UInt8} (hdirect : code < opPushData1)
    (h : getOp (code :: pc) = some (opcode, vch, rest)) :
    ∃ p : PushOp, p.instruction = (opcode, vch) ∧ code :: pc = p.encode ++ rest := by
  have hle : code ≤ opPushData4 := UInt8.le_of_lt (UInt8.lt_trans hdirect (by decide))
  have hsize : (pushSize code).run pc = some (code.toNat, pc) := by
    rw [pushSize, if_pos hdirect]
    rfl
  obtain ⟨rfl, hlen, rfl⟩ := eq_of_getOp hle hsize h
  have hb : vch.length < 0x4c := hlen ▸ UInt8.lt_iff_toNat_lt.mp hdirect
  have hcode : UInt8.ofNat vch.length = code := by rw [hlen, UInt8.ofNat_toNat]
  exact ⟨.direct vch hb, Prod.ext hcode rfl, congrArg (· :: (vch ++ rest)) hcode.symm⟩

theorem exists_pushData {width : PushWidth}
    (h : getOp (width.opcode :: pc) = some (opcode, vch, rest)) :
    ∃ p : PushOp, p.instruction = (opcode, vch) ∧ width.opcode :: pc = p.encode ++ rest := by
  have hnumber : (pushSize width.opcode).run pc = if width.bytes ≤ pc.length then
      some (ofLittleEndian (pc.take width.bytes), pc.drop width.bytes) else none := by
    rw [width.pushSize_opcode, run_number]
  by_cases hbytes : width.bytes ≤ pc.length
  · rw [if_pos hbytes] at hnumber
    obtain ⟨rfl, hlen, hrest⟩ := eq_of_getOp width.opcode_le hnumber h
    have htake : (pc.take width.bytes).length = width.bytes := List.length_take_of_le hbytes
    have hb : vch.length < 256 ^ width.bytes := by
      have hlt := ofLittleEndian_lt (pc.take width.bytes)
      rwa [← hlen, htake] at hlt
    have hsize : littleEndian width.bytes vch.length = pc.take width.bytes := by
      have hinverse := littleEndian_ofLittleEndian (pc.take width.bytes)
      rwa [htake, ← hlen] at hinverse
    refine ⟨.pushData width vch hb, rfl, congrArg (width.opcode :: ·) ?_⟩
    change pc = littleEndian width.bytes vch.length ++ vch ++ rest
    rw [hsize, List.append_assoc, ← hrest, List.take_append_drop]
  · rw [if_neg hbytes] at hnumber
    rw [getOp, if_pos width.opcode_le, hnumber] at h
    cases h

theorem exists_small (hlo : op1 ≤ opcode) (hhi : opcode ≤ op16) :
    ∃ p : PushOp, p.instruction = (opcode, []) ∧ opcode :: rest = p.encode ++ rest := by
  rw [UInt8.le_iff_toNat_le] at hlo hhi
  change 0x51 ≤ opcode.toNat at hlo
  change opcode.toNat ≤ 0x60 at hhi
  have hcode : UInt8.ofNat (opcode.toNat - 0x50 + 0x50) = opcode := by
    rw [Nat.sub_add_cancel (by omega), UInt8.ofNat_toNat]
  exact ⟨.small (opcode.toNat - 0x50) (by omega) (by omega), Prod.ext hcode rfl,
    congrArg (· :: rest) hcode.symm⟩

/-- What an instruction up to `OP_16` was read from is a push operation, except for `OP_1NEGATE` and
`OP_RESERVED`. -/
theorem exists_pushOp (h : getOp pc = some (opcode, vch, rest))
    (hpush : opcode ≤ opPushData4 ∨ op1 ≤ opcode ∧ opcode ≤ op16) :
    ∃ p : PushOp, p.instruction = (opcode, vch) ∧ pc = p.encode ++ rest := by
  cases pc with
  | nil => cases h
  | cons code pc =>
    by_cases hle : code ≤ opPushData4
    · by_cases hdirect : code < opPushData1
      · exact exists_direct hdirect h
      · obtain ⟨width, rfl⟩ := exists_width hle hdirect
        exact exists_pushData h
    · rw [getOp_opcode hle] at h
      cases h
      obtain ⟨hlo, hhi⟩ := hpush.resolve_left hle
      exact exists_small hlo hhi

end Read

/-- The script can be read to its end, and each push is the shortest. -/
def Script.PushesShortest (script : Script) : Prop :=
  ∃ l, Parses script l ∧ ∀ i ∈ l, ∀ p : PushOp, p.instruction = i → p.Shortest

theorem isCanonicalPush_iff_forall {pc rest : Script} {i : Instruction}
    (h : getOp pc = some (i.1, i.2, rest)) : isCanonicalPush i.1 i.2 = true ↔
      (∀ p : PushOp, p.instruction = i → p.Shortest) ∧ i ≠ (1, [0]) := by
  constructor
  · intro hcheck
    refine ⟨?_, ?_⟩
    · rintro p rfl
      exact (p.isCanonicalPush_iff.mp hcheck).1
    · rintro rfl
      exact absurd hcheck (by decide)
  · rintro ⟨hshortest, hne⟩
    by_cases hpush : i.1 ≤ opPushData4 ∨ op1 ≤ i.1 ∧ i.1 ≤ op16
    · obtain ⟨p, hp, -⟩ := exists_pushOp h hpush
      obtain rfl : p.instruction = i := hp
      exact p.isCanonicalPush_iff.mpr ⟨hshortest p rfl, hne⟩
    · exact PushOp.isCanonicalPush_opcode fun hle => hpush (.inl hle)

theorem hasCanonicalPushes_iff_parses (script : Script) : script.hasCanonicalPushes = true ↔
    ∃ l, Parses script l ∧ (∀ i ∈ l, ∀ p : PushOp, p.instruction = i → p.Shortest) ∧
      (1, [0]) ∉ l := by
  rw [Script.hasCanonicalPushes, canonicalPushesFrom_iff le_rfl]
  refine exists_congr fun l => and_congr_right fun hparses => ?_
  have hcheck : ∀ i ∈ l, isCanonicalPush i.1 i.2 = true ↔
      (∀ p : PushOp, p.instruction = i → p.Shortest) ∧ i ≠ (1, [0]) := by
    intro i hi
    obtain ⟨_, _, hop⟩ := hparses.exists_getOp hi
    exact isCanonicalPush_iff_forall hop
  rw [forall₂_congr hcheck]
  constructor
  · intro h
    exact ⟨fun i hi => (h i hi).1, fun hi => (h _ hi).2 rfl⟩
  · rintro ⟨hshortest, hzero⟩ i hi
    exact ⟨hshortest i hi, fun heq => hzero (heq ▸ hi)⟩

/-- The check is true of a script exactly when it can be read to its end and each push is the
shortest, unless it has a direct push of the byte 0 and would be one of these. Of the byte strings
that no `OP_n` pushes this is the only one that is refused. -/
theorem hasCanonicalPushes_iff (script : Script) (fLong : Bool)
    (strs : List {b : List UInt8 // b.length < 2 ^ 32}) :
    ((script.hasCanonicalPushes = true ↔ script.PushesShortest) ↔
      ¬∃ l, Parses script l ∧ (∀ i ∈ l, ∀ p : PushOp, p.instruction = i → p.Shortest) ∧
        (1, [0]) ∈ l) ∧
      ((∀ b ∈ strs, ∀ n : ℕ, 1 ≤ n → n ≤ 16 → b.1 ≠ signedVch n) →
        ((buildScript fLong (strs.map fun b => .bytes b.1 b.2)).hasCanonicalPushes = true ↔
          Measured fLong (strs.map fun b => .bytes b.1 b.2) ∧ ∀ b ∈ strs, b.1 ≠ [0])) := by
  refine ⟨?_, fun hstrs => ?_⟩
  · rw [hasCanonicalPushes_iff_parses, Script.PushesShortest]
    constructor
    · rintro hiff ⟨l, hparses, hshortest, hzero⟩
      obtain ⟨l', hparses', -, hzero'⟩ := hiff.mpr ⟨l, hparses, hshortest⟩
      exact hzero' (hparses.inj hparses' ▸ hzero)
    · intro hno
      constructor
      · rintro ⟨l, hparses, hshortest, -⟩
        exact ⟨l, hparses, hshortest⟩
      · rintro ⟨l, hparses, hshortest⟩
        exact ⟨l, hparses, hshortest, fun hzero => hno ⟨l, hparses, hshortest, hzero⟩⟩
  · rw [Script.hasCanonicalPushes, canonicalPushesFrom_iff le_rfl]
    constructor
    · rintro ⟨l, hparses, hcheck⟩
      obtain ⟨rfl, hmeasured⟩ := eq_of_parses_buildScript hparses
      rw [List.map_map] at hcheck
      refine ⟨hmeasured, fun b hb hzero => ?_⟩
      have hfalse := hcheck _ (List.mem_map_of_mem hb)
      change isCanonicalPush (BuildOp.pushOpcode b.1) b.1 = true at hfalse
      rw [hzero] at hfalse
      exact absurd hfalse (by decide)
    · rintro ⟨hmeasured, hne⟩
      refine ⟨_, parses_buildScript hmeasured, ?_⟩
      rw [List.map_map, List.forall_mem_map]
      intro b hb
      refine PushOp.isCanonicalPush_pushOpcode fun c hle heq => ?_
      by_cases hc : c = 0
      · exact hne b hb (hc ▸ heq)
      · obtain ⟨n, hpos, hn, rfl⟩ := PushOp.byte_le hle hc
        exact hstrs b hb n hpos hn (heq.trans (PushOp.signedVch_small hpos hn).symm)

theorem hasCanonicalPushes_iff_seventeen :
    (buildScript true [.bytes [17] (by decide), .bytes [] (by decide)]).hasCanonicalPushes =
      true := by
  refine ((hasCanonicalPushes_iff [] true [⟨[17], by decide⟩, ⟨[], by decide⟩]).2 ?_).mpr
    ⟨measured_of_length_lt (by decide), ?_⟩
  · intro b hb n hpos hle hn
    rw [PushOp.signedVch_small hpos hle] at hn
    rcases List.mem_pair.mp hb with rfl | rfl
    · have hbyte := PushOp.toNat_of_singleton hle hn
      change 17 = n at hbyte
      omega
    · cases hn
  · intro b hb
    rcases List.mem_pair.mp hb with rfl | rfl
    · decide
    · decide

/-- The byte 0 pushed directly. `OP_0` pushes no bytes, so that there is nothing shorter. -/
theorem hasCanonicalPushes_zero :
    Script.hasCanonicalPushes [1, 0] = false ∧ Script.PushesShortest [1, 0] := by
  have hop : getOp [1, 0] = some (1, [0], []) := by decide
  refine ⟨by decide, [(1, [0])], .cons hop .nil, ?_⟩
  rintro i hi p hp
  rw [List.mem_singleton.mp hi] at hp
  cases p with
  | small n hpos hle => exact PushOp.shortest_small hpos hle
  | direct b hb =>
    obtain rfl : b = [0] := congrArg Prod.snd hp
    rw [PushOp.shortest_direct_iff]
    intro n hpos hle heq
    have hbyte := PushOp.toNat_of_singleton hle heq
    change 0 = n at hbyte
    omega
  | pushData width b hb =>
    have hopcode : width.opcode = 1 := congrArg Prod.fst hp
    cases width <;> exact absurd hopcode (by decide)

end Beancash
