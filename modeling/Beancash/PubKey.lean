import Beancash.SerializeSpec

namespace Beancash

open ByteStream

structure PubKey where
  vch : List UInt8
  length_vch : vch.length = 65
  deriving DecidableEq

namespace PubKey

/-- The length of a public key with a given first byte. -/
def getLen (chHeader : UInt8) : ℕ :=
  if chHeader = 2 ∨ chHeader = 3 then 33
  else if chHeader = 4 ∨ chHeader = 6 ∨ chHeader = 7 then 65
  else 0

def header (k : PubKey) : UInt8 := k.vch.headD 0

def size (k : PubKey) : ℕ := getLen k.header

def isValid (k : PubKey) : Bool := 0 < k.size

/-- What is copied to the front of the buffer; the rest of it stays. -/
def overwrite (k : PubKey) (data : List UInt8) : PubKey where
  vch := (data ++ k.vch.drop data.length).take 65
  length_vch := by
    rw [List.length_take, List.length_append, List.length_drop, k.length_vch]
    omega

def invalidate (k : PubKey) : PubKey := k.overwrite [0xFF]

/-- `operator==`, the second part of which is a `memcmp`. -/
instance instBEqPubKey : BEq PubKey where
  beq a b := a.header == b.header && a.vch.take a.size == b.vch.take a.size

def serialize (k : PubKey) : List UInt8 := writeCompactSize k.size ++ k.vch.take k.size

/-- `Unserialize` into a key that may hold another one. -/
def unserialize (k : PubKey) : Read PubKey := do
  let len ← readCompactSize
  if len ≤ 65 then
    let data ← take len
    pure (k.overwrite data)
  else
    -- the bytes that are skipped are read one by one
    let _ ← many (take 1) len
    pure k.invalidate

/-- After `Unserialize` the target is invalid or is written as the bytes that were read. -/
def WritesBack (bytes : List UInt8) (k : PubKey) : Prop :=
  ∀ k' consumed rest, bytes = consumed ++ rest → (unserialize k).run bytes = some (k', rest) →
    k'.isValid = false ∨ k'.serialize = consumed

/-- The size in front is the one that goes with the first byte of the key, and is a single byte. A
size of zero is fine for a target without a key. -/
def PlainKey (bytes : List UInt8) (k : PubKey) : Prop :=
  ∀ len rest, readCompactSize.run bytes = some (len, rest) → len ≤ 65 → len ≤ rest.length →
    (len = 0 ∧ k.isValid = false) ∨
      (0 < len ∧ (getLen (rest.headD 0) = 0 ∨
        getLen (rest.headD 0) = len ∧ bytes.length = rest.length + 1))

theorem getLen_le (chHeader : UInt8) : getLen chHeader ≤ 65 := by
  rw [getLen]
  split_ifs <;> decide

theorem isValid_eq_false_iff {k : PubKey} : k.isValid = false ↔ k.size = 0 := by
  simp [isValid]

@[simp] theorem overwrite_nil (k : PubKey) : k.overwrite [] = k := by
  cases k with
  | mk vch hlen => simp [overwrite, ← hlen]

theorem vch_overwrite {k : PubKey} {data : List UInt8} (h : data.length ≤ 65) :
    (k.overwrite data).vch = data ++ k.vch.drop data.length := by
  rw [overwrite]
  apply List.take_of_length_le
  rw [List.length_append, List.length_drop, k.length_vch]
  omega

theorem header_overwrite {k : PubKey} {data : List UInt8} (h : data.length ≤ 65) (hne : data ≠ []) :
    (k.overwrite data).header = data.headD 0 := by
  rw [header, vch_overwrite h]
  cases data with
  | nil => exact absurd rfl hne
  | cons b data => rfl

theorem length_take_size (k : PubKey) : (k.vch.take k.size).length = k.size := by
  have hle : k.size ≤ 65 := getLen_le _
  rw [List.length_take, k.length_vch, Nat.min_eq_left hle]

theorem headD_take {k : PubKey} {n : ℕ} (h : 0 < n) : (k.vch.take n).headD 0 = k.header := by
  rw [header]
  cases k.vch with
  | nil => rw [List.take_nil]
  | cons b vch =>
    obtain ⟨m, rfl⟩ := Nat.exists_eq_succ_of_ne_zero h.ne'
    rfl

theorem isValid_invalidate (k : PubKey) : k.invalidate.isValid = false := by
  rw [isValid_eq_false_iff, size, invalidate, header_overwrite (by decide) (by decide)]
  rfl

theorem writeCompactSize_size (k : PubKey) : writeCompactSize k.size = [.ofNat k.size] := by
  have hle : k.size ≤ 65 := getLen_le _
  rw [writeCompactSize, if_pos (by omega)]
  rfl

theorem reads_unserialize (t : PubKey) {data : List UInt8} (h : data.length ≤ 65) :
    Reads (unserialize t) (writeCompactSize data.length ++ data) (t.overwrite data) := by
  refine (reads_readCompactSize (h.trans (by decide))).bind ?_
  rw [if_pos h]
  exact (Reads.take data).bind_nil (.pure _)

theorem reads_serialize (k t : PubKey) :
    Reads (unserialize t) k.serialize (t.overwrite (k.vch.take k.size)) := by
  have hlen := k.length_take_size
  have hread := t.reads_unserialize (hlen.trans_le (getLen_le _))
  rwa [hlen] at hread

theorem beq_iff (a b : PubKey) :
    (a == b) = true ↔ a.header = b.header ∧ a.vch.take a.size = b.vch.take a.size := by
  change (_ && _) = true ↔ _
  rw [Bool.and_eq_true, beq_iff_eq, beq_iff_eq]

theorem overwrite_beq_iff (k t : PubKey) :
    (t.overwrite (k.vch.take k.size) == k) = true ↔ k.isValid = true ∨ t.header = k.header := by
  rw [beq_iff]
  by_cases hvalid : k.isValid = true
  · have hpos : 0 < k.size := by simpa [isValid] using hvalid
    have hlen := k.length_take_size
    have hle : (k.vch.take k.size).length ≤ 65 := hlen.trans_le (getLen_le _)
    have hhead : (t.overwrite (k.vch.take k.size)).header = k.header := by
      rw [header_overwrite hle (List.ne_nil_of_length_pos (hpos.trans_eq hlen.symm)),
        headD_take hpos]
    have hsize : (t.overwrite (k.vch.take k.size)).size = k.size := congrArg getLen hhead
    rw [hsize, vch_overwrite hle, List.take_append_of_le_length hlen.ge, List.take_take, min_self]
    exact iff_of_true ⟨hhead, rfl⟩ (.inl hvalid)
  · have hzero : k.size = 0 := by simpa [isValid] using hvalid
    rw [hzero, List.take_zero, overwrite_nil, or_iff_right hvalid, and_iff_left_iff_imp]
    intro hhead
    have hsize : t.size = 0 := (congrArg getLen hhead).trans hzero
    rw [hsize, List.take_zero, List.take_zero]

theorem readSize_cases {bytes rest : List UInt8} {len : ℕ}
    (h : readSize.run bytes = some (len, rest)) :
    ∃ chSize p, bytes = chSize :: (p ++ rest) ∧
      (p = [] ∧ chSize.toNat = len ∨ p ≠ [] ∧ 253 ≤ chSize.toNat) := by
  have hmore : ∀ n s, 0 < n → (number n).run s = some (len, rest) → ∃ p, s = p ++ rest ∧ p ≠ [] := by
    intro n s hn hs
    rw [run_number] at hs
    split at hs
    · rename_i hle
      obtain ⟨-, rfl⟩ := Prod.mk.inj (Option.some_injective _ hs)
      refine ⟨s.take n, (List.take_append_drop n s).symm, List.ne_nil_of_length_pos ?_⟩
      rw [List.length_take]
      omega
    · exact absurd hs (by simp)
  cases bytes with
  | nil =>
    have hnone : readSize.run [] = none := by rfl
    exact absurd (hnone.symm.trans h) (by simp)
  | cons chSize s =>
    have hfirst : (number 1).run (chSize :: s) = some (chSize.toNat, s) := by
      rw [run_number, if_pos (by simp)]
      rfl
    rw [readSize, StateT.run_bind, hfirst, Option.bind_eq_bind, Option.bind_some] at h
    refine ⟨chSize, ?_⟩
    by_cases hsmall : chSize.toNat < 253
    · rw [if_pos hsmall] at h
      obtain ⟨rfl, rfl⟩ := Prod.mk.inj (Option.some_injective _ h)
      exact ⟨[], rfl, .inl ⟨rfl, rfl⟩⟩
    · have hlarge : 253 ≤ chSize.toNat := Nat.not_lt.mp hsmall
      rw [if_neg hsmall] at h
      obtain ⟨n, hn, hs⟩ : ∃ n, 0 < n ∧ (number n).run s = some (len, rest) := by
        split_ifs at h
        · exact ⟨2, by decide, h⟩
        · exact ⟨4, by decide, h⟩
        · exact ⟨8, by decide, h⟩
      obtain ⟨p, rfl, hp⟩ := hmore n s hn hs
      exact ⟨p, rfl, .inr ⟨hp, hlarge⟩⟩

theorem readSize_of_readCompactSize {bytes rest : List UInt8} {len : ℕ}
    (h : readCompactSize.run bytes = some (len, rest)) : readSize.run bytes = some (len, rest) := by
  rw [readCompactSize, StateT.run_bind, Option.bind_eq_bind, Option.bind_eq_some_iff] at h
  obtain ⟨⟨n, s⟩, hsize, hpure⟩ := h
  by_cases hmax : maxSize < n
  · rw [if_pos hmax] at hpure
    change none = _ at hpure
    exact absurd hpure (by simp)
  · rw [if_neg hmax] at hpure
    obtain ⟨rfl, rfl⟩ := Prod.mk.inj (Option.some_injective _ hpure)
    exact hsize

theorem run_unserialize_short {bytes rest : List UInt8} {len : ℕ} (t : PubKey)
    (h : readCompactSize.run bytes = some (len, rest)) (hle : len ≤ 65) :
    (unserialize t).run bytes =
      if len ≤ rest.length then some (t.overwrite (rest.take len), rest.drop len) else none := by
  rw [unserialize, StateT.run_bind, h, Option.bind_eq_bind, Option.bind_some]
  dsimp only
  rw [if_pos hle, StateT.run_bind]
  change Option.bind (if len ≤ rest.length then some (rest.take len, rest.drop len) else none) _ = _
  split <;> rfl

theorem run_unserialize_long {bytes rest : List UInt8} {len : ℕ} (t : PubKey)
    (h : readCompactSize.run bytes = some (len, rest)) (hlt : 65 < len) {t' : PubKey}
    {rest' : List UInt8} (hrun : (unserialize t).run bytes = some (t', rest')) :
    t'.isValid = false := by
  rw [unserialize, StateT.run_bind, h, Option.bind_eq_bind, Option.bind_some] at hrun
  dsimp only at hrun
  rw [if_neg (Nat.not_le.mpr hlt), StateT.run_bind, Option.bind_eq_bind,
    Option.bind_eq_some_iff] at hrun
  obtain ⟨_, -, hpure⟩ := hrun
  obtain ⟨rfl, -⟩ := Prod.mk.inj (Option.some_injective _ hpure)
  exact t.isValid_invalidate

theorem serialize_eq_iff {k : PubKey} {chSize : UInt8} {p data : List UInt8} {len : ℕ}
    (hp : p = [] ∧ chSize.toNat = len ∨ p ≠ [] ∧ 253 ≤ chSize.toNat) :
    k.serialize = chSize :: (p ++ data) ↔ p = [] ∧ k.size = len ∧ k.vch.take len = data := by
  have hle : k.size ≤ 65 := getLen_le _
  have hsize : (UInt8.ofNat k.size).toNat = k.size := UInt8.toNat_ofNat_of_lt (show k.size < 256 by omega)
  rw [serialize, writeCompactSize_size, List.singleton_append, List.cons.injEq]
  constructor
  · rintro ⟨rfl, htake⟩
    rcases hp with ⟨rfl, hlen⟩ | ⟨-, hlarge⟩
    · rw [hsize] at hlen
      exact ⟨rfl, hlen, by rw [← hlen, htake, List.nil_append]⟩
    · omega
  · rintro ⟨rfl, hlen, rfl⟩
    rcases hp with ⟨-, hchSize⟩ | ⟨hne, -⟩
    · refine ⟨?_, by rw [hlen, List.nil_append]⟩
      apply UInt8.toNat_inj.mp
      rw [hsize, hlen, hchSize]
    · exact absurd rfl hne

theorem overwrite_writesBack_iff {t : PubKey} {chSize : UInt8} {p rest : List UInt8} {len : ℕ}
    (hp : p = [] ∧ chSize.toNat = len ∨ p ≠ [] ∧ 253 ≤ chSize.toNat) (hle : len ≤ 65)
    (hlen : len ≤ rest.length) :
    ((t.overwrite (rest.take len)).isValid = false ∨
        (t.overwrite (rest.take len)).serialize = chSize :: (p ++ rest.take len)) ↔
      (len = 0 ∧ t.isValid = false) ∨
        (0 < len ∧ (getLen (rest.headD 0) = 0 ∨ getLen (rest.headD 0) = len ∧ p = [])) := by
  rw [serialize_eq_iff hp, isValid_eq_false_iff, isValid_eq_false_iff]
  have hdata : (rest.take len).length = len := by rw [List.length_take, Nat.min_eq_left hlen]
  rcases Nat.eq_zero_or_pos len with rfl | hpos
  · rw [List.take_zero, overwrite_nil, List.take_zero]
    simp
  · have hne : rest.take len ≠ [] := List.ne_nil_of_length_pos (hpos.trans_eq hdata.symm)
    have hhead : (rest.take len).headD 0 = rest.headD 0 := by
      cases rest with
      | nil => rw [List.take_nil]
      | cons b rest =>
        obtain ⟨m, rfl⟩ := Nat.exists_eq_succ_of_ne_zero hpos.ne'
        rfl
    have hsize : (t.overwrite (rest.take len)).size = getLen (rest.headD 0) := by
      rw [size, header_overwrite (hdata.trans_le hle) hne, hhead]
    have htake : (t.overwrite (rest.take len)).vch.take len = rest.take len := by
      rw [vch_overwrite (hdata.trans_le hle), List.take_append_of_le_length hdata.ge,
        List.take_take, min_self]
    rw [hsize, htake]
    simp [hpos, hpos.ne', and_comm]

theorem length_eq_succ_iff {bytes rest p : List UInt8} {chSize : UInt8}
    (h : bytes = chSize :: (p ++ rest)) : bytes.length = rest.length + 1 ↔ p = [] := by
  rw [h, List.length_cons, List.length_append, ← List.length_eq_zero_iff]
  omega

theorem writesBack_iff (bytes : List UInt8) (t : PubKey) : WritesBack bytes t ↔ PlainKey bytes t := by
  constructor
  · intro h len rest hread hle hlen
    obtain ⟨chSize, p, hbytes, hp⟩ := readSize_cases (readSize_of_readCompactSize hread)
    have hrun := run_unserialize_short t hread hle
    rw [if_pos hlen] at hrun
    have hsplit : bytes = (chSize :: (p ++ rest.take len)) ++ rest.drop len := by
      rw [List.cons_append, List.append_assoc, List.take_append_drop, hbytes]
    have hplain := (overwrite_writesBack_iff hp hle hlen).mp (h _ _ _ hsplit hrun)
    rwa [length_eq_succ_iff hbytes]
  · intro hplain t' consumed rest' heq hrun
    cases hread : readCompactSize.run bytes with
    | none =>
      rw [unserialize, StateT.run_bind, hread] at hrun
      change none = _ at hrun
      exact absurd hrun (by simp)
    | some read =>
      obtain ⟨len, rest⟩ := read
      rcases Nat.lt_or_ge 65 len with hlt | hle
      · exact .inl (run_unserialize_long t hread hlt hrun)
      · obtain ⟨chSize, p, hbytes, hp⟩ := readSize_cases (readSize_of_readCompactSize hread)
        rw [run_unserialize_short t hread hle] at hrun
        split at hrun
        · rename_i hlen
          obtain ⟨rfl, rfl⟩ := Prod.mk.inj (Option.some_injective _ hrun)
          have hconsumed : consumed = chSize :: (p ++ rest.take len) := by
            have happend : consumed ++ rest.drop len =
                (chSize :: (p ++ rest.take len)) ++ rest.drop len := by
              rw [← heq, List.cons_append, List.append_assoc, List.take_append_drop, hbytes]
            exact List.append_cancel_right happend
          have hkey := hplain len rest hread hle hlen
          rw [length_eq_succ_iff hbytes] at hkey
          rw [hconsumed]
          exact (overwrite_writesBack_iff hp hle hlen).mpr hkey
        · exact absurd hrun (by simp)

/-- What `Serialize` wrote is read back into any target, and what `Unserialize` read is written back,
except for a size that does not go with the key. -/
theorem unserialize_iff (k t : PubKey) (bytes : List UInt8) :
    ((∃ t', Reads (unserialize t) k.serialize t' ∧ (t' == k) = true) ↔
      k.isValid = true ∨ t.header = k.header) ∧
    (WritesBack bytes t ↔ PlainKey bytes t) := by
  refine ⟨?_, writesBack_iff bytes t⟩
  rw [← overwrite_beq_iff k t]
  constructor
  · rintro ⟨t', hread, heq⟩
    have hrun := (hread []).symm.trans (reads_serialize k t [])
    obtain ⟨rfl, -⟩ := Prod.mk.inj (Option.some_injective _ hrun)
    exact heq
  · intro heq
    exact ⟨_, reads_serialize k t, heq⟩

/-- A key of which only the first byte is not zero. -/
def blank (chHeader : UInt8) : PubKey := ⟨chHeader :: .replicate 64 0, rfl⟩

/-- The size of an invalid key is zero, and the valid key that was in the target stays there. -/
theorem unserialize_keeps : (blank 0xFF).serialize = [0] ∧
    (unserialize (blank 2)).run [0] = some (blank 2, []) ∧ (blank 2 == blank 0xFF) = false ∧
    (blank 2).isValid = true ∧ (blank 2).serialize ≠ [0] := by
  decide

end PubKey

end Beancash
