import Beancash.LevelBatch
import Beancash.VersionedStore
import Beancash.WalletTxRecord

namespace LevelDB

open KeyValue VersionedStore Beancash

/-- The key of the user, and the number of the write with its type. -/
abbrev InternalKey := List UInt8 × UInt64

def packSequenceAndType (seq : UInt64) (t : UInt8) : UInt64 := (seq <<< 8) ||| t.toUInt64

/-- `InternalKeyComparator`, with the keys of users compared byte by byte. -/
def internalLess : InternalKey → InternalKey → Prop := Prod.Lex strLess fun a b => b.toNat < a.toNat

instance : DecidableRel internalLess := fun a b => inferInstanceAs (Decidable (Prod.Lex _ _ a b))

instance : IsStrictTotalOrder InternalKey internalLess :=
  have : IsStrictTotalOrder UInt64 fun a b => b.toNat < a.toNat :=
    { trichotomous := fun a b h h' => UInt64.toNat_inj.mp (by omega)
      irrefl := fun a => Nat.lt_irrefl _
      trans := fun a b c h h' => Nat.lt_trans h' h }
  have horder : IsStrictTotalOrder InternalKey
      (Prod.Lex strLess fun a b : UInt64 => b.toNat < a.toNat) := { }
  horder

theorem internalLess_iff {k k' : InternalKey} :
    internalLess k k' ↔ strLess k.1 k'.1 ∨ k.1 = k'.1 ∧ k'.2.toNat < k.2.toNat := Prod.lex_def

theorem toNat_packSequenceAndType {seq : UInt64} (h : seq.toNat < 2 ^ 56) (t : UInt8) :
    (packSequenceAndType seq t).toNat = seq.toNat * 256 + t.toNat := by
  have ht : t.toNat < 2 ^ 8 := t.toNat_lt
  have hshift : (seq <<< 8).toNat = 2 ^ 8 * seq.toNat := by
    rw [UInt64.toNat_shiftLeft]
    change seq.toNat <<< 8 % 2 ^ 64 = _
    rw [Nat.shiftLeft_eq, Nat.mod_eq_of_lt (by omega), Nat.mul_comm]
  rw [packSequenceAndType, UInt64.toNat_or, hshift, UInt8.toNat_toUInt64,
    ← Nat.two_pow_add_eq_or_of_lt ht, Nat.mul_comm]

abbrev MemTable := SortedMap internalLess (List UInt8)

namespace MemTable

def add (mem : MemTable) (s : UInt64) (type : UInt8) (key value : List UInt8) : MemTable :=
  mem.insert (key, packSequenceAndType s type) value

/-- The first entry that is not before a key. -/
def seek (mem : MemTable) (k : InternalKey) : Option (InternalKey × List UInt8) :=
  mem.entries.find? fun e => decide (¬internalLess e.1 k)

/-- `Get`: `some none` says that the key was deleted, and `none` that the table does not know. -/
def get (mem : MemTable) (userKey : List UInt8) (sequence : UInt64) : Option (Option (List UInt8)) :=
  match mem.seek (userKey, packSequenceAndType sequence kTypeValue) with
  | none => none
  | some ((key, tag), value) =>
    if key ≠ userKey then none
    else if tag.toUInt8 = kTypeValue then some (some value)
    else if tag.toUInt8 = kTypeDeletion then some none
    else none

/-- `MemTableInserter` -/
def addOp (p : UInt64 × MemTable) : LevelOp → UInt64 × MemTable
  | .put key value => (p.1 + 1, p.2.add p.1 kTypeValue key value)
  | .delete key => (p.1 + 1, p.2.add p.1 kTypeDeletion key [])

/-- `InsertInto`: what was read of the batch is inserted, also where not all of it can be read. -/
def insertBatch (mem : MemTable) (b : LevelBatch) : MemTable × Option String :=
  ((b.iterate.1.foldl addOp (b.sequence, mem)).2, b.iterate.2)

/-- An entry with its number and its type taken apart. -/
def toEntry (p : InternalKey × List UInt8) : Entry (List UInt8) (List UInt8) :=
  ⟨p.1.1, p.1.2.toNat / 256, if p.1.2.toUInt8 = kTypeValue then some p.2 else none⟩

def contents (mem : MemTable) : Set (Entry (List UInt8) (List UInt8)) :=
  {e | ∃ p ∈ mem.entries, e = toEntry p}

/-- The types are those of writes. -/
def Typed (mem : MemTable) : Prop :=
  ∀ p ∈ mem.entries, p.1.2.toUInt8 = kTypeValue ∨ p.1.2.toUInt8 = kTypeDeletion

theorem toNat_tag (tag : UInt64) : tag.toNat = tag.toNat / 256 * 256 + tag.toUInt8.toNat := by
  rw [UInt64.toNat_toUInt8]
  omega

theorem not_internalLess_iff {p : InternalKey × List UInt8}
    (htype : p.1.2.toUInt8 = kTypeValue ∨ p.1.2.toUInt8 = kTypeDeletion) {sequence : UInt64}
    (h : sequence.toNat < 2 ^ 56) :
    ¬internalLess p.1 (p.1.1, packSequenceAndType sequence kTypeValue) ↔
      (toEntry p).seq ≤ sequence.toNat := by
  have htag := toNat_tag p.1.2
  have hle : p.1.2.toUInt8.toNat ≤ 1 := by
    rcases htype with htype | htype <;> rw [htype] <;> decide
  have hone : kTypeValue.toNat = 1 := rfl
  rw [internalLess_iff, or_iff_right (irrefl_of strLess _), toNat_packSequenceAndType h, hone]
  change ¬(_ ∧ sequence.toNat * 256 + 1 < p.1.2.toNat) ↔ p.1.2.toNat / 256 ≤ sequence.toNat
  rw [and_iff_right rfl]
  omega

theorem finds_get {mem : MemTable} (htyped : mem.Typed) (userKey : List UInt8) {sequence : UInt64}
    (h : sequence.toNat < 2 ^ 56) :
    Finds mem.contents sequence.toNat userKey (mem.get userKey sequence) := by
  rw [get]
  cases hseek : mem.seek (userKey, packSequenceAndType sequence kTypeValue) with
  | none =>
    refine .nothing ?_
    rintro e ⟨p, hp, rfl⟩ rfl
    by_contra hle
    have hless := List.find?_eq_none.mp hseek p hp
    rw [decide_eq_true_eq, not_not] at hless
    exact (not_internalLess_iff (htyped p hp) h).mpr (Nat.not_lt.mp hle) hless
  | some p =>
    obtain ⟨⟨key, tag⟩, value⟩ := p
    have hmem : ((key, tag), value) ∈ mem.entries := List.mem_of_find?_eq_some hseek
    have hnotless : ¬internalLess (key, tag) (userKey, packSequenceAndType sequence kTypeValue) := by
      simpa using List.find?_some hseek
    have hfirst : ∀ p ∈ mem.entries, p.1.1 = userKey → (toEntry p).seq ≤ sequence.toNat →
        p = ((key, tag), value) ∨ internalLess (key, tag) p.1 := by
      rintro p hp rfl hseq
      exact SortedMap.eq_or_lt_of_find? mem.sorted hseek hp
        ((not_internalLess_iff (htyped p hp) h).mpr hseq)
    change Finds _ _ _ (if key ≠ userKey then none else if tag.toUInt8 = kTypeValue then
      some (some value) else if tag.toUInt8 = kTypeDeletion then some none else none)
    by_cases hkey : key = userKey
    · have hseq : (toEntry ((key, tag), value)).seq ≤ sequence.toNat := by
        rw [← hkey] at hnotless
        exact (not_internalLess_iff (htyped _ hmem) h).mp hnotless
      have hnewest : ∀ e' ∈ mem.contents, e'.key = userKey → e'.seq ≤ sequence.toNat →
          e'.seq ≤ (toEntry ((key, tag), value)).seq := by
        rintro e' ⟨p, hp, rfl⟩ hkey' hseq'
        rcases hfirst p hp hkey' hseq' with rfl | hless
        · exact Nat.le_refl _
        · rw [internalLess_iff] at hless
          have hkeys : key = p.1.1 := hkey.trans hkey'.symm
          have htag := (hless.resolve_left (hkeys ▸ irrefl_of strLess key)).2
          exact Nat.div_le_div_right (Nat.le_of_lt htag)
      have hfound : Finds mem.contents sequence.toNat userKey
          (some (toEntry ((key, tag), value)).value) := .entry ⟨_, hmem, rfl⟩ hkey hseq hnewest
      rw [if_neg (not_not.mpr hkey)]
      rcases htyped _ hmem with htype | htype
      · have htype' : tag.toUInt8 = kTypeValue := htype
        rw [toEntry, if_pos htype] at hfound
        rw [if_pos htype']
        exact hfound
      · have htype' : tag.toUInt8 = kTypeDeletion := htype
        rw [toEntry, htype, if_neg (by decide)] at hfound
        rw [htype', if_neg (by decide), if_pos rfl]
        exact hfound
    · rw [if_pos hkey]
      refine .nothing ?_
      rintro e ⟨p, hp, rfl⟩ hkey'
      by_contra hle
      have hkey'' : p.1.1 = userKey := hkey'
      rcases hfirst p hp hkey'' (Nat.not_lt.mp hle) with rfl | hless
      · exact hkey hkey''
      · rw [internalLess_iff, hkey''] at hless
        exact hnotless (internalLess_iff.mpr (.inl (hless.resolve_right fun heq => hkey heq.1)))

theorem toUInt8_packSequenceAndType {s : UInt64} (h : s.toNat < 2 ^ 56) (type : UInt8) :
    (packSequenceAndType s type).toUInt8 = type := by
  have hlt := type.toNat_lt
  apply UInt8.toNat_inj.mp
  rw [UInt64.toNat_toUInt8, toNat_packSequenceAndType h type]
  omega

theorem toEntry_pack {s : UInt64} (h : s.toNat < 2 ^ 56) (type : UInt8) (key value : List UInt8) :
    toEntry ((key, packSequenceAndType s type), value) =
      ⟨key, s.toNat, if type = kTypeValue then some value else none⟩ := by
  have hlt := type.toNat_lt
  rw [toEntry, toUInt8_packSequenceAndType h, toNat_packSequenceAndType h]
  congr 1
  omega

/-- The table holds some operations, numbered from `first`. -/
structure Filled (mem : MemTable) (first : ℕ) (ops : List LevelOp) : Prop where
  contents : mem.contents = history first ops
  typed : mem.Typed

theorem filled_empty (first : ℕ) : Filled .empty first [] where
  contents := by
    ext e
    exact iff_of_false (by rintro ⟨p, hp, -⟩; cases hp) (by rintro ⟨i, op, hi, -⟩; cases hi)
  typed p hp := by cases hp

theorem Filled.insert {mem : MemTable} {first : ℕ} {ops : List LevelOp} (h : mem.Filled first ops)
    {s : UInt64} (hs : s.toNat = first + ops.length) (hlt : s.toNat < 2 ^ 56) {type : UInt8}
    (htype : type = kTypeValue ∨ type = kTypeDeletion) (key value : List UInt8) {op : LevelOp}
    (hop : entryOf (first + ops.length) op =
      ⟨key, s.toNat, if type = kTypeValue then some value else none⟩) :
    Filled (mem.add s type key value) first (ops ++ [op]) := by
  have hentry := toEntry_pack hlt type key value
  have hfresh : ∀ p ∈ mem.entries, p.1 ≠ (key, packSequenceAndType s type) := by
    rintro ⟨k, v⟩ hp heq
    have hmem : toEntry (k, v) ∈ history first ops := h.contents ▸ ⟨(k, v), hp, rfl⟩
    have hseq := (seq_lt_of_mem_history hmem).2
    have heq' : k = (key, packSequenceAndType s type) := heq
    rw [heq', toEntry_pack hlt, hs] at hseq
    exact absurd hseq (Nat.lt_irrefl _)
  have hmem : ∀ p, p ∈ (mem.add s type key value).entries ↔ _ :=
    SortedMap.mem_insert_of_new hfresh value
  constructor
  · rw [history_concat, ← h.contents, hop, ← hentry]
    ext e
    constructor
    · rintro ⟨p, hp, rfl⟩
      rcases (hmem p).mp hp with rfl | hold
      · exact .inl rfl
      · exact .inr ⟨p, hold, rfl⟩
    · rintro (rfl | ⟨p, hp, rfl⟩)
      · exact ⟨_, (hmem _).mpr (.inl rfl), rfl⟩
      · exact ⟨p, (hmem p).mpr (.inr hp), rfl⟩
  · intro p hp
    rcases (hmem p).mp hp with rfl | hold
    · have hbyte := toUInt8_packSequenceAndType hlt type
      rw [← hbyte] at htype
      exact htype
    · exact h.typed p hold

theorem Filled.addOp {mem : MemTable} {first : ℕ} {ops : List LevelOp} (h : mem.Filled first ops)
    {s : UInt64} (hs : s.toNat = first + ops.length) (hlt : s.toNat < 2 ^ 56) (op : LevelOp) :
    Filled (MemTable.addOp (s, mem) op).2 first (ops ++ [op]) := by
  cases op with
  | put key value => exact h.insert hs hlt (.inl rfl) key value (by rw [← hs]; rfl)
  | delete key => exact h.insert hs hlt (.inr rfl) key [] (by rw [← hs]; rfl)

theorem Filled.addOps {mem : MemTable} {first : ℕ} {ops : List LevelOp} (h : mem.Filled first ops)
    {s : UInt64} (hs : s.toNat = first + ops.length) {ops' : List LevelOp}
    (hlt : s.toNat + ops'.length ≤ 2 ^ 56) :
    Filled (ops'.foldl MemTable.addOp (s, mem)).2 first (ops ++ ops') := by
  induction ops' generalizing mem s ops with
  | nil =>
    rw [List.append_nil]
    exact h
  | cons op ops' ih =>
    rw [List.length_cons] at hlt
    have hnext : (s + 1).toNat = s.toNat + 1 := by
      rw [UInt64.toNat_add]
      exact Nat.mod_eq_of_lt (by change s.toNat + 1 < 2 ^ 64; omega)
    have hrest := ih (h.addOp hs (by omega) op) (s := s + 1)
      (by rw [hnext, hs, List.length_append]; rfl) (by rw [hnext]; omega)
    have hstep : MemTable.addOp (s, mem) op = (s + 1, (MemTable.addOp (s, mem) op).2) := by
      cases op <;> rfl
    rw [List.foldl_cons, hstep]
    rw [List.append_assoc] at hrest
    exact hrest

theorem Filled.insertBatch {mem : MemTable} {first : ℕ} {ops : List LevelOp}
    (h : mem.Filled first ops) {s : UInt64} (hs : s.toNat = first + ops.length)
    {ops' : List LevelOp} (hops : ∀ op ∈ ops', LevelBatch.SizedOp op) (hcount : ops'.length < 2 ^ 31)
    (hlt : s.toNat + ops'.length ≤ 2 ^ 56) :
    Filled (mem.insertBatch (.repOf s (.ofNat ops'.length) ops')).1 first (ops ++ ops') ∧
      (mem.insertBatch (.repOf s (.ofNat ops'.length) ops')).2 = none := by
  rw [MemTable.insertBatch, LevelBatch.iterate_repOf s hops hcount, LevelBatch.sequence_repOf]
  exact ⟨h.addOps hs hlt, rfl⟩

end MemTable

end LevelDB
