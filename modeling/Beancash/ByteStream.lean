import Mathlib.Algebra.Group.Nat.Defs
import Mathlib.Data.Nat.Notation
import Mathlib.Data.List.Basic
import Mathlib.Data.Option.Basic

/-!
# Reading back from a stream of bytes

A reader takes bytes from the front of a stream or fails. `Reads r bytes a` says that it
gets `a` out of `bytes` and takes no more, whatever comes after them; the rules below
put such facts together along the structure of a reader. What two values were written as
can then be told apart even with more written after them (`Reads.eq_of_append_eq`).
-/

namespace ByteStream

/-- A reader, which leaves the bytes it did not take. -/
abbrev Read (α : Type) := StateT (List UInt8) Option α

/-- So many bytes. -/
def take (n : ℕ) : Read (List UInt8) := fun s =>
  if n ≤ s.length then some (s.take n, s.drop n) else none

variable {α β : Type}

/-- The same reader so many times. -/
def many (r : Read α) : ℕ → Read (List α)
  | 0 => pure []
  | n + 1 => do
    let a ← r
    let l ← many r n
    pure (a :: l)

/-- Elements are read in chunks of at most `chunk` until there are `nSize` of them. -/
def inChunks (chunk : ℕ) (readChunk : ℕ → Read (List α)) (nSize : ℕ) :
    ℕ → List α → Read (List α)
  | fuel + 1, v =>
    if v.length < nSize then do
      let w ← readChunk (min chunk (nSize - v.length))
      inChunks chunk readChunk nSize fuel (v ++ w)
    else pure v
  | 0, v => pure v

def Reads (r : Read α) (bytes : List UInt8) (a : α) : Prop :=
  ∀ rest, r.run (bytes ++ rest) = some (a, rest)

namespace Reads

theorem pure (a : α) : Reads (Pure.pure a) [] a := fun _ => rfl

theorem bind {r : Read α} {f : α → Read β} {bytes bytes' : List UInt8} {a : α} {b : β}
    (h : Reads r bytes a) (h' : Reads (f a) bytes' b) : Reads (r >>= f) (bytes ++ bytes') b := by
  intro rest
  rw [List.append_assoc, StateT.run_bind, h (bytes' ++ rest)]
  exact h' rest

theorem run_bind {r : Read α} {bytes : List UInt8} {a : α} (h : Reads r bytes a) (f : α → Read β)
    (rest : List UInt8) : (r >>= f).run (bytes ++ rest) = (f a).run rest := by
  rw [StateT.run_bind, h rest]
  rfl

theorem bind_nil {r : Read α} {f : α → Read β} {bytes : List UInt8} {a : α} {b : β}
    (h : Reads r bytes a) (h' : Reads (f a) [] b) : Reads (r >>= f) bytes b := by
  have hread := h.bind h'
  rwa [List.append_nil] at hread

theorem map {r : Read α} {bytes : List UInt8} {a : α} (h : Reads r bytes a) (f : α → β) :
    Reads (f <$> r) bytes (f a) := by
  intro rest
  rw [StateT.run_map, h rest]
  rfl

theorem take (bytes : List UInt8) : Reads (take bytes.length) bytes bytes := by
  intro rest
  change (if _ then _ else _) = _
  rw [if_pos (by rw [List.length_append]; omega), List.take_left, List.drop_left]

theorem many {r : Read α} {write : α → List UInt8} {l : List α}
    (h : ∀ a ∈ l, Reads r (write a) a) : Reads (many r l.length) (l.flatMap write) l := by
  induction l with
  | nil => exact .pure []
  | cons a l ih =>
    exact (h a List.mem_cons_self).bind
      ((ih fun b hb => h b (List.mem_cons_of_mem a hb)).bind_nil (.pure (a :: l)))

theorem inChunks {chunk : ℕ} (hchunk : 0 < chunk) {readChunk : ℕ → Read (List α)}
    {write : α → List UInt8} {l : List α}
    (h : ∀ w : List α, w ⊆ l → Reads (readChunk w.length) (w.flatMap write) w) {fuel : ℕ}
    {v w : List α} (hl : v ++ w = l) (hfuel : w.length ≤ fuel) :
    Reads (inChunks chunk readChunk l.length fuel v) (w.flatMap write) l := by
  induction fuel generalizing v w with
  | zero =>
    obtain rfl := List.length_eq_zero_iff.mp (Nat.le_zero.mp hfuel)
    rw [List.append_nil] at hl
    rw [hl]
    exact .pure l
  | succ fuel ih =>
    have hlen : v.length + w.length = l.length := by rw [← hl, List.length_append]
    rw [ByteStream.inChunks]
    by_cases hlt : v.length < l.length
    · rw [if_pos hlt]
      have hw : w.take (min chunk (l.length - v.length)) ++
          w.drop (min chunk (l.length - v.length)) = w := List.take_append_drop _ _
      have htake : (w.take (min chunk (l.length - v.length))).length =
          min chunk (l.length - v.length) := by
        rw [List.length_take]
        omega
      have hsub : w.take (min chunk (l.length - v.length)) ⊆ l := fun a ha =>
        hl ▸ List.mem_append_right v (List.mem_of_mem_take ha)
      have hfirst := h _ hsub
      rw [htake] at hfirst
      have hrest := ih (v := v ++ w.take (min chunk (l.length - v.length)))
        (w := w.drop (min chunk (l.length - v.length))) (by rw [List.append_assoc, hw, hl])
        (by rw [List.length_drop]; omega)
      rw [← hw, List.flatMap_append]
      exact hfirst.bind hrest
    · rw [if_neg hlt]
      obtain rfl := List.length_eq_zero_iff.mp (show w.length = 0 by omega)
      rw [List.append_nil] at hl
      rw [hl]
      exact .pure l

theorem eq_of_append_eq {r : Read α} {bytes bytes' rest rest' : List UInt8} {a a' : α}
    (h : Reads r bytes a) (h' : Reads r bytes' a') (heq : bytes ++ rest = bytes' ++ rest') :
    a = a' ∧ rest = rest' := by
  have hread := h rest
  rw [heq, h' rest'] at hread
  obtain ⟨hvalue, hrest⟩ := Prod.mk.inj (Option.some_injective _ hread)
  exact ⟨hvalue.symm, hrest.symm⟩

end Reads

theorem eq_of_flatMap_append_eq {write : α → List UInt8} {l l' : List α}
    (h : ∀ a ∈ l, ∀ a' ∈ l', ∀ rest rest',
      write a ++ rest = write a' ++ rest' → a = a' ∧ rest = rest')
    (hlen : l.length = l'.length) {rest rest' : List UInt8}
    (heq : l.flatMap write ++ rest = l'.flatMap write ++ rest') : l = l' ∧ rest = rest' := by
  induction l generalizing l' with
  | nil =>
    obtain rfl := List.length_eq_zero_iff.mp hlen.symm
    exact ⟨rfl, heq⟩
  | cons a l ih =>
    cases l' with
    | nil => cases hlen
    | cons a' l' =>
      rw [List.flatMap_cons, List.flatMap_cons, List.append_assoc, List.append_assoc] at heq
      obtain ⟨rfl, hl⟩ := h a List.mem_cons_self a' List.mem_cons_self _ _ heq
      obtain ⟨rfl, hrest⟩ := ih (fun b hb b' hb' => h b (List.mem_cons_of_mem a hb) b'
        (List.mem_cons_of_mem a hb')) (Nat.succ.inj hlen) hl
      exact ⟨rfl, hrest⟩

/-- The `n` lowest bytes of a number, the lowest one first. -/
def littleEndian : ℕ → ℕ → List UInt8
  | 0, _ => []
  | n + 1, x => .ofNat x :: littleEndian n (x / 256)

def ofLittleEndian : List UInt8 → ℕ
  | [] => 0
  | byte :: bytes => byte.toNat + 256 * ofLittleEndian bytes

@[simp] theorem length_littleEndian (n x : ℕ) : (littleEndian n x).length = n := by
  induction n generalizing x with
  | zero => rfl
  | succ n ih => rw [littleEndian, List.length_cons, ih]

theorem ofLittleEndian_lt (bytes : List UInt8) : ofLittleEndian bytes < 256 ^ bytes.length := by
  induction bytes with
  | nil => exact Nat.one_pos
  | cons byte bytes ih =>
    have hbyte := byte.toNat_lt
    rw [ofLittleEndian, List.length_cons, Nat.pow_succ]
    omega

theorem eq_of_ofLittleEndian_eq {bytes bytes' : List UInt8} (hlength : bytes.length = bytes'.length)
    (h : ofLittleEndian bytes = ofLittleEndian bytes') : bytes = bytes' := by
  induction bytes generalizing bytes' with
  | nil => exact (List.length_eq_zero_iff.mp hlength.symm).symm
  | cons byte bytes ih =>
    obtain ⟨byte', bytes', rfl⟩ := List.exists_cons_of_length_eq_add_one hlength.symm
    have hbyte := byte.toNat_lt
    have hbyte' := byte'.toNat_lt
    rw [ofLittleEndian, ofLittleEndian] at h
    rw [ih (Nat.succ.inj hlength) (by omega), UInt8.toNat_inj.mp (by omega : byte.toNat = byte'.toNat)]

theorem ofLittleEndian_littleEndian {n x : ℕ} (h : x < 256 ^ n) :
    ofLittleEndian (littleEndian n x) = x := by
  induction n generalizing x with
  | zero =>
    rw [Nat.pow_zero, Nat.lt_one_iff] at h
    rw [h]
    rfl
  | succ n ih =>
    have hdiv : x / 256 < 256 ^ n := Nat.div_lt_of_lt_mul (by rwa [Nat.mul_comm, ← Nat.pow_succ])
    rw [littleEndian, ofLittleEndian, ih hdiv, UInt8.toNat_ofNat']
    exact Nat.mod_add_div x 256

/-- A number of so many bytes. -/
def number (n : ℕ) : Read ℕ := ofLittleEndian <$> take n

theorem run_number (n : ℕ) (s : List UInt8) : (number n).run s =
    if n ≤ s.length then some (ofLittleEndian (s.take n), s.drop n) else none := by
  rw [number, StateT.run_map]
  change (if n ≤ s.length then some (s.take n, s.drop n) else none).map _ = _
  split <;> rfl

theorem reads_number_any (n x : ℕ) :
    Reads (number n) (littleEndian n x) (ofLittleEndian (littleEndian n x)) := by
  have hread := (Reads.take (littleEndian n x)).map ofLittleEndian
  rwa [length_littleEndian] at hread

theorem reads_number {n x : ℕ} (h : x < 256 ^ n) : Reads (number n) (littleEndian n x) x := by
  have hread := reads_number_any n x
  rwa [ofLittleEndian_littleEndian h] at hread

end ByteStream
