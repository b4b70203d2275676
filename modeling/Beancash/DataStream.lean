import Beancash.RewindQueue
import Mathlib.Data.BitVec

namespace Beancash

def badbit : BitVec 16 := 1
def failbit : BitVec 16 := 4

/-- What `Init` sets. -/
def exceptmask : BitVec 16 := badbit ||| failbit

structure DataStream where
  vch : List UInt8
  nReadPos : ℕ
  state : BitVec 16
  inside : nReadPos ≤ vch.length
  narrow : nReadPos < 2 ^ 32

/-- What a call gives its caller; `fault` is a failed assertion or an access out of bounds. -/
inductive StreamOutput where
  | done
  | delivered (pch : List UInt8)
  | returned (b : Bool)
  | thrown
  | fault
deriving DecidableEq

namespace DataStream

def init (vch : List UInt8) : DataStream := ⟨vch, 0, 0, Nat.zero_le _, by decide⟩

variable (s : DataStream)

def size : ℕ := s.vch.length - s.nReadPos

def view : RewindQueue UInt8 := .split s.vch s.nReadPos

def cleared : DataStream := ⟨[], 0, s.state, le_rfl, by decide⟩

/-- `setstate`, after which the stream throws if the mask says so. -/
def setstate (bits : BitVec 16) : DataStream := { s with state := s.state ||| bits }

def throws : Bool := s.state &&& exceptmask != 0

/-- The vector is added to at its end. -/
def insertEnd (b : List UInt8) : DataStream where
  vch := s.vch ++ b
  nReadPos := s.nReadPos
  state := s.state
  inside := s.inside.trans (List.length_append ▸ Nat.le_add_right _ _)
  narrow := s.narrow

def read (nSize : ℕ) : StreamOutput × DataStream :=
  let nReadPosNext := (s.nReadPos + nSize) % 2 ^ 32
  if h : s.vch.length ≤ nReadPosNext then
    if s.vch.length < nReadPosNext then
      if (s.setstate failbit).throws then (.thrown, s.setstate failbit)
      else (.delivered (s.vch.drop s.nReadPos ++ .replicate (nSize - s.size) 0),
        (s.setstate failbit).cleared)
    else (.delivered ((s.vch.drop s.nReadPos).take nSize), s.cleared)
  else if s.size < nSize then (.fault, s)
  else (.delivered ((s.vch.drop s.nReadPos).take nSize),
    ⟨s.vch, nReadPosNext, s.state, (Nat.not_le.mp h).le, Nat.mod_lt _ (by decide)⟩)

def ignore (nSize : ℕ) : StreamOutput × DataStream :=
  let nReadPosNext := (s.nReadPos + nSize) % 2 ^ 32
  if h : s.vch.length ≤ nReadPosNext then
    if s.vch.length < nReadPosNext then
      if (s.setstate failbit).throws then (.thrown, s.setstate failbit)
      else (.done, (s.setstate failbit).cleared)
    else (.done, s.cleared)
  else (.done, ⟨s.vch, nReadPosNext, s.state, (Nat.not_le.mp h).le, Nat.mod_lt _ (by decide)⟩)

/-- `write` of the first `nSize` bytes, where `nSize` is an `int`. -/
def write (pch : List UInt8) (nSize : ℤ) : StreamOutput × DataStream :=
  if nSize < 0 then (.fault, s) else (.done, s.insertEnd (pch.take nSize.toNat))

/-- `vector::insert` at `begin()`. -/
def insertFront (b : List UInt8) : DataStream where
  vch := s.vch.take s.nReadPos ++ (b ++ s.vch.drop s.nReadPos)
  nReadPos := s.nReadPos
  state := s.state
  inside := by
    have := s.inside
    simp only [List.length_append, List.length_take, List.length_drop]
    omega
  narrow := s.narrow

/-- `insert` of a range at `begin()`, the size of which is compared as an `unsigned int`. -/
def insertRange (b : List UInt8) : StreamOutput × DataStream :=
  if b.length % 2 ^ 32 ≤ s.nReadPos then
    let nReadPos := s.nReadPos - b.length % 2 ^ 32
    if h : nReadPos + b.length ≤ s.vch.length then
      (.done, ⟨s.vch.take nReadPos ++ (b ++ s.vch.drop (nReadPos + b.length)), nReadPos, s.state, by
        simp only [List.length_append, List.length_take, List.length_drop]
        omega, (Nat.sub_le _ _).trans_lt s.narrow⟩)
    else (.fault, s)
  else (.done, s.insertFront b)

/-- `erase(begin())` -/
def eraseOne : StreamOutput × DataStream :=
  let nReadPos := (s.nReadPos + 1) % 2 ^ 32
  if h : s.vch.length ≤ nReadPos then (.done, s.cleared)
  else (.done, ⟨s.vch, nReadPos, s.state, (Nat.not_le.mp h).le, Nat.mod_lt _ (by decide)⟩)

/-- `erase(begin(), begin() + n)`, which takes a valid iterator. -/
def eraseRange (n : ℕ) : StreamOutput × DataStream :=
  if h : s.nReadPos + n ≤ s.vch.length then
    if s.nReadPos + n = s.vch.length then (.done, s.cleared)
    else (.done, ⟨s.vch, (s.nReadPos + n) % 2 ^ 32, s.state, (Nat.mod_le _ _).trans h,
      Nat.mod_lt _ (by decide)⟩)
  else (.fault, s)

def rewind (n : ℕ) : StreamOutput × DataStream :=
  if s.nReadPos < n then (.returned false, s)
  else (.returned true, ⟨s.vch, s.nReadPos - n, s.state, (Nat.sub_le _ _).trans s.inside,
    (Nat.sub_le _ _).trans_lt s.narrow⟩)

def compact : DataStream := ⟨s.vch.drop s.nReadPos, 0, s.state, Nat.zero_le _, by decide⟩

/-- `operator+=` -/
def append (b : DataStream) : DataStream := s.insertEnd (b.vch.drop b.nReadPos)

/-- `Serialize` into another stream, for which the size becomes an `int`. -/
def serialize (dst : DataStream) : StreamOutput × DataStream :=
  if s.vch.isEmpty then (.done, dst) else dst.write s.vch ((s.vch.length : ℤ).bmod (2 ^ 32))

end DataStream

/-- The calls on a stream; sizes of type `int` are not negative, as is asserted. -/
inductive StreamOp where
  | write (pch : List UInt8) (hsize : pch.length < 2 ^ 31)
  | read (nSize : ℕ) (hsize : nSize < 2 ^ 31)
  | ignore (nSize : ℕ) (hsize : nSize < 2 ^ 31)
  | insertOne (x : UInt8)
  | insertMany (n : ℕ) (x : UInt8)
  | insertRange (b : List UInt8)
  | eraseOne
  | eraseRange (n : ℕ)
  | rewind (n : ℕ)
  | compact
  | append (b : DataStream)
  | serialize (b : DataStream)

namespace DataStream

/-- One call. -/
def step (s : DataStream) : StreamOp → StreamOutput × DataStream
  | .write pch _ => s.write pch pch.length
  | .read nSize _ => s.read nSize
  | .ignore nSize _ => s.ignore nSize
  | .insertOne x => (.done, s.insertFront [x])
  | .insertMany n x => (.done, s.insertFront (List.replicate n x))
  | .insertRange b => s.insertRange b
  | .eraseOne => s.eraseOne
  | .eraseRange n => s.eraseRange n
  | .rewind n => s.rewind n
  | .compact => (.done, s.compact)
  | .append b => (.done, s.append b)
  | .serialize b => b.serialize s

def run (s : DataStream) : List StreamOp → List StreamOutput × DataStream
  | [] => ([], s)
  | op :: ops =>
    let next := s.step op
    let rest := run next.2 ops
    (next.1 :: rest.1, rest.2)

end DataStream

/-- What a call does to a queue of bytes. -/
def queueStep (q : RewindQueue UInt8) : StreamOp → StreamOutput × RewindQueue UInt8
  | .write pch _ => (.done, q.push pch)
  | .read nSize _ =>
    if nSize ≤ q.unread.length then (.delivered (q.unread.take nSize), q.consume nSize)
    else (.thrown, q)
  | .ignore nSize _ => if nSize ≤ q.unread.length then (.done, q.consume nSize) else (.thrown, q)
  | .insertOne x => (.done, q.insert [x])
  | .insertMany n x => (.done, q.insert (List.replicate n x))
  | .insertRange b =>
    if b.length ≤ q.past.length then (.done, q.overwrite b) else (.done, q.insert b)
  | .eraseOne => (.done, q.consume 1)
  | .eraseRange n => if n ≤ q.unread.length then (.done, q.consume n) else (.fault, q)
  | .rewind n => if n ≤ q.past.length then (.returned true, q.rewind n) else (.returned false, q)
  | .compact => (.done, q.forget)
  | .append b => (.done, q.push b.view.unread)
  | .serialize b => (.done, q.push b.view.unread)

def queueRun (q : RewindQueue UInt8) : List StreamOp → List StreamOutput × RewindQueue UInt8
  | [] => ([], q)
  | op :: ops =>
    let next := queueStep q op
    let rest := queueRun next.2 ops
    (next.1 :: rest.1, rest.2)

namespace DataStream

/-- The call does to the stream what it does to its queue. -/
def Right (s : DataStream) (op : StreamOp) : Prop :=
  (s.step op).1 = (queueStep s.view op).1 ∧ (s.step op).2.view = (queueStep s.view op).2

/-- No position wraps, and a stream that is written was not read from and fits an `int`. -/
def Meets (s : DataStream) : StreamOp → Prop
  | .read nSize _ => s.nReadPos + nSize < 2 ^ 32
  | .ignore nSize _ => s.nReadPos + nSize < 2 ^ 32
  | .insertRange b => b.length < 2 ^ 32 ∨ s.nReadPos < b.length % 2 ^ 32
  | .eraseOne => s.nReadPos + 1 < 2 ^ 32
  | .eraseRange n => s.nReadPos + n < 2 ^ 32 ∨ s.vch.length ≤ s.nReadPos + n
  | .serialize b => b.vch = [] ∨ b.nReadPos = 0 ∧ b.vch.length < 2 ^ 31
  | _ => True

/-- All calls of a run meet the condition. -/
def MeetsAll (s : DataStream) : List StreamOp → Prop
  | [] => True
  | op :: ops => s.Meets op ∧ MeetsAll (s.step op).2 ops

/-- After every number of the calls the stream has given what the queue has, and holds it. -/
def Follows (s : DataStream) (ops : List StreamOp) : Prop :=
  ∀ n, (s.run (ops.take n)).1 = (queueRun s.view (ops.take n)).1 ∧
    (s.run (ops.take n)).2.view = (queueRun s.view (ops.take n)).2

variable (s : DataStream)

theorem length_past : s.view.past.length = s.nReadPos := RewindQueue.length_past_split s.inside

theorem length_unread : s.view.unread.length = s.vch.length - s.nReadPos :=
  RewindQueue.length_unread_split _ _

theorem view_insertEnd (b : List UInt8) : (s.insertEnd b).view = s.view.push b :=
  (RewindQueue.split_push s.inside).symm

theorem view_insertFront (b : List UInt8) : (s.insertFront b).view = s.view.insert b :=
  (RewindQueue.split_insert s.inside).symm

theorem throws_setstate : (s.setstate failbit).throws = true := by
  rw [throws, bne_iff_ne]
  intro h
  have hbit := congrArg (BitVec.getLsbD · 2) h
  simp [setstate, failbit, exceptmask, badbit] at hbit

theorem right_read_iff {nSize : ℕ} (hsize : nSize < 2 ^ 31) :
    s.Right (.read nSize hsize) ↔ s.Meets (.read nSize hsize) := by
  have hinside := s.inside
  have hnarrow := s.narrow
  have hunread := s.length_unread
  change (s.read nSize).1 = (queueStep s.view (.read nSize hsize)).1 ∧
    (s.read nSize).2.view = (queueStep s.view (.read nSize hsize)).2 ↔ s.nReadPos + nSize < 2 ^ 32
  rw [queueStep, read, hunread]
  by_cases hlt : s.nReadPos + nSize < 2 ^ 32
  · refine iff_of_true ?_ hlt
    have hnext : (s.nReadPos + nSize) % 2 ^ 32 = s.nReadPos + nSize := Nat.mod_eq_of_lt hlt
    split_ifs with hle hpast hthrows hfits hfits hfits hfault hfits hfits
    · omega
    · exact ⟨rfl, rfl⟩
    · exact absurd s.throws_setstate hthrows
    · exact absurd s.throws_setstate hthrows
    · exact ⟨rfl, (RewindQueue.split_consume_of_le (by omega)).symm⟩
    · omega
    · rw [size] at hfault
      omega
    · rw [size] at hfault
      omega
    · refine ⟨rfl, ?_⟩
      change RewindQueue.split s.vch ((s.nReadPos + nSize) % 2 ^ 32) = s.view.consume nSize
      rw [hnext]
      exact (RewindQueue.split_consume_of_lt (by omega)).symm
    · omega
  · refine iff_of_false ?_ hlt
    have hnext : (s.nReadPos + nSize) % 2 ^ 32 = s.nReadPos + nSize - 2 ^ 32 := by omega
    rw [dif_neg (by omega)]
    rintro ⟨hout, hview⟩
    split_ifs at hout hview with hfault hfits
    have hlen := congrArg (fun q => q.unread.length) hview
    simp only [view, RewindQueue.length_unread_consume, RewindQueue.length_unread_split] at hlen
    omega

theorem right_ignore_iff {nSize : ℕ} (hsize : nSize < 2 ^ 31) :
    s.Right (.ignore nSize hsize) ↔ s.Meets (.ignore nSize hsize) := by
  have hinside := s.inside
  have hnarrow := s.narrow
  have hunread := s.length_unread
  change (s.ignore nSize).1 = (queueStep s.view (.ignore nSize hsize)).1 ∧
    (s.ignore nSize).2.view = (queueStep s.view (.ignore nSize hsize)).2 ↔
      s.nReadPos + nSize < 2 ^ 32
  rw [queueStep, ignore, hunread]
  by_cases hlt : s.nReadPos + nSize < 2 ^ 32
  · refine iff_of_true ?_ hlt
    have hnext : (s.nReadPos + nSize) % 2 ^ 32 = s.nReadPos + nSize := Nat.mod_eq_of_lt hlt
    split_ifs with hle hpast hthrows hfits hfits hfits hfits
    · omega
    · exact ⟨rfl, rfl⟩
    · exact absurd s.throws_setstate hthrows
    · exact absurd s.throws_setstate hthrows
    · exact ⟨rfl, (RewindQueue.split_consume_of_le (by omega)).symm⟩
    · omega
    · refine ⟨rfl, ?_⟩
      change RewindQueue.split s.vch ((s.nReadPos + nSize) % 2 ^ 32) = s.view.consume nSize
      rw [hnext]
      exact (RewindQueue.split_consume_of_lt (by omega)).symm
    · omega
  · refine iff_of_false ?_ hlt
    have hnext : (s.nReadPos + nSize) % 2 ^ 32 = s.nReadPos + nSize - 2 ^ 32 := by omega
    rw [dif_neg (by omega)]
    rintro ⟨hout, hview⟩
    split_ifs at hout hview with hfits
    have hlen := congrArg (fun q => q.unread.length) hview
    simp only [view, RewindQueue.length_unread_consume, RewindQueue.length_unread_split] at hlen
    omega

theorem right_insertRange_iff (b : List UInt8) :
    s.Right (.insertRange b) ↔ s.Meets (.insertRange b) := by
  have hinside := s.inside
  have hnarrow := s.narrow
  have hpast := s.length_past
  change (s.insertRange b).1 = (queueStep s.view (.insertRange b)).1 ∧
    (s.insertRange b).2.view = (queueStep s.view (.insertRange b)).2 ↔
      b.length < 2 ^ 32 ∨ s.nReadPos < b.length % 2 ^ 32
  rw [queueStep, insertRange, hpast]
  by_cases hroom : b.length % 2 ^ 32 ≤ s.nReadPos
  · rw [if_pos hroom]
    by_cases hlt : b.length < 2 ^ 32
    · have hmod : b.length % 2 ^ 32 = b.length := Nat.mod_eq_of_lt hlt
      refine iff_of_true ?_ (.inl hlt)
      have hb : b.length ≤ s.nReadPos := hmod ▸ hroom
      have hsplit := RewindQueue.split_overwrite hb hinside
      rw [if_pos hb]
      simp only [hmod, Nat.sub_add_cancel hb]
      rw [dif_pos hinside]
      exact ⟨rfl, hsplit.symm⟩
    · refine iff_of_false ?_ (by omega)
      rw [if_neg (by omega)]
      dsimp only
      rintro ⟨hout, hview⟩
      split_ifs at hout hview with hfits
      have hlen := congrArg (fun q => q.unread.length) hview
      simp only [length_unread, RewindQueue.insert, List.length_append, List.length_take,
        List.length_drop] at hlen
      omega
  · rw [if_neg hroom, if_neg (by omega)]
    refine iff_of_true ⟨rfl, s.view_insertFront b⟩ (.inr (by omega))

theorem right_eraseOne_iff : s.Right .eraseOne ↔ s.Meets .eraseOne := by
  have hinside := s.inside
  have hnarrow := s.narrow
  change s.eraseOne.1 = .done ∧ s.eraseOne.2.view = s.view.consume 1 ↔ s.nReadPos + 1 < 2 ^ 32
  rw [eraseOne]
  by_cases hlt : s.nReadPos + 1 < 2 ^ 32
  · refine iff_of_true ?_ hlt
    have hnext : (s.nReadPos + 1) % 2 ^ 32 = s.nReadPos + 1 := Nat.mod_eq_of_lt hlt
    split_ifs with hle
    · exact ⟨rfl, (RewindQueue.split_consume_of_le (by omega)).symm⟩
    · refine ⟨rfl, ?_⟩
      change RewindQueue.split s.vch ((s.nReadPos + 1) % 2 ^ 32) = s.view.consume 1
      rw [hnext]
      exact (RewindQueue.split_consume_of_lt (by omega)).symm
  · refine iff_of_false ?_ hlt
    rintro ⟨-, hview⟩
    have hlen := congrArg (fun q => q.unread.length) hview
    split_ifs at hlen with hle
    · omega
    · simp only [length_unread, RewindQueue.length_unread_consume] at hlen
      omega

theorem right_eraseRange_iff (n : ℕ) : s.Right (.eraseRange n) ↔ s.Meets (.eraseRange n) := by
  have hinside := s.inside
  have hnarrow := s.narrow
  have hunread := s.length_unread
  change (s.eraseRange n).1 = (queueStep s.view (.eraseRange n)).1 ∧
    (s.eraseRange n).2.view = (queueStep s.view (.eraseRange n)).2 ↔
      s.nReadPos + n < 2 ^ 32 ∨ s.vch.length ≤ s.nReadPos + n
  rw [queueStep, eraseRange, hunread]
  by_cases hfits : s.nReadPos + n ≤ s.vch.length
  · have hroom : n ≤ s.vch.length - s.nReadPos := by omega
    rw [dif_pos hfits, if_pos hroom]
    by_cases hall : s.nReadPos + n = s.vch.length
    · rw [if_pos hall]
      exact iff_of_true ⟨rfl, (RewindQueue.split_consume_of_le hall.ge).symm⟩ (.inr hall.ge)
    · rw [if_neg hall]
      have hview : (RewindQueue.split s.vch (s.nReadPos + n)) = s.view.consume n :=
        (RewindQueue.split_consume_of_lt (by omega)).symm
      constructor
      · rintro ⟨-, h⟩
        have hlen := congrArg (fun q => q.unread.length) (h.trans hview.symm)
        simp only [length_unread, RewindQueue.length_unread_split] at hlen
        omega
      · intro h
        have hnext : (s.nReadPos + n) % 2 ^ 32 = s.nReadPos + n := Nat.mod_eq_of_lt (by omega)
        refine ⟨rfl, ?_⟩
        change RewindQueue.split s.vch ((s.nReadPos + n) % 2 ^ 32) = s.view.consume n
        rw [hnext, hview]
  · rw [dif_neg hfits, if_neg (by omega)]
    exact iff_of_true ⟨rfl, rfl⟩ (.inr (by omega))

theorem right_rewind (n : ℕ) : s.Right (.rewind n) := by
  have hpast := s.length_past
  change (s.rewind n).1 = (queueStep s.view (.rewind n)).1 ∧
    (s.rewind n).2.view = (queueStep s.view (.rewind n)).2
  rw [queueStep, rewind, hpast]
  split_ifs with hlt hle hle
  · omega
  · exact ⟨rfl, rfl⟩
  · exact ⟨rfl, (RewindQueue.split_rewind hle s.inside).symm⟩
  · omega

theorem right_write {pch : List UInt8} (hsize : pch.length < 2 ^ 31) :
    s.Right (.write pch hsize) := by
  change (s.write pch pch.length).1 = .done ∧ (s.write pch pch.length).2.view = s.view.push pch
  rw [write, if_neg (by omega), Int.toNat_natCast, List.take_length]
  exact ⟨rfl, s.view_insertEnd pch⟩

theorem right_serialize_iff (b : DataStream) : s.Right (.serialize b) ↔ s.Meets (.serialize b) := by
  have hinside := b.inside
  have hnarrow := b.narrow
  have hunread := b.length_unread
  have hbmod := Int.bmod_def b.vch.length (2 ^ 32)
  change (b.serialize s).1 = .done ∧ (b.serialize s).2.view = s.view.push b.view.unread ↔
    b.vch = [] ∨ b.nReadPos = 0 ∧ b.vch.length < 2 ^ 31
  rw [serialize]
  by_cases hempty : b.vch = []
  · have hnone : b.view.unread = [] := by rw [view, RewindQueue.split, hempty, List.drop_nil]
    rw [hempty, List.isEmpty_nil, if_pos rfl, hnone, RewindQueue.push, List.append_nil]
    exact iff_of_true ⟨rfl, rfl⟩ (.inl rfl)
  · rw [if_neg (by rwa [List.isEmpty_iff]), write, or_iff_right hempty]
    constructor
    · rintro ⟨hout, hview⟩
      split_ifs at hout hview with hneg
      have hlen := congrArg (fun q => q.unread.length) hview
      simp only [view_insertEnd, RewindQueue.push, List.length_append, List.length_take,
        hunread] at hlen
      split_ifs at hbmod <;> omega
    · rintro ⟨hpos, hsmall⟩
      have hsize : (b.vch.length : ℤ).bmod (2 ^ 32) = b.vch.length := by
        split_ifs at hbmod <;> omega
      have hall : b.view.unread = b.vch := by rw [view, RewindQueue.split, hpos, List.drop_zero]
      rw [hsize, if_neg (by omega), Int.toNat_natCast, List.take_length, hall]
      exact ⟨rfl, s.view_insertEnd b.vch⟩

theorem right_iff (op : StreamOp) : s.Right op ↔ s.Meets op := by
  cases op with
  | write pch hsize => exact iff_of_true (s.right_write hsize) trivial
  | read nSize hsize => exact s.right_read_iff hsize
  | ignore nSize hsize => exact s.right_ignore_iff hsize
  | insertOne x => exact iff_of_true ⟨rfl, s.view_insertFront [x]⟩ trivial
  | insertMany n x => exact iff_of_true ⟨rfl, s.view_insertFront (List.replicate n x)⟩ trivial
  | insertRange b => exact s.right_insertRange_iff b
  | eraseOne => exact s.right_eraseOne_iff
  | eraseRange n => exact s.right_eraseRange_iff n
  | rewind n => exact iff_of_true (s.right_rewind n) trivial
  | compact => exact iff_of_true ⟨rfl, rfl⟩ trivial
  | append b => exact iff_of_true ⟨rfl, s.view_insertEnd b.view.unread⟩ trivial
  | serialize b => exact s.right_serialize_iff b

theorem follows_nil : s.Follows [] := by
  intro n
  rw [List.take_nil]
  exact ⟨rfl, rfl⟩

theorem follows_cons (op : StreamOp) (ops : List StreamOp) :
    s.Follows (op :: ops) ↔ s.Right op ∧ (s.step op).2.Follows ops := by
  constructor
  · intro h
    obtain ⟨hout, hview⟩ := h 1
    have hright : s.Right op := ⟨(List.cons.inj hout).1, hview⟩
    refine ⟨hright, ?_⟩
    intro n
    obtain ⟨houts, hviews⟩ := h (n + 1)
    rw [List.take_succ_cons, run, queueRun, ← hright.2] at houts hviews
    exact ⟨(List.cons.inj houts).2, hviews⟩
  · rintro ⟨⟨hout, hview⟩, hrest⟩ n
    cases n with
    | zero => exact ⟨rfl, rfl⟩
    | succ n =>
      rw [List.take_succ_cons, run, queueRun, ← hview]
      exact ⟨congrArg₂ List.cons hout (hrest n).1, (hrest n).2⟩

end DataStream

/-- A stream is the queue through a run exactly when all calls of the run meet the condition. -/
theorem dataStream_run (s : DataStream) (ops : List StreamOp) : s.Follows ops ↔ s.MeetsAll ops := by
  induction ops generalizing s with
  | nil => exact iff_of_true s.follows_nil trivial
  | cons op ops ih => rw [s.follows_cons, s.right_iff, ih, DataStream.MeetsAll]

/-- A stream of which one byte was read, which is written into an empty one. -/
theorem dataStream_serialize_read :
    (((DataStream.init [1, 2]).read 1).2.view.unread = [2] ∧
      ((DataStream.init []).step (.serialize ((DataStream.init [1, 2]).read 1).2)).2.view.unread =
        [1, 2]) ∧
      ¬ (DataStream.init []).Follows [.serialize ((DataStream.init [1, 2]).read 1).2] := by
  have hread : ((DataStream.init [1, 2]).read 1).2.view.unread = [2] := by decide
  have hwritten : ((DataStream.init []).step
      (.serialize ((DataStream.init [1, 2]).read 1).2)).2.view.unread = [1, 2] := by decide
  refine ⟨⟨hread, hwritten⟩, ?_⟩
  intro h
  have hunread := congrArg RewindQueue.unread (h 1).2
  exact absurd (hwritten.symm.trans hunread) (by decide)

end Beancash
