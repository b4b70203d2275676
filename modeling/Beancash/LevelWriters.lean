import Beancash.LevelLog
import Beancash.LevelMemTable

namespace LevelDB

open KeyValue VersionedStore

/-- A thread in `Write`, with the operations of its batch. -/
structure Writer where
  ops : List LevelOp
  sync : Bool

def Writer.batch (w : Writer) : LevelBatch := .ofOps w.ops

/-- How a write ends. It is refused after an earlier write failed to be synced. -/
inductive WriteStatus where
  | ok
  | syncError
  | corruption (reason : String)
  | refused
deriving DecidableEq

namespace LevelBatch

def byteSize (b : LevelBatch) : ℕ := b.rep.length

end LevelBatch

/-- The loop of `BuildBatchGroup` over the threads behind the first one: the batch, and how many
threads it is of. -/
def buildGroup (first : Writer) (maxSize size : ℕ) (result : LevelBatch) (n : ℕ) :
    List Writer → LevelBatch × ℕ
  | [] => (result, n)
  | w :: writers =>
    -- a write that is synced is not left to one that is not
    if w.sync ∧ ¬first.sync then (result, n)
    else if maxSize < size + w.batch.byteSize then (result, n)
    else
      -- the first batch itself is left as it is
      let result := if n = 1 then LevelBatch.empty.append result else result
      buildGroup first maxSize (size + w.batch.byteSize) (result.append w.batch) (n + 1) writers

def buildBatchGroup (first : Writer) (writers : List Writer) : LevelBatch × ℕ :=
  let size := first.batch.byteSize
  let maxSize := if size ≤ 128 * 2 ^ 10 then size + 128 * 2 ^ 10 else 2 ^ 20
  buildGroup first maxSize size first.batch 1 writers

/-- What the first thread logs: the batch, the number of threads it is of, and how it went, once that
is known. -/
structure Logging where
  batch : LevelBatch
  threads : ℕ
  status : Option WriteStatus

/-- The database as its writers see it, with the part of the log that is synced, and the writes that
are done. -/
structure WriteQueue where
  writers : List Writer
  logging : Option Logging
  log : LogWriter
  synced : ℕ
  mem : MemTable
  lastSequence : UInt64
  bgError : Bool
  done : List (Writer × WriteStatus)

/-- A thread comes, the first one logs what it can, syncs the log and inserts the batch without the
mutex, and takes the mutex again. Meanwhile a compaction may fail. -/
inductive WriteEvent where
  | queue (w : Writer)
  | log
  | apply (synced : Bool)
  | finish
  | fail

namespace WriteQueue

/-- A new log, after the writes up to `lastSequence`. -/
def init (lastSequence : UInt64) : WriteQueue :=
  ⟨[], none, .empty, 0, .empty, lastSequence, false, []⟩

/-- The first thread, up to where it has added its batch to the log. -/
def startLog (s : WriteQueue) : WriteQueue :=
  match s.writers, s.logging with
  | first :: writers, none =>
    if s.bgError then { s with writers := writers, done := s.done ++ [(first, .refused)] }
    else
      let group := buildBatchGroup first writers
      let batch := group.1.setSequence (s.lastSequence + 1)
      { s with logging := some ⟨batch, group.2, none⟩, log := s.log.addRecord batch.rep }
  | _, _ => s

/-- `InsertInto` as a status. -/
def insertStatus : Option String → WriteStatus
  | none => .ok
  | some reason => .corruption reason

/-- The log is synced, if the first thread wants that, and the batch is inserted. -/
def applyLog (s : WriteQueue) (synced : Bool) : WriteQueue :=
  match s.writers, s.logging with
  | first :: _, some ⟨batch, threads, none⟩ =>
    if first.sync ∧ ¬synced then { s with logging := some ⟨batch, threads, some .syncError⟩ }
    else
      let inserted := s.mem.insertBatch batch
      { s with
        logging := some ⟨batch, threads, some (insertStatus inserted.2)⟩
        synced := if first.sync then s.log.dest.length else s.synced
        mem := inserted.1 }
  | _, _ => s

/-- With the mutex again, the threads of the batch are done. -/
def finishLog (s : WriteQueue) : WriteQueue :=
  match s.logging with
  | some ⟨batch, threads, some status⟩ =>
    { s with
      writers := s.writers.drop threads
      logging := none
      lastSequence := s.lastSequence + batch.count.toInt64.toUInt64
      bgError := s.bgError || decide (status = .syncError)
      done := s.done ++ (s.writers.take threads).map (·, status) }
  | _ => s

def step (s : WriteQueue) : WriteEvent → WriteQueue
  | .queue w => { s with writers := s.writers ++ [w] }
  | .log => s.startLog
  | .apply synced => s.applyLog synced
  | .finish => s.finishLog
  | .fail => { s with bgError := true }

/-- The writes that went well. -/
def acknowledged (s : WriteQueue) : List Writer :=
  (s.done.filter fun p => decide (p.2 = .ok)).map Prod.fst

end WriteQueue

/-- The operations of some threads. -/
def opsOf (writers : List Writer) : List LevelOp := writers.flatMap Writer.ops

/-- The batch of some threads, numbered from `seq` on. -/
def groupBatch (seq : UInt64) (writers : List Writer) : LevelBatch :=
  .repOf seq (.ofNat (opsOf writers).length) (opsOf writers)

theorem opsOf_append (writers writers' : List Writer) :
    opsOf (writers ++ writers') = opsOf writers ++ opsOf writers' := List.flatMap_append

theorem batch_eq (w : Writer) : w.batch = groupBatch 0 [w] := by
  rw [Writer.batch, LevelBatch.ofOps_eq, groupBatch, opsOf, List.flatMap_singleton]

theorem groupBatch_append (seq : UInt64) (writers : List Writer) (w : Writer) :
    (groupBatch seq writers).append w.batch = groupBatch seq (writers ++ [w]) := by
  rw [batch_eq, groupBatch, groupBatch, LevelBatch.append_repOf, groupBatch, opsOf_append,
    List.length_append, Int32.ofNat_add]

theorem length_ops_le (w : Writer) : w.ops.length ≤ w.batch.byteSize := by
  have hop : ∀ op, 1 ≤ (LevelBatch.opBytes op).length := by
    intro op
    cases op <;> exact Nat.succ_le_succ (Nat.zero_le _)
  have hops : ∀ ops : List LevelOp, ops.length ≤ (ops.flatMap LevelBatch.opBytes).length := by
    intro ops
    induction ops with
    | nil => exact Nat.le_refl _
    | cons op ops ih =>
      rw [List.flatMap_cons, List.length_append, List.length_cons, Nat.add_comm]
      exact Nat.add_le_add (hop op) ih
  rw [LevelBatch.byteSize, Writer.batch, LevelBatch.ofOps_eq, LevelBatch.repOf, List.length_append,
    List.length_append]
  exact (hops w.ops).trans ((Nat.le_add_left _ _).trans (Nat.le_add_left _ _))

theorem length_opsOf (w : Writer) : (opsOf [w]).length = w.ops.length := by
  rw [opsOf, List.flatMap_singleton]

/-- The threads from the front that the loop takes along. Unless it takes none, what it has is not too
large, and a thread that does not sync takes none along that does. -/
structure Taken (first : Writer) (maxSize : ℕ) (group writers taken : List Writer)
    (result : LevelBatch × ℕ) : Prop where
  front : taken <+: writers
  result_eq : result = (groupBatch 0 (group ++ taken), (group ++ taken).length)
  sync : first.sync = false → ∀ w ∈ taken, w.sync = false
  size_le : taken = [] ∨ (opsOf (group ++ taken)).length ≤ maxSize

theorem Taken.none (first : Writer) (maxSize : ℕ) (group writers : List Writer) :
    Taken first maxSize group writers [] (groupBatch 0 group, group.length) where
  front := List.nil_prefix
  result_eq := by rw [List.append_nil]
  sync _ w hw := by cases hw
  size_le := .inl rfl

theorem append_empty (group : List Writer) :
    LevelBatch.empty.append (groupBatch 0 group) = groupBatch 0 group := by
  have hempty : LevelBatch.empty = .repOf 0 0 [] := by decide
  rw [hempty, groupBatch, LevelBatch.append_repOf, Int32.zero_add, List.nil_append]

theorem exists_taken {first : Writer} {maxSize size : ℕ} {group : List Writer}
    (hsize : (opsOf group).length ≤ size) (writers : List Writer) :
    ∃ taken, Taken first maxSize group writers taken
      (buildGroup first maxSize size (groupBatch 0 group) group.length writers) := by
  induction writers generalizing size group with
  | nil => exact ⟨[], .none first maxSize group []⟩
  | cons w writers ih =>
    have hlength : (opsOf (group ++ [w])).length ≤ size + w.batch.byteSize := by
      rw [opsOf_append, List.length_append, length_opsOf]
      exact Nat.add_le_add hsize (length_ops_le w)
    have hresult : (if group.length = 1 then LevelBatch.empty.append (groupBatch 0 group)
        else groupBatch 0 group).append w.batch = groupBatch 0 (group ++ [w]) := by
      rw [append_empty, ite_self, groupBatch_append]
    rw [buildGroup]
    by_cases hsync : w.sync = true ∧ ¬first.sync = true
    · rw [if_pos hsync]
      exact ⟨[], .none first maxSize group _⟩
    · rw [if_neg hsync]
      by_cases hlarge : maxSize < size + w.batch.byteSize
      · rw [if_pos hlarge]
        exact ⟨[], .none first maxSize group _⟩
      · rw [if_neg hlarge]
        obtain ⟨taken, htaken⟩ := ih hlength
        rw [List.length_append, ← hresult] at htaken
        refine ⟨w :: taken, List.cons_prefix_cons.mpr ⟨rfl, htaken.front⟩, ?_, ?_, ?_⟩
        · rw [List.append_cons]
          exact htaken.result_eq
        · intro hfirst w' hw'
          rcases List.mem_cons.mp hw' with rfl | hw'
          · rw [hfirst, not_and_not_right] at hsync
            exact Bool.eq_false_iff.mpr fun h => absurd (hsync h) Bool.false_ne_true
          · exact htaken.sync hfirst w' hw'
        · rw [List.append_cons]
          rcases htaken.size_le with rfl | hle
          · rw [List.append_nil]
            exact .inr (hlength.trans (Nat.not_lt.mp hlarge))
          · exact .inr hle

/-- A group of the threads at the front of the queue. If it is of several threads, they all go without a
sync if the first one does. -/
structure Group (first : Writer) (writers : List Writer) : Prop where
  sync : first.sync = false → ∀ w ∈ first :: writers, w.sync = false
  count_lt : (opsOf (first :: writers)).length < 2 ^ 31

theorem exists_group (first : Writer) (writers : List Writer) (hfirst : first.ops.length < 2 ^ 31) :
    ∃ taken rest, writers = taken ++ rest ∧ Group first taken ∧
      buildBatchGroup first writers =
        (groupBatch 0 (first :: taken), (first :: taken).length) := by
  have hlarge : ∀ size : ℕ, (if size ≤ 128 * 2 ^ 10 then size + 128 * 2 ^ 10 else 2 ^ 20) < 2 ^ 31 := by
    intro size
    split_ifs <;> omega
  have hsize : (opsOf [first]).length ≤ first.batch.byteSize := by
    rw [length_opsOf]
    exact length_ops_le first
  have hbuild : ∃ taken, Taken first
      (if first.batch.byteSize ≤ 128 * 2 ^ 10 then first.batch.byteSize + 128 * 2 ^ 10 else 2 ^ 20)
      [first] writers taken (buildBatchGroup first writers) := by
    obtain ⟨taken, htaken⟩ := exists_taken hsize writers
    rw [← batch_eq] at htaken
    exact ⟨taken, htaken⟩
  obtain ⟨taken, htaken⟩ := hbuild
  obtain ⟨rest, hrest⟩ := htaken.front
  refine ⟨taken, rest, hrest.symm, ⟨?_, ?_⟩, ?_⟩
  · intro hfalse w hw
    rcases List.mem_cons.mp hw with rfl | hw
    · exact hfalse
    · exact htaken.sync hfalse w hw
  · rcases htaken.size_le with rfl | hle
    · rw [length_opsOf]
      exact hfirst
    · exact Nat.lt_of_le_of_lt hle (hlarge _)
  · exact htaken.result_eq

/-- The number of the last write of some groups. -/
def seqAfter (L : UInt64) (groups : List (List Writer)) : UInt64 :=
  L + .ofNat (opsOf groups.flatten).length

/-- The records of some groups, after the writes up to `L`. -/
def records (L : UInt64) : List (List Writer) → List (List UInt8)
  | [] => []
  | g :: groups => (groupBatch (L + 1) g).rep :: records (seqAfter L [g]) groups

/-- The log of some groups. -/
def logOf (L : UInt64) (groups : List (List Writer)) : LogWriter :=
  (records L groups).foldl LogWriter.addRecord .empty

theorem seqAfter_cons (L : UInt64) (g : List Writer) (groups : List (List Writer)) :
    seqAfter L (g :: groups) = seqAfter (seqAfter L [g]) groups := by
  rw [seqAfter, seqAfter, seqAfter, List.flatten_cons, opsOf_append, List.length_append,
    UInt64.ofNat_add, List.flatten_singleton, UInt64.add_assoc]

theorem records_concat (L : UInt64) (groups : List (List Writer)) (g : List Writer) :
    records L (groups ++ [g]) = records L groups ++ [(groupBatch (seqAfter L groups + 1) g).rep] := by
  induction groups generalizing L with
  | nil =>
    rw [List.nil_append, records, records, records, seqAfter, List.flatten_nil]
    simp [opsOf]
  | cons g' groups ih => rw [List.cons_append, records, ih, records, seqAfter_cons L g' groups,
    List.cons_append]

theorem logOf_concat (L : UInt64) (groups : List (List Writer)) (g : List Writer) :
    logOf L (groups ++ [g]) =
      (logOf L groups).addRecord (groupBatch (seqAfter L groups + 1) g).rep := by
  rw [logOf, records_concat, List.foldl_append, List.foldl_cons, List.foldl_nil, logOf]

theorem seqAfter_concat (L : UInt64) (groups : List (List Writer)) {g : List Writer}
    (hcount : (opsOf g).length < 2 ^ 31) (seq : UInt64) :
    seqAfter L groups + (groupBatch seq g).count.toInt64.toUInt64 = seqAfter L (groups ++ [g]) := by
  have hle : ((opsOf g).length : ℤ) ≤ Int32.maxValue.toInt := by
    change ((opsOf g).length : ℤ) ≤ 2147483647
    omega
  rw [groupBatch, LevelBatch.count_repOf, Int32.toInt64_ofNat' hle, Int64.toUInt64_ofNat', seqAfter,
    seqAfter, List.flatten_append, List.flatten_singleton, opsOf_append, List.length_append,
    UInt64.ofNat_add, UInt64.add_assoc]

/-- The operations can be written, and their numbers do not run out. -/
structure Fits (L : UInt64) (queued : List Writer) : Prop where
  sized : ∀ op ∈ opsOf queued, LevelBatch.SizedOp op
  count_lt : ∀ w ∈ queued, w.ops.length < 2 ^ 31
  numbers : L.toNat + (opsOf queued).length < 2 ^ 56

theorem Fits.front {L : UInt64} {queued rest : List Writer} (h : Fits L (queued ++ rest)) :
    Fits L queued where
  sized op hop := h.sized op (by rw [opsOf_append]; exact List.mem_append_left _ hop)
  count_lt w hw := h.count_lt w (List.mem_append_left _ hw)
  numbers := by
    have hlt := h.numbers
    rw [opsOf_append, List.length_append] at hlt
    omega

theorem toNat_seqAfter {L : UInt64} {groups : List (List Writer)} (h : Fits L groups.flatten) :
    (seqAfter L groups).toNat = L.toNat + (opsOf groups.flatten).length := by
  have hlt := h.numbers
  have hsize : UInt64.size = 2 ^ 64 := rfl
  rw [seqAfter, UInt64.toNat_add, UInt64.toNat_ofNat_of_lt' (by omega)]
  exact Nat.mod_eq_of_lt (by omega)

/-- After some groups were acknowledged: their operations are in the table, and what was to be synced
is in the part of the log that is. -/
structure Acked (L : UInt64) (groups : List (List Writer)) (mem : MemTable) (synced : ℕ) : Prop where
  count_lt : ∀ g ∈ groups, (opsOf g).length < 2 ^ 31
  filled : mem.Filled (L.toNat + 1) (opsOf groups.flatten)
  covered : ∃ m ≤ groups.length, (logOf L (groups.take m)).dest.length ≤ synced ∧
    ∀ w ∈ (groups.drop m).flatten, w.sync = false

/-- What a run can come to, by the threads that were queued. -/
inductive Stage (L : UInt64) : List Writer → WriteQueue → Prop
  | idle {groups : List (List Writer)} {mem : MemTable} {synced : ℕ} (hacked : Acked L groups mem synced)
      (writers : List Writer) :
      Stage L (groups.flatten ++ writers)
        ⟨writers, none, logOf L groups, synced, mem, seqAfter L groups, false,
          groups.flatten.map (·, .ok)⟩
  | logged {groups : List (List Writer)} {mem : MemTable} {synced : ℕ} (hacked : Acked L groups mem synced)
      {first : Writer} {taken : List Writer} (hgroup : Group first taken) (writers : List Writer)
      (bgError : Bool) :
      Stage L (groups.flatten ++ (first :: taken ++ writers))
        ⟨first :: taken ++ writers,
          some ⟨groupBatch (seqAfter L groups + 1) (first :: taken), (first :: taken).length, none⟩,
          logOf L (groups ++ [first :: taken]), synced, mem, seqAfter L groups, bgError,
          groups.flatten.map (·, .ok)⟩
  | applied {groups : List (List Writer)} {mem : MemTable} {synced : ℕ} {first : Writer}
      {taken : List Writer} (hacked : Acked L (groups ++ [first :: taken]) mem synced)
      (writers : List Writer) (bgError : Bool) :
      Stage L (groups.flatten ++ (first :: taken ++ writers))
        ⟨first :: taken ++ writers,
          some ⟨groupBatch (seqAfter L groups + 1) (first :: taken), (first :: taken).length, some .ok⟩,
          logOf L (groups ++ [first :: taken]), synced, mem, seqAfter L groups, bgError,
          groups.flatten.map (·, .ok)⟩
  | unsynced {groups : List (List Writer)} {mem : MemTable} {synced : ℕ}
      (hacked : Acked L groups mem synced) {first : Writer} {taken : List Writer}
      (hgroup : Group first taken) (writers : List Writer) (bgError : Bool) :
      Stage L (groups.flatten ++ (first :: taken ++ writers))
        ⟨first :: taken ++ writers,
          some ⟨groupBatch (seqAfter L groups + 1) (first :: taken), (first :: taken).length,
            some .syncError⟩,
          logOf L (groups ++ [first :: taken]), synced, mem, seqAfter L groups, bgError,
          groups.flatten.map (·, .ok)⟩
  | failed {groups : List (List Writer)} {mem : MemTable} {synced : ℕ} (hacked : Acked L groups mem synced)
      {last : List (List Writer)} (hlast : ∀ g ∈ last, (opsOf g).length < 2 ^ 31)
      (refused writers : List Writer) :
      Stage L (groups.flatten ++ (last.flatten ++ (refused ++ writers)))
        ⟨writers, none, logOf L (groups ++ last), synced, mem, seqAfter L (groups ++ last), true,
          groups.flatten.map (·, .ok) ++ (last.flatten.map (·, .syncError) ++
            refused.map (·, .refused))⟩

theorem acked_nil (L : UInt64) : Acked L [] .empty 0 where
  count_lt g hg := by cases hg
  filled := MemTable.filled_empty _
  covered := ⟨0, Nat.le_refl _, Nat.le_refl _, fun w hw => by cases hw⟩

/-- The threads that an event brings. -/
def WriteEvent.queued : WriteEvent → List Writer
  | .queue w => [w]
  | _ => []

theorem Acked.concat {L : UInt64} {groups : List (List Writer)} {mem : MemTable} {synced : ℕ}
    (h : Acked L groups mem synced) {first : Writer} {taken : List Writer} (hgroup : Group first taken)
    (hfits : Fits L (groups.flatten ++ (first :: taken))) :
    (mem.insertBatch (groupBatch (seqAfter L groups + 1) (first :: taken))).2 = none ∧
      Acked L (groups ++ [first :: taken])
        (mem.insertBatch (groupBatch (seqAfter L groups + 1) (first :: taken))).1
        (if first.sync then (logOf L (groups ++ [first :: taken])).dest.length else synced) := by
  have hflatten : (groups ++ [first :: taken]).flatten = groups.flatten ++ (first :: taken) := by
    rw [List.flatten_append, List.flatten_singleton]
  have hlt := hfits.numbers
  rw [opsOf_append, List.length_append] at hlt
  have hseq : (seqAfter L groups + 1).toNat = L.toNat + 1 + (opsOf groups.flatten).length := by
    rw [UInt64.toNat_add, toNat_seqAfter hfits.front]
    change (_ + 1) % 2 ^ 64 = _
    omega
  have hops : ∀ op ∈ opsOf (first :: taken), LevelBatch.SizedOp op := fun op hop =>
    hfits.sized op (by rw [opsOf_append]; exact List.mem_append_right _ hop)
  obtain ⟨hfilled, hnone⟩ := h.filled.insertBatch hseq hops hgroup.count_lt (by omega)
  refine ⟨hnone, ?_, ?_, ?_⟩
  · intro g hg
    rcases List.mem_append.mp hg with hg | hg
    · exact h.count_lt g hg
    · rw [List.mem_singleton.mp hg]
      exact hgroup.count_lt
  · rw [hflatten, opsOf_append]
    exact hfilled
  · obtain ⟨m, hm, hlog, hsync⟩ := h.covered
    by_cases hfirst : first.sync = true
    · refine ⟨(groups ++ [first :: taken]).length, Nat.le_refl _, ?_, ?_⟩
      · rw [if_pos hfirst, List.take_length]
      · rw [List.drop_length]
        exact fun w hw => by cases hw
    · refine ⟨m, hm.trans (by rw [List.length_append]; exact Nat.le_add_right _ _), ?_, ?_⟩
      · rw [if_neg hfirst, List.take_append_of_le_length hm]
        exact hlog
      · intro w hw
        rw [List.drop_append_of_le_length hm, List.flatten_append, List.flatten_singleton] at hw
        rcases List.mem_append.mp hw with hw | hw
        · exact hsync w hw
        · exact hgroup.sync (Bool.not_eq_true _ ▸ hfirst) w hw

namespace Stage

variable {L : UInt64} {queued : List Writer} {s : WriteQueue}

theorem queue (h : Stage L queued s) (w : Writer) :
    Stage L (queued ++ [w]) { s with writers := s.writers ++ [w] } := by
  cases h with
  | idle hacked writers =>
    rw [List.append_assoc]
    exact .idle hacked (writers ++ [w])
  | logged hacked hgroup writers bgError =>
    rw [List.append_assoc, List.append_assoc]
    exact .logged hacked hgroup (writers ++ [w]) bgError
  | applied hacked writers bgError =>
    rw [List.append_assoc, List.append_assoc]
    exact .applied hacked (writers ++ [w]) bgError
  | unsynced hacked hgroup writers bgError =>
    rw [List.append_assoc, List.append_assoc]
    exact .unsynced hacked hgroup (writers ++ [w]) bgError
  | failed hacked hlast refused writers =>
    rw [List.append_assoc, List.append_assoc, List.append_assoc]
    exact .failed hacked hlast refused (writers ++ [w])

theorem startLog (h : Stage L queued s) (hfits : Fits L queued) : Stage L queued s.startLog := by
  cases h with
  | @idle groups mem synced hacked writers =>
    cases writers with
    | nil => exact .idle hacked []
    | cons first writers =>
      obtain ⟨taken, rest, rfl, hgroup, hbuild⟩ := exists_group first writers
        (hfits.count_lt first (List.mem_append_right _ List.mem_cons_self))
      have hlogged := Stage.logged hacked hgroup rest false
      rw [logOf_concat] at hlogged
      rw [WriteQueue.startLog]
      simp only [hbuild, groupBatch, LevelBatch.setSequence_repOf] at hlogged ⊢
      exact hlogged
  | logged hacked hgroup writers bgError => exact .logged hacked hgroup writers bgError
  | applied hacked writers bgError => exact .applied hacked writers bgError
  | unsynced hacked hgroup writers bgError => exact .unsynced hacked hgroup writers bgError
  | failed hacked hlast refused writers =>
    cases writers with
    | nil => exact .failed hacked hlast refused []
    | cons first writers =>
      simpa [WriteQueue.startLog] using Stage.failed hacked hlast (refused ++ [first]) writers

theorem applyLog (h : Stage L queued s) (hfits : Fits L queued) (synced : Bool) :
    Stage L queued (s.applyLog synced) := by
  cases h with
  | @idle groups mem synced hacked writers =>
    cases writers with
    | nil => exact .idle hacked []
    | cons first writers => exact .idle hacked (first :: writers)
  | @logged groups mem _ hacked first taken hgroup writers bgError =>
    rw [List.cons_append, WriteQueue.applyLog]
    dsimp only
    by_cases hsync : first.sync = true ∧ ¬synced = true
    · rw [if_pos hsync]
      exact .unsynced hacked hgroup writers bgError
    · rw [← List.append_assoc] at hfits
      obtain ⟨hnone, hacked'⟩ := hacked.concat hgroup hfits.front
      rw [if_neg hsync, hnone]
      exact .applied hacked' writers bgError
  | applied hacked writers bgError => exact .applied hacked writers bgError
  | unsynced hacked hgroup writers bgError => exact .unsynced hacked hgroup writers bgError
  | failed hacked hlast refused writers =>
    cases writers with
    | nil => exact .failed hacked hlast refused []
    | cons first writers => exact .failed hacked hlast refused (first :: writers)

theorem of_failed {groups : List (List Writer)} {mem : MemTable} {synced : ℕ}
    (hacked : Acked L groups mem synced) (writers : List Writer) :
    Stage L (groups.flatten ++ writers)
      ⟨writers, none, logOf L groups, synced, mem, seqAfter L groups, true,
        groups.flatten.map (·, .ok)⟩ := by
  have hnil : ∀ g ∈ ([] : List (List Writer)), (opsOf g).length < 2 ^ 31 := fun g hg => by cases hg
  simpa using Stage.failed hacked hnil [] writers

theorem finishLog (h : Stage L queued s) : Stage L queued s.finishLog := by
  cases h with
  | idle hacked writers => exact .idle hacked writers
  | logged hacked hgroup writers bgError => exact .logged hacked hgroup writers bgError
  | @applied groups mem synced first taken hacked writers bgError =>
    have hcount := hacked.count_lt _ (List.mem_append_right groups (List.mem_singleton_self _))
    have hflatten : (groups ++ [first :: taken]).flatten = groups.flatten ++ (first :: taken) := by
      rw [List.flatten_append, List.flatten_singleton]
    rw [WriteQueue.finishLog]
    dsimp only
    rw [seqAfter_concat L groups hcount, List.take_left, List.drop_left, ← List.map_append,
      ← List.append_assoc, ← hflatten]
    cases bgError with
    | false => exact .idle hacked writers
    | true => exact .of_failed hacked writers
  | @unsynced groups mem synced hacked first taken hgroup writers bgError =>
    have hlast : ∀ g ∈ [first :: taken], (opsOf g).length < 2 ^ 31 := by
      intro g hg
      rw [List.mem_singleton.mp hg]
      exact hgroup.count_lt
    rw [WriteQueue.finishLog]
    dsimp only
    rw [seqAfter_concat L groups hgroup.count_lt, List.take_left, List.drop_left]
    simpa using Stage.failed hacked hlast [] writers
  | failed hacked hlast refused writers => exact .failed hacked hlast refused writers

theorem fail (h : Stage L queued s) : Stage L queued { s with bgError := true } := by
  cases h with
  | idle hacked writers => exact .of_failed hacked writers
  | logged hacked hgroup writers bgError => exact .logged hacked hgroup writers true
  | applied hacked writers bgError => exact .applied hacked writers true
  | unsynced hacked hgroup writers bgError => exact .unsynced hacked hgroup writers true
  | failed hacked hlast refused writers => exact .failed hacked hlast refused writers

theorem step (h : Stage L queued s) (e : WriteEvent) (hfits : Fits L (queued ++ e.queued)) :
    Stage L (queued ++ e.queued) (s.step e) := by
  cases e with
  | queue w => exact h.queue w
  | log =>
    have hnone : queued ++ WriteEvent.log.queued = queued := List.append_nil queued
    rw [hnone] at hfits ⊢
    exact h.startLog hfits
  | apply synced =>
    have hnone : queued ++ (WriteEvent.apply synced).queued = queued := List.append_nil queued
    rw [hnone] at hfits ⊢
    exact h.applyLog hfits synced
  | finish =>
    have hnone : queued ++ WriteEvent.finish.queued = queued := List.append_nil queued
    rw [hnone]
    exact h.finishLog
  | fail =>
    have hnone : queued ++ WriteEvent.fail.queued = queued := List.append_nil queued
    rw [hnone]
    exact h.fail

end Stage

/-- The threads that come in a run. -/
def queuedIn (events : List WriteEvent) : List Writer := events.flatMap WriteEvent.queued

namespace WriteQueue

/-- A run from a new log on. -/
def run (L : UInt64) (events : List WriteEvent) : WriteQueue := events.foldl step (init L)

end WriteQueue

open WriteQueue

theorem Stage.run {L : UInt64} {queued : List Writer} {s : WriteQueue} (h : Stage L queued s)
    (events : List WriteEvent) (hfits : Fits L (queued ++ queuedIn events)) :
    Stage L (queued ++ queuedIn events) (events.foldl WriteQueue.step s) := by
  induction events generalizing queued s with
  | nil =>
    rw [queuedIn, List.flatMap_nil, List.append_nil]
    exact h
  | cons e events ih =>
    rw [queuedIn, List.flatMap_cons, ← List.append_assoc] at hfits ⊢
    exact ih (h.step e hfits.front) hfits

theorem stage_run {L : UInt64} {events : List WriteEvent} (hfits : Fits L (queuedIn events)) :
    Stage L (queuedIn events) (run L events) := by
  have hinit : Stage L [] (init L) := by
    have hidle := Stage.idle (acked_nil L) []
    have hseq : seqAfter L [] = L := UInt64.add_zero L
    rw [hseq] at hidle
    exact hidle
  exact hinit.run events hfits

theorem Acked.get_eq {L : UInt64} {groups : List (List Writer)} {mem : MemTable} {synced : ℕ}
    (h : Acked L groups mem synced) {snapshot : UInt64} (hsnapshot : snapshot.toNat < 2 ^ 56)
    (key : List UInt8) :
    mem.get key snapshot = scan ((opsOf groups.flatten).take (snapshot.toNat - L.toNat)) key := by
  have hfinds := MemTable.finds_get h.filled.typed key hsnapshot
  rw [h.filled.contents] at hfinds
  rw [hfinds.eq_scan, Nat.add_sub_add_right]

theorem Acked.get_seqAfter {L : UInt64} {groups groups' : List (List Writer)} {mem : MemTable}
    {synced : ℕ} (h : Acked L groups mem synced) (hfits : Fits L groups'.flatten) (key : List UInt8) :
    mem.get key (seqAfter L groups') =
      scan ((opsOf groups.flatten).take (opsOf groups'.flatten).length) key := by
  have hseq := toNat_seqAfter hfits
  rw [h.get_eq (by rw [hseq]; exact hfits.numbers), hseq, Nat.add_sub_cancel_left]

theorem acknowledged_eq {s : WriteQueue} {groups : List (List Writer)}
    {rest : List (Writer × WriteStatus)} (hdone : s.done = groups.flatten.map (·, .ok) ++ rest)
    (hrest : ∀ p ∈ rest, p.2 ≠ .ok) : s.acknowledged = groups.flatten := by
  have hok : (groups.flatten.map (·, WriteStatus.ok)).filter (fun p => decide (p.2 = .ok)) =
      groups.flatten.map (·, .ok) := by
    rw [List.filter_eq_self]
    intro p hp
    obtain ⟨w, -, rfl⟩ := List.mem_map.mp hp
    exact decide_eq_true rfl
  have hfilter : rest.filter (fun p => decide (p.2 = .ok)) = [] := by
    rw [List.filter_eq_nil_iff]
    intro p hp
    rw [decide_eq_true_eq]
    exact hrest p hp
  rw [acknowledged, hdone, List.filter_append, hok, hfilter, List.append_nil, List.map_map]
  exact List.map_id' _

theorem map_fst_status (writers : List Writer) (status : WriteStatus) :
    (writers.map (·, status)).map Prod.fst = writers := by
  rw [List.map_map]
  exact List.map_id' _

theorem acknowledged_calm {s : WriteQueue} {groups : List (List Writer)}
    (hdone : s.done = groups.flatten.map (·, .ok)) : s.acknowledged = groups.flatten :=
  acknowledged_eq (hdone.trans (List.append_nil _).symm) fun p hp => by cases hp

theorem acknowledged_failed {s : WriteQueue} {groups last : List (List Writer)} {refused : List Writer}
    (hdone : s.done = groups.flatten.map (·, .ok) ++ (last.flatten.map (·, .syncError) ++
      refused.map (·, .refused))) : s.acknowledged = groups.flatten := by
  refine acknowledged_eq hdone fun p hp => ?_
  rcases List.mem_append.mp hp with hp | hp
  · obtain ⟨w, -, rfl⟩ := List.mem_map.mp hp
    exact WriteStatus.noConfusion
  · obtain ⟨w, -, rfl⟩ := List.mem_map.mp hp
    exact WriteStatus.noConfusion

namespace Stage

variable {L : UInt64} {queued : List Writer} {s : WriteQueue}

/-- Each thread that came is done or waits, in the order of the queue. Unless something failed, what is
done went well. -/
def InOrder (queued : List Writer) (s : WriteQueue) : Prop :=
  s.done.map Prod.fst ++ s.writers = queued ∧ s.acknowledged <+: s.done.map Prod.fst ∧
    (s.bgError = false → s.acknowledged = s.done.map Prod.fst)

theorem inOrder_calm {groups : List (List Writer)} (hdone : s.done = groups.flatten.map (·, .ok)) :
    InOrder (groups.flatten ++ s.writers) s := by
  have hmap : s.done.map Prod.fst = groups.flatten := by rw [hdone, map_fst_status]
  rw [InOrder, hmap, acknowledged_calm hdone]
  exact ⟨rfl, List.prefix_rfl, fun _ => rfl⟩

theorem inOrder (h : Stage L queued s) : InOrder queued s := by
  cases h with
  | idle hacked writers => exact inOrder_calm rfl
  | logged hacked hgroup writers bgError => exact inOrder_calm rfl
  | applied hacked writers bgError => exact inOrder_calm rfl
  | unsynced hacked hgroup writers bgError => exact inOrder_calm rfl
  | failed hacked hlast refused writers =>
    rw [InOrder, acknowledged_failed rfl, List.map_append, List.map_append, map_fst_status,
      map_fst_status, map_fst_status, List.append_assoc, List.append_assoc]
    exact ⟨rfl, List.prefix_append _ _, fun h => absurd h.symm Bool.false_ne_true⟩

theorem get_lastSequence (h : Stage L queued s) (hfits : Fits L queued) (key : List UInt8) :
    s.mem.get key s.lastSequence = scan (opsOf s.acknowledged) key := by
  cases h with
  | idle hacked writers =>
    rw [acknowledged_calm rfl, hacked.get_seqAfter hfits.front, List.take_length]
  | logged hacked hgroup writers bgError =>
    rw [acknowledged_calm rfl, hacked.get_seqAfter hfits.front, List.take_length]
  | applied hacked writers bgError =>
    rw [acknowledged_calm rfl, hacked.get_seqAfter hfits.front, List.flatten_append, opsOf_append,
      List.take_left]
  | unsynced hacked hgroup writers bgError =>
    rw [acknowledged_calm rfl, hacked.get_seqAfter hfits.front, List.take_length]
  | failed hacked hlast refused writers =>
    rw [← List.append_assoc, ← List.flatten_append] at hfits
    rw [acknowledged_failed rfl, hacked.get_seqAfter hfits.front, List.take_of_length_le]
    rw [List.flatten_append, opsOf_append, List.length_append]
    exact Nat.le_add_right _ _

theorem mem_startLog (s : WriteQueue) :
    s.startLog.mem = s.mem ∧ s.startLog.lastSequence = s.lastSequence := by
  rw [WriteQueue.startLog]
  split
  · split_ifs <;> exact ⟨rfl, rfl⟩
  · exact ⟨rfl, rfl⟩

theorem mem_finishLog (s : WriteQueue) : s.finishLog.mem = s.mem := by
  rw [WriteQueue.finishLog]
  split <;> rfl

theorem lastSequence_applyLog (s : WriteQueue) (synced : Bool) :
    (s.applyLog synced).lastSequence = s.lastSequence := by
  rw [WriteQueue.applyLog]
  split
  · split_ifs <;> rfl
  · rfl

theorem get_applyLog (h : Stage L queued s) (hfits : Fits L queued) {snapshot : UInt64}
    (hsnapshot : snapshot.toNat ≤ s.lastSequence.toNat) (synced : Bool) (key : List UInt8) :
    (s.applyLog synced).mem.get key snapshot = s.mem.get key snapshot := by
  cases h with
  | idle hacked writers => cases writers <;> rfl
  | @logged groups mem synced' hacked first taken hgroup writers bgError =>
    rw [List.cons_append, WriteQueue.applyLog]
    dsimp only
    by_cases hsync : first.sync = true ∧ ¬synced = true
    · rw [if_pos hsync]
    · rw [if_neg hsync]
      have hseq := toNat_seqAfter hfits.front
      have hlt := hfits.front.numbers
      change snapshot.toNat ≤ (seqAfter L groups).toNat at hsnapshot
      rw [hseq] at hsnapshot
      rw [← List.append_assoc] at hfits
      have hconcat := (hacked.concat hgroup hfits.front).2
      have hbefore := hacked.get_eq (Nat.lt_of_le_of_lt hsnapshot hlt) key
      have hafter := hconcat.get_eq (Nat.lt_of_le_of_lt hsnapshot hlt) key
      rw [List.flatten_append, opsOf_append, List.take_append_of_le_length (by omega)] at hafter
      exact hafter.trans hbefore.symm
  | applied hacked writers bgError => rfl
  | unsynced hacked hgroup writers bgError => rfl
  | failed hacked hlast refused writers => cases writers <;> rfl

theorem lastSequence_finishLog (h : Stage L queued s) (hfits : Fits L queued) :
    s.lastSequence.toNat ≤ s.finishLog.lastSequence.toNat := by
  have hgrow : ∀ (groups : List (List Writer)) (g writers : List Writer),
      Fits L (groups.flatten ++ (g ++ writers)) → (opsOf g).length < 2 ^ 31 →
      (seqAfter L groups).toNat ≤ (seqAfter L groups +
        (groupBatch (seqAfter L groups + 1) g).count.toInt64.toUInt64).toNat := by
    intro groups g writers hfits hcount
    have hsplit : groups.flatten ++ (g ++ writers) = (groups ++ [g]).flatten ++ writers := by
      rw [List.flatten_append, List.flatten_singleton, List.append_assoc]
    have hbefore := toNat_seqAfter hfits.front
    rw [hsplit] at hfits
    rw [seqAfter_concat L groups hcount, hbefore, toNat_seqAfter hfits.front, List.flatten_append,
      opsOf_append, List.length_append]
    omega
  cases h with
  | idle hacked writers => exact Nat.le_refl _
  | logged hacked hgroup writers bgError => exact Nat.le_refl _
  | @applied groups mem synced first taken hacked writers bgError =>
    exact hgrow groups (first :: taken) writers hfits
      (hacked.count_lt _ (List.mem_append_right groups (List.mem_singleton_self _)))
  | @unsynced groups mem synced hacked first taken hgroup writers bgError =>
    exact hgrow groups (first :: taken) writers hfits hgroup.count_lt
  | failed hacked hlast refused writers => exact Nat.le_refl _

theorem get_step (h : Stage L queued s) (e : WriteEvent) (hfits : Fits L (queued ++ e.queued))
    {snapshot : UInt64} (hsnapshot : snapshot.toNat ≤ s.lastSequence.toNat) (key : List UInt8) :
    (s.step e).mem.get key snapshot = s.mem.get key snapshot ∧
      snapshot.toNat ≤ (s.step e).lastSequence.toNat := by
  cases e with
  | queue w => exact ⟨rfl, hsnapshot⟩
  | log =>
    obtain ⟨hmem, hseq⟩ := mem_startLog s
    rw [WriteQueue.step, hmem, hseq]
    exact ⟨rfl, hsnapshot⟩
  | apply synced =>
    rw [WriteQueue.step, lastSequence_applyLog]
    exact ⟨h.get_applyLog hfits.front hsnapshot synced key, hsnapshot⟩
  | finish =>
    rw [WriteQueue.step, mem_finishLog]
    exact ⟨rfl, hsnapshot.trans (h.lastSequence_finishLog hfits.front)⟩
  | fail => exact ⟨rfl, hsnapshot⟩

theorem get_run (h : Stage L queued s) (events : List WriteEvent)
    (hfits : Fits L (queued ++ queuedIn events)) {snapshot : UInt64}
    (hsnapshot : snapshot.toNat ≤ s.lastSequence.toNat) (key : List UInt8) :
    (events.foldl WriteQueue.step s).mem.get key snapshot = s.mem.get key snapshot := by
  induction events generalizing queued s with
  | nil => rfl
  | cons e events ih =>
    rw [queuedIn, List.flatMap_cons, ← List.append_assoc] at hfits
    obtain ⟨hget, hle⟩ := h.get_step e hfits.front hsnapshot key
    exact (ih (h.step e hfits.front) hfits hle).trans hget

end Stage

theorem queuedIn_append (events events' : List WriteEvent) :
    queuedIn (events ++ events') = queuedIn events ++ queuedIn events' := List.flatMap_append

/-- At each point of a run each write that came is done or waits, in the order of the queue, and unless
something failed, what is done went well. What went well until then is what a reader finds at that
snapshot, then and at each later point. -/
theorem writers_run (L : UInt64) (events events' : List WriteEvent)
    (hfits : Fits L (queuedIn (events ++ events'))) :
    (run L events).done.map Prod.fst ++ (run L events).writers = queuedIn events ∧
      (run L events).acknowledged <+: (run L events).done.map Prod.fst ∧
      ((run L events).bgError = false →
        (run L events).acknowledged = (run L events).done.map Prod.fst) ∧
      ∀ key, (run L (events ++ events')).mem.get key (run L events).lastSequence =
        scan (opsOf (run L events).acknowledged) key := by
  rw [queuedIn_append] at hfits
  have hstage := stage_run hfits.front
  obtain ⟨hdone, hprefix, hcalm⟩ := hstage.inOrder
  refine ⟨hdone, hprefix, hcalm, fun key => ?_⟩
  rw [run, List.foldl_append]
  exact (hstage.get_run events' hfits (Nat.le_refl _) key).trans
    (hstage.get_lastSequence hfits.front key)

/-- Two threads whose writes are logged as one. -/
def twoWrites : List WriteEvent :=
  [.queue ⟨[.put [1] [2]], true⟩, .queue ⟨[.delete [1], .put [3] []], false⟩, .log, .apply true, .finish]

theorem fits_twoWrites : Fits 0 (queuedIn twoWrites) where
  sized op hop := by
    simp [twoWrites, queuedIn, WriteEvent.queued, opsOf] at hop
    rcases hop with rfl | rfl | rfl <;> simp [LevelBatch.SizedOp]
  count_lt := by decide
  numbers := by decide

theorem writers_run_two : (run 0 twoWrites).acknowledged = (run 0 twoWrites).done.map Prod.fst ∧
    ∀ key, (run 0 twoWrites).mem.get key 3 = scan [.put [1] [2], .delete [1], .put [3] []] key :=
  ⟨(writers_run 0 twoWrites [] fits_twoWrites).2.2.1 rfl,
    (writers_run 0 twoWrites [] fits_twoWrites).2.2.2⟩

end LevelDB
