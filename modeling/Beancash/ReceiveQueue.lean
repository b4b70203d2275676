import Beancash.SendQueue

namespace Beancash

open ByteStream

/-- The buffer `vRecv` may be larger than what has been received so far. -/
structure NetMessage where
  inData : Bool
  hdrbuf : List UInt8
  hdr : MessageHeader
  nHdrPos : ℕ
  vRecv : List UInt8
  nDataPos : ℕ

/-- `vector::resize` -/
def resizeBytes (l : List UInt8) (n : ℕ) : List UInt8 := l.take n ++ List.replicate (n - l.length) 0

namespace NetMessage

/-- `CNetMessage()` -/
def new (env : NetEnv) : NetMessage where
  inData := false
  hdrbuf := List.replicate MessageHeader.headerSize 0
  hdr := .new env
  nHdrPos := 0
  vRecv := []
  nDataPos := 0

def complete (msg : NetMessage) : Bool :=
  if !msg.inData then false else decide (msg.hdr.nMessageSize.toNat = msg.nDataPos)

/-- `readHeader`, with the number of bytes that it takes; `none` is -1. -/
def readHeader (msg : NetMessage) (pch : List UInt8) : Option (ℕ × NetMessage) :=
  let nCopy := min (MessageHeader.headerSize - msg.nHdrPos) pch.length
  let msg := { msg with
    hdrbuf := putBytes msg.hdrbuf msg.nHdrPos (pch.take nCopy)
    nHdrPos := msg.nHdrPos + nCopy }
  -- if header incomplete, exit
  if msg.nHdrPos < MessageHeader.headerSize then some (nCopy, msg)
  else
    let msg := { msg with hdr := .unserialize msg.hdrbuf }
    if maxSize < msg.hdr.nMessageSize.toNat then none
    else some (nCopy, { msg with inData := true })

def readData (msg : NetMessage) (pch : List UInt8) : ℕ × NetMessage :=
  let nMessageSize := msg.hdr.nMessageSize.toNat
  let nCopy := min (nMessageSize - msg.nDataPos) pch.length
  -- allocate up to 512 KB ahead, but not more than the message size
  let vRecv := if msg.vRecv.length < msg.nDataPos + nCopy then
      resizeBytes msg.vRecv (min nMessageSize (msg.nDataPos + nCopy + 512 * 1024))
    else msg.vRecv
  (nCopy, { msg with
    vRecv := putBytes vRecv msg.nDataPos (pch.take nCopy)
    nDataPos := msg.nDataPos + nCopy })

/-- Absorb network data. -/
def absorb (msg : NetMessage) (pch : List UInt8) : Option (ℕ × NetMessage) :=
  if !msg.inData then msg.readHeader pch else some (msg.readData pch)

end NetMessage

/-- The current incomplete message, or a new one, and the messages before it. The last message of
`vRecvMsg` comes first. -/
def currentMessage (env : NetEnv) : List NetMessage → NetMessage × List NetMessage
  | [] => (.new env, [])
  | msg :: before => if msg.complete then (.new env, msg :: before) else (msg, before)

/-- The loop of `ReceiveMsgBytes`. Each round takes one byte at least. -/
def receiveLoop (env : NetEnv) : ℕ → List UInt8 → List NetMessage → Option (List NetMessage)
  | _, [], vRecvMsg => some vRecvMsg
  | 0, _ :: _, _ => none
  | fuel + 1, pch, vRecvMsg =>
    let (msg, before) := currentMessage env vRecvMsg
    match msg.absorb pch with
    | none => none
    | some (handled, msg) => receiveLoop env fuel (pch.drop handled) (msg :: before)

/-- `ReceiveMsgBytes`; `none` is false. -/
def receiveMsgBytes (env : NetEnv) (vRecvMsg : List NetMessage) (pch : List UInt8) :
    Option (List NetMessage) :=
  receiveLoop env pch.length pch vRecvMsg

/-- What a connection has received after its first chunks. -/
def receiveChunks (env : NetEnv) (chunks : List (List UInt8)) : Option (List NetMessage) :=
  chunks.foldlM (receiveMsgBytes env) []

/-- The bytes of a message that have been received. -/
structure Received where
  header : List UInt8
  data : List UInt8

namespace Received

def size (r : Received) : ℕ := (MessageHeader.unserialize r.header).nMessageSize.toNat

def complete (r : Received) : Bool :=
  decide (r.header.length = MessageHeader.headerSize) && decide (r.size = r.data.length)

/-- One more byte of a message that is not complete. -/
def next (r : Received) (byte : UInt8) : Option Received :=
  if r.header.length < MessageHeader.headerSize then
    let r : Received := ⟨r.header ++ [byte], r.data⟩
    if r.header.length = MessageHeader.headerSize ∧ maxSize < r.size then none else some r
  else some ⟨r.header, r.data ++ [byte]⟩

theorem complete_eq_false_of_header {r : Received}
    (h : r.header.length < MessageHeader.headerSize) : r.complete = false := by
  rw [complete, Bool.and_eq_false_iff, decide_eq_false_iff_not]
  left
  omega

theorem complete_eq_false_of_data {r : Received} (h : r.data.length < r.size) :
    r.complete = false := by
  rw [complete, Bool.and_eq_false_iff, decide_eq_false_iff_not, decide_eq_false_iff_not]
  right
  omega

end Received

/-- The message that the next byte belongs to, and those before it. -/
def currentReceived : List Received → Received × List Received
  | [] => (⟨[], []⟩, [])
  | r :: before => if r.complete then (⟨[], []⟩, r :: before) else (r, before)

/-- One more byte of a connection; the last message comes first. -/
def feedByte (received : List Received) (byte : UInt8) : Option (List Received) :=
  ((currentReceived received).1.next byte).map (· :: (currentReceived received).2)

def feed (received : List Received) (pch : List UInt8) : Option (List Received) :=
  pch.foldlM feedByte received

theorem feed_append (received : List Received) (a b : List UInt8) :
    feed received (a ++ b) = (feed received a).bind fun received => feed received b := by
  unfold feed
  rw [List.foldlM_append]
  rfl

theorem currentReceived_incomplete (received : List Received) :
    (currentReceived received).1.complete = false := by
  cases received with
  | nil => exact Received.complete_eq_false_of_header (by decide)
  | cons r before =>
    rw [currentReceived]
    cases hr : r.complete
    · exact hr
    · exact Received.complete_eq_false_of_header (r := ⟨[], []⟩) (by decide)

theorem currentReceived_cons {r : Received} (h : r.complete = false) (before : List Received) :
    currentReceived (r :: before) = (r, before) := by
  rw [currentReceived, h, if_neg Bool.false_ne_true]

theorem feed_currentReceived (received : List Received) {pch : List UInt8} (hpch : pch ≠ []) :
    feed ((currentReceived received).1 :: (currentReceived received).2) pch = feed received pch := by
  obtain ⟨byte, pch, rfl⟩ := List.exists_cons_of_ne_nil hpch
  have hfirst : feedByte ((currentReceived received).1 :: (currentReceived received).2) byte =
      feedByte received byte := by
    unfold feedByte
    rw [currentReceived_cons (currentReceived_incomplete received)]
  unfold feed
  rw [List.foldlM_cons, List.foldlM_cons, hfirst]

theorem feed_header {r : Received} {bytes : List UInt8} (hbytes : bytes ≠ [])
    (hlen : r.header.length + bytes.length ≤ MessageHeader.headerSize) (before : List Received) :
    feed (r :: before) bytes =
      if r.header.length + bytes.length = MessageHeader.headerSize ∧
          maxSize < Received.size ⟨r.header ++ bytes, r.data⟩ then none
      else some (⟨r.header ++ bytes, r.data⟩ :: before) := by
  induction bytes generalizing r with
  | nil => exact absurd rfl hbytes
  | cons byte bytes ih =>
    rw [List.length_cons] at hlen ⊢
    have hincomplete := Received.complete_eq_false_of_header (r := r) (by omega)
    have hstep : feed (r :: before) (byte :: bytes) =
        (if r.header.length + 1 = MessageHeader.headerSize ∧
          maxSize < Received.size ⟨r.header ++ [byte], r.data⟩ then none
        else some (⟨r.header ++ [byte], r.data⟩ :: before : List Received)).bind
          fun received => feed received bytes := by
      have hlt : r.header.length < MessageHeader.headerSize := by omega
      unfold feed
      rw [List.foldlM_cons, feedByte, currentReceived_cons hincomplete, Received.next, if_pos hlt]
      dsimp only
      rw [List.length_append, List.length_singleton, apply_ite (Option.map _)]
      rfl
    rw [hstep]
    by_cases hrest : bytes = []
    · subst hrest
      rw [List.length_nil, Nat.zero_add]
      split
      · rfl
      · rfl
    · have hpos := List.length_pos_iff.mpr hrest
      have hmore : (r.header ++ [byte]).length + bytes.length ≤ MessageHeader.headerSize := by
        rw [List.length_append, List.length_singleton]
        omega
      rw [if_neg (by omega), Option.bind_some, ih (r := ⟨r.header ++ [byte], r.data⟩) hrest hmore]
      simp only [List.append_assoc, List.singleton_append, List.length_append,
        List.length_singleton, Nat.add_assoc, Nat.add_comm 1]

theorem feed_data {r : Received} {bytes : List UInt8}
    (hheader : r.header.length = MessageHeader.headerSize)
    (hlen : r.data.length + bytes.length ≤ r.size) (before : List Received) :
    feed (r :: before) bytes = some (⟨r.header, r.data ++ bytes⟩ :: before) := by
  induction bytes generalizing r with
  | nil => rw [List.append_nil]; rfl
  | cons byte bytes ih =>
    rw [List.length_cons] at hlen
    have hincomplete := Received.complete_eq_false_of_data (r := r) (by omega)
    have hnext : feedByte (r :: before) byte = some (⟨r.header, r.data ++ [byte]⟩ :: before) := by
      rw [feedByte, currentReceived_cons hincomplete, Received.next,
        if_neg (Nat.not_lt.mpr hheader.ge)]
      rfl
    have hrest := ih (r := ⟨r.header, r.data ++ [byte]⟩) hheader (by
      rw [List.length_append, List.length_singleton]
      change r.data.length + 1 + bytes.length ≤ r.size
      omega)
    unfold feed at hrest ⊢
    rw [List.foldlM_cons, hnext]
    exact hrest.trans (by rw [List.append_assoc]; rfl)

/-- `msg` holds what `r` says, and nothing but room after it. -/
structure NetMessage.Holds (env : NetEnv) (msg : NetMessage) (r : Received) : Prop where
  header_le : r.header.length ≤ MessageHeader.headerSize
  inData : msg.inData = decide (r.header.length = MessageHeader.headerSize)
  hdrbuf : msg.hdrbuf =
    r.header ++ List.replicate (MessageHeader.headerSize - r.header.length) 0
  hdr : msg.hdr =
    if r.header.length = MessageHeader.headerSize then .unserialize r.header else .new env
  nHdrPos : msg.nHdrPos = r.header.length
  nDataPos : msg.nDataPos = r.data.length
  data : r.data <+: msg.vRecv
  length_le : msg.vRecv.length ≤
    if r.header.length = MessageHeader.headerSize then r.size else 0

namespace NetMessage

variable {env : NetEnv} {msg msg' : NetMessage} {r : Received}

theorem holds_new (env : NetEnv) : (new env).Holds env ⟨[], []⟩ where
  header_le := Nat.zero_le _
  inData := rfl
  hdrbuf := rfl
  hdr := rfl
  nHdrPos := rfl
  nDataPos := rfl
  data := List.nil_prefix
  length_le := Nat.zero_le _

theorem Holds.complete_eq (h : msg.Holds env r) : msg.complete = r.complete := by
  rw [complete, Received.complete, h.inData, h.hdr, h.nDataPos]
  by_cases hheader : r.header.length = MessageHeader.headerSize
  · rw [if_pos hheader, decide_eq_true hheader, Bool.not_true, if_neg Bool.false_ne_true,
      Bool.true_and]
    rfl
  · rw [decide_eq_false hheader]
    rfl

/-- Without the room that is allocated ahead. -/
def trim (msg : NetMessage) : NetMessage := { msg with vRecv := msg.vRecv.take msg.nDataPos }

theorem Holds.trim_eq (h : msg.Holds env r) (h' : msg'.Holds env r) : msg.trim = msg'.trim := by
  have htaken : ∀ {m : NetMessage}, m.Holds env r → m.vRecv.take m.nDataPos = r.data := by
    intro m hm
    rw [hm.nDataPos, ← List.prefix_iff_eq_take.mp hm.data]
  unfold trim
  rw [mk.injEq]
  refine ⟨?_, ?_, ?_, ?_, ?_, ?_⟩
  · rw [h.inData, h'.inData]
  · rw [h.hdrbuf, h'.hdrbuf]
  · rw [h.hdr, h'.hdr]
  · rw [h.nHdrPos, h'.nHdrPos]
  · rw [htaken h, htaken h']
  · rw [h.nDataPos, h'.nDataPos]

theorem Holds.vRecv_eq_of_complete (h : msg.Holds env r) (hcomplete : r.complete = true) :
    msg.vRecv = r.data := by
  rw [Received.complete, Bool.and_eq_true, decide_eq_true_iff, decide_eq_true_iff] at hcomplete
  have hlen := h.length_le
  rw [if_pos hcomplete.1] at hlen
  exact (h.data.eq_of_length_le (by omega)).symm

theorem Holds.vRecv_eq_nil (h : msg.Holds env r)
    (hheader : r.header.length ≠ MessageHeader.headerSize) : msg.vRecv = [] := by
  have hlen := h.length_le
  rw [if_neg hheader] at hlen
  exact List.length_eq_zero_iff.mp (Nat.le_zero.mp hlen)

theorem Holds.readHeader_rel (h : msg.Holds env r) {pch : List UInt8} (hpch : pch ≠ [])
    (hheader : r.header.length < MessageHeader.headerSize) (before : List Received) :
    match msg.readHeader pch with
    | none => feed (r :: before) pch = none
    | some (handled, msg') => 0 < handled ∧ ∃ r', msg'.Holds env r' ∧
        feed (r :: before) (pch.take handled) = some (r' :: before) := by
  obtain ⟨nCopy, hnCopy⟩ : ∃ n, n = min (MessageHeader.headerSize - r.header.length) pch.length :=
    ⟨_, rfl⟩
  have hpos : 0 < nCopy := by
    have := List.length_pos_iff.mpr hpch
    omega
  have htake : (pch.take nCopy).length = nCopy := by
    rw [List.length_take]
    omega
  have hvRecv := h.vRecv_eq_nil (Nat.ne_of_lt hheader)
  have hdata : r.data = [] := List.prefix_nil.mp (hvRecv ▸ h.data)
  have hput : putBytes msg.hdrbuf r.header.length (pch.take nCopy) =
      r.header ++ pch.take nCopy ++
        List.replicate (MessageHeader.headerSize - (r.header.length + nCopy)) 0 := by
    have hroom : List.replicate (MessageHeader.headerSize - r.header.length) (0 : UInt8) =
        List.replicate nCopy 0 ++
          List.replicate (MessageHeader.headerSize - (r.header.length + nCopy)) 0 := by
      rw [← List.replicate_add]
      congr 1
      omega
    rw [h.hdrbuf, hroom, ← List.append_assoc]
    exact putBytes_append rfl (by rw [List.length_replicate, htake])
  have hfeed := feed_header (r := r)
    (List.ne_nil_of_length_pos (l := pch.take nCopy) (by omega)) (by omega) before
  rw [htake] at hfeed
  have hlength : (r.header ++ pch.take nCopy).length = r.header.length + nCopy := by
    rw [List.length_append, htake]
  unfold readHeader
  dsimp only
  rw [h.nHdrPos, ← hnCopy, hput]
  by_cases hmore : r.header.length + nCopy < MessageHeader.headerSize
  · rw [if_pos hmore]
    rw [if_neg (by omega)] at hfeed
    refine ⟨hpos, _, ?_, hfeed⟩
    have hne : (r.header ++ pch.take nCopy).length ≠ MessageHeader.headerSize := by omega
    exact {
      header_le := by dsimp only; omega
      inData := by rw [h.inData, decide_eq_false (by omega), decide_eq_false hne]
      hdrbuf := by rw [hlength]
      hdr := by rw [if_neg hne, h.hdr, if_neg (by omega)]
      nHdrPos := hlength.symm
      nDataPos := h.nDataPos
      data := h.data
      length_le := by rw [hvRecv]; exact Nat.zero_le _ }
  · have hfull : r.header.length + nCopy = MessageHeader.headerSize := by omega
    rw [if_neg hmore, hfull, Nat.sub_self, List.replicate_zero, List.append_nil]
    have heq : (r.header ++ pch.take nCopy).length = MessageHeader.headerSize := by omega
    by_cases hsize : maxSize < Received.size ⟨r.header ++ pch.take nCopy, r.data⟩
    · rw [if_pos (show maxSize < (MessageHeader.unserialize _).nMessageSize.toNat from hsize)]
      rw [if_pos ⟨hfull, hsize⟩] at hfeed
      change feed (r :: before) pch = none
      rw [← List.take_append_drop nCopy pch, feed_append, hfeed]
      rfl
    · rw [if_neg (show ¬maxSize < (MessageHeader.unserialize _).nMessageSize.toNat from hsize)]
      rw [if_neg (fun hboth => hsize hboth.2)] at hfeed
      refine ⟨hpos, _, ?_, hfeed⟩
      exact {
        header_le := heq.le
        inData := (decide_eq_true heq).symm
        hdrbuf := by rw [heq, Nat.sub_self, List.replicate_zero, List.append_nil]
        hdr := by rw [if_pos heq]
        nHdrPos := heq.symm
        nDataPos := h.nDataPos
        data := h.data
        length_le := by rw [hvRecv]; exact Nat.zero_le _ }

theorem prefix_resizeBytes {data l : List UInt8} (h : data <+: l) {n : ℕ} (hn : data.length ≤ n) :
    data <+: resizeBytes l n := by
  obtain ⟨room, rfl⟩ := h
  unfold resizeBytes
  rw [List.take_append, List.take_of_length_le hn, List.append_assoc]
  exact List.prefix_append _ _

theorem length_resizeBytes (l : List UInt8) (n : ℕ) : (resizeBytes l n).length = n := by
  unfold resizeBytes
  rw [List.length_append, List.length_take, List.length_replicate]
  omega

theorem putBytes_prefix {data l bytes : List UInt8} (h : data <+: l)
    (hroom : data.length + bytes.length ≤ l.length) :
    data ++ bytes <+: putBytes l data.length bytes ∧
      (putBytes l data.length bytes).length = l.length := by
  obtain ⟨room, rfl⟩ := h
  rw [List.length_append] at hroom
  unfold putBytes
  rw [List.take_left]
  refine ⟨List.prefix_append _ _, ?_⟩
  simp only [List.length_append, List.length_drop]
  omega

theorem Holds.readData_rel (h : msg.Holds env r) {pch : List UInt8} (hpch : pch ≠ [])
    (hheader : r.header.length = MessageHeader.headerSize) (hincomplete : r.complete = false)
    (before : List Received) :
    0 < (msg.readData pch).1 ∧ ∃ r', (msg.readData pch).2.Holds env r' ∧
      feed (r :: before) (pch.take (msg.readData pch).1) = some (r' :: before) := by
  have hdr : msg.hdr = .unserialize r.header := by rw [h.hdr, if_pos hheader]
  have hsize : msg.hdr.nMessageSize.toNat = r.size := by rw [hdr]; rfl
  have hbuffer : msg.vRecv.length ≤ r.size := by
    have hlen := h.length_le
    rwa [if_pos hheader] at hlen
  have hless : r.data.length < r.size := by
    have hle := h.data.length_le.trans hbuffer
    rw [Received.complete, decide_eq_true hheader, Bool.true_and, decide_eq_false_iff_not]
      at hincomplete
    omega
  obtain ⟨nCopy, hnCopy⟩ : ∃ n, n = min (r.size - r.data.length) pch.length := ⟨_, rfl⟩
  have hpos : 0 < nCopy := by
    have := List.length_pos_iff.mpr hpch
    omega
  have htake : (pch.take nCopy).length = nCopy := by
    rw [List.length_take]
    omega
  -- the buffer has room for the bytes, with the data in front
  obtain ⟨buffer, hbufferEq, hdata, hroom, hbound⟩ : ∃ buffer,
      (if msg.vRecv.length < r.data.length + nCopy then
        resizeBytes msg.vRecv (min r.size (r.data.length + nCopy + 512 * 1024))
      else msg.vRecv) = buffer ∧ r.data <+: buffer ∧ r.data.length + nCopy ≤ buffer.length ∧
        buffer.length ≤ r.size := by
    split
    · refine ⟨_, rfl, prefix_resizeBytes h.data (by omega), ?_, ?_⟩
      · rw [length_resizeBytes]
        omega
      · rw [length_resizeBytes]
        omega
    · exact ⟨_, rfl, h.data, by omega, hbuffer⟩
  obtain ⟨hput, hputLen⟩ := putBytes_prefix hdata
    (show r.data.length + (pch.take nCopy).length ≤ buffer.length by omega)
  have hread : msg.readData pch = (nCopy, { msg with
      vRecv := putBytes buffer r.data.length (pch.take nCopy)
      nDataPos := r.data.length + nCopy }) := by
    unfold readData
    dsimp only
    rw [hsize, h.nDataPos, ← hnCopy, hbufferEq]
  have hfeed := feed_data hheader
    (show r.data.length + (pch.take nCopy).length ≤ r.size by omega) before
  rw [hread]
  refine ⟨hpos, ⟨r.header, r.data ++ pch.take nCopy⟩, ?_, hfeed⟩
  exact {
    header_le := h.header_le
    inData := h.inData
    hdrbuf := h.hdrbuf
    hdr := h.hdr
    nHdrPos := h.nHdrPos
    nDataPos := by dsimp only; rw [List.length_append, htake]
    data := hput
    length_le := by
      rw [if_pos hheader]
      dsimp only
      rw [hputLen]
      exact hbound }

theorem Holds.absorb_rel (h : msg.Holds env r) {pch : List UInt8} (hpch : pch ≠ [])
    (hincomplete : r.complete = false) (before : List Received) :
    match msg.absorb pch with
    | none => feed (r :: before) pch = none
    | some (handled, msg') => 0 < handled ∧ ∃ r', msg'.Holds env r' ∧
        feed (r :: before) (pch.take handled) = some (r' :: before) := by
  unfold absorb
  rw [h.inData]
  by_cases hheader : r.header.length = MessageHeader.headerSize
  · rw [decide_eq_true hheader, Bool.not_true, if_neg Bool.false_ne_true]
    exact h.readData_rel hpch hheader hincomplete before
  · have hle := h.header_le
    rw [decide_eq_false hheader, Bool.not_false, if_pos rfl]
    exact h.readHeader_rel hpch (by omega) before

end NetMessage

variable {env : NetEnv}

theorem currentMessage_rel {vRecvMsg : List NetMessage} {received : List Received}
    (h : List.Forall₂ (NetMessage.Holds env) vRecvMsg received) :
    (currentMessage env vRecvMsg).1.Holds env (currentReceived received).1 ∧
      List.Forall₂ (NetMessage.Holds env) (currentMessage env vRecvMsg).2
        (currentReceived received).2 := by
  cases h with
  | nil => exact ⟨NetMessage.holds_new env, .nil⟩
  | cons hmsg hbefore =>
    rw [currentMessage, currentReceived, hmsg.complete_eq]
    split
    · exact ⟨NetMessage.holds_new env, .cons hmsg hbefore⟩
    · exact ⟨hmsg, hbefore⟩

theorem receiveLoop_rel (fuel : ℕ) {pch : List UInt8} (hfuel : pch.length ≤ fuel)
    {vRecvMsg : List NetMessage} {received : List Received}
    (h : List.Forall₂ (NetMessage.Holds env) vRecvMsg received) :
    Option.Rel (List.Forall₂ (NetMessage.Holds env)) (receiveLoop env fuel pch vRecvMsg)
      (feed received pch) := by
  induction fuel generalizing pch vRecvMsg received with
  | zero =>
    rw [List.eq_nil_of_length_eq_zero (Nat.le_zero.mp hfuel), receiveLoop]
    exact .some h
  | succ fuel ih =>
    cases pch with
    | nil =>
      rw [receiveLoop]
      exact .some h
    | cons byte pch =>
      obtain ⟨hmsg, hbefore⟩ := currentMessage_rel h
      have hstep := hmsg.absorb_rel (List.cons_ne_nil byte pch)
        (currentReceived_incomplete received) (currentReceived received).2
      unfold receiveLoop
      rw [← feed_currentReceived received (List.cons_ne_nil byte pch)]
      cases habsorb : (currentMessage env vRecvMsg).1.absorb (byte :: pch) with
      | none =>
        rw [habsorb] at hstep
        dsimp only
        rw [habsorb, hstep]
        exact .none
      | some next =>
        rw [habsorb] at hstep
        obtain ⟨hpos, r', hr', hfeed⟩ := hstep
        dsimp only
        rw [habsorb, ← List.take_append_drop next.1 (byte :: pch), feed_append, hfeed,
          Option.bind_some]
        dsimp only
        rw [List.take_append_drop]
        refine ih ?_ (.cons hr' hbefore)
        rw [List.length_drop]
        rw [List.length_cons] at hfuel ⊢
        omega

theorem receiveMsgBytes_rel {vRecvMsg : List NetMessage} {received : List Received}
    (h : List.Forall₂ (NetMessage.Holds env) vRecvMsg received) (pch : List UInt8) :
    Option.Rel (List.Forall₂ (NetMessage.Holds env)) (receiveMsgBytes env vRecvMsg pch)
      (feed received pch) :=
  receiveLoop_rel pch.length le_rfl h

theorem foldlM_receiveMsgBytes_rel (chunks : List (List UInt8)) {vRecvMsg : List NetMessage}
    {received : List Received} (h : List.Forall₂ (NetMessage.Holds env) vRecvMsg received) :
    Option.Rel (List.Forall₂ (NetMessage.Holds env))
      (chunks.foldlM (receiveMsgBytes env) vRecvMsg) (feed received chunks.flatten) := by
  induction chunks generalizing vRecvMsg received with
  | nil => exact .some h
  | cons pch chunks ih =>
    rw [List.foldlM_cons, List.flatten_cons, feed_append]
    have hfirst := receiveMsgBytes_rel h pch
    cases hq : receiveMsgBytes env vRecvMsg pch with
    | none =>
      rw [hq] at hfirst
      cases hr : feed received pch with
      | none => exact .none
      | some received' =>
        rw [hr] at hfirst
        cases hfirst
    | some vRecvMsg' =>
      rw [hq] at hfirst
      cases hr : feed received pch with
      | none =>
        rw [hr] at hfirst
        cases hfirst
      | some received' =>
        rw [hr] at hfirst
        cases hfirst with
        | some hnext => exact ih hnext

theorem receiveChunks_rel (env : NetEnv) (chunks : List (List UInt8)) :
    Option.Rel (List.Forall₂ (NetMessage.Holds env)) (receiveChunks env chunks)
      (feed [] chunks.flatten) :=
  foldlM_receiveMsgBytes_rel chunks .nil

end Beancash
