import Beancash.ReceiveQueue

namespace Beancash

open ByteStream

/-- The command, as a C string without its end, and the data of a message. -/
structure WireMessage where
  command : List UInt8
  data : List UInt8
deriving DecidableEq

namespace WireMessage

/-- `BeginMessage`, the data, and `EndMessage`. -/
def encode (env : NetEnv) (m : WireMessage) : List UInt8 :=
  sealMessage env (beginMessage env m.command ++ m.data)

structure Sendable (m : WireMessage) : Prop where
  command_le : m.command.length ≤ MessageHeader.commandSize
  ne_zero : ∀ c ∈ m.command, c ≠ 0
  data_le : m.data.length ≤ maxSize

/-- The characters that `IsValid` takes. -/
def Printable (m : WireMessage) : Prop := ∀ c ∈ m.command, 0x20 ≤ c ∧ c ≤ 0x7e

def header (env : NetEnv) (m : WireMessage) : MessageHeader :=
  { MessageHeader.ofCommand env m.command (.ofNat m.data.length) with
    nChecksum := messageChecksum env m.data }

def received (env : NetEnv) (m : WireMessage) : Received := ⟨(m.header env).serialize, m.data⟩

variable (env : NetEnv) {m : WireMessage}

theorem wellFormed_header (m : WireMessage) : (m.header env).WellFormed := by
  have hwf := MessageHeader.wellFormed_ofCommand env m.command (.ofNat m.data.length)
  exact ⟨hwf.messageStart, hwf.command⟩

theorem length_header (m : WireMessage) :
    (m.received env).header.length = MessageHeader.headerSize :=
  MessageHeader.length_serialize (wellFormed_header env m)

theorem encode_eq (m : WireMessage) :
    m.encode env = (m.received env).header ++ (m.received env).data :=
  sealMessage_eq env m.command m.data

theorem unserialize_header (m : WireMessage) :
    MessageHeader.unserialize (m.received env).header = m.header env :=
  MessageHeader.unserialize_header (wellFormed_header env m)

theorem Sendable.nMessageSize (h : m.Sendable) :
    (m.header env).nMessageSize.toNat = m.data.length := by
  have hle := h.data_le
  unfold maxSize at hle
  change (UInt32.ofNat m.data.length).toNat = m.data.length
  rw [UInt32.toNat_ofNat']
  omega

theorem Sendable.size_received (h : m.Sendable) : (m.received env).size = m.data.length := by
  rw [Received.size, unserialize_header]
  exact h.nMessageSize env

theorem Sendable.complete_received (h : m.Sendable) : (m.received env).complete = true := by
  rw [Received.complete, decide_eq_true (length_header env m), Bool.true_and, decide_eq_true_iff]
  exact h.size_received env

theorem Sendable.getCommand_header (h : m.Sendable) : (m.header env).getCommand = m.command := by
  have hle := h.command_le
  have hall : ∀ c ∈ m.command, (decide (c ≠ 0)) = true := by
    intro c hc
    exact decide_eq_true (h.ne_zero c hc)
  have hpad : (m.header env).pchCommand =
      m.command ++ List.replicate (MessageHeader.commandSize - m.command.length) 0 := by
    unfold header MessageHeader.ofCommand
    dsimp only
    rw [List.take_of_length_le hle]
  unfold MessageHeader.getCommand
  rw [hpad]
  cases hk : MessageHeader.commandSize - m.command.length with
  | zero =>
    rw [List.replicate_zero, List.append_nil]
    split
    · rw [← List.append_nil m.command, List.takeWhile_append_of_pos hall]
      rfl
    · rfl
  | succ k =>
    have hlast : (m.command ++ List.replicate (k + 1) (0 : UInt8)).getLast? = some 0 := by
      rw [List.replicate_succ', ← List.append_assoc, List.getLast?_concat]
    rw [if_pos hlast, List.takeWhile_append_of_pos hall, List.replicate_succ]
    rw [List.takeWhile_cons_of_neg (by decide), List.append_nil]

theorem isValidCommand_append {command : List UInt8} (h : ∀ c ∈ command, 0x20 ≤ c ∧ c ≤ 0x7e)
    (k : ℕ) : MessageHeader.isValidCommand (command ++ List.replicate k 0) = true := by
  induction command with
  | nil =>
    cases k with
    | zero => rfl
    | succ k =>
      rw [List.nil_append, List.replicate_succ, MessageHeader.isValidCommand, if_pos rfl,
        List.all_eq_true]
      intro c hc
      exact decide_eq_true (List.eq_of_mem_replicate hc)
  | cons c command ih =>
    obtain ⟨hlow, hhigh⟩ := h c List.mem_cons_self
    have hne : c ≠ 0 := by
      intro hzero
      rw [hzero] at hlow
      exact absurd hlow (by decide)
    rw [List.cons_append, MessageHeader.isValidCommand, if_neg hne,
      decide_eq_true ⟨hlow, hhigh⟩, Bool.true_and]
    exact ih fun c hc => h c (List.mem_cons_of_mem _ hc)

theorem Sendable.isValid_header (h : m.Sendable) (hprintable : m.Printable) :
    (m.header env).isValid env = true := by
  have hle := h.command_le
  have hsize := h.nMessageSize env
  unfold MessageHeader.isValid
  rw [Bool.and_eq_true, Bool.and_eq_true, decide_eq_true_iff, decide_eq_true_iff, hsize]
  refine ⟨⟨rfl, ?_⟩, h.data_le⟩
  change MessageHeader.isValidCommand (m.command.take MessageHeader.commandSize ++ _) = true
  rw [List.take_of_length_le hle]
  exact isValidCommand_append hprintable _

end WireMessage

theorem feed_encode (env : NetEnv) {m : WireMessage} (h : m.Sendable) {received : List Received}
    (hcomplete : ∀ r ∈ received, r.complete = true) :
    feed received (m.encode env) = some (m.received env :: received) := by
  have hcurrent : currentReceived received = (⟨[], []⟩, received) := by
    cases received with
    | nil => rfl
    | cons r before => rw [currentReceived, if_pos (hcomplete r List.mem_cons_self)]
  have hlen := WireMessage.length_header env m
  have hsize := h.size_received env
  have hne : (m.received env).header ++ (m.received env).data ≠ [] := by
    rw [Ne, List.append_eq_nil_iff, not_and]
    intro hnil
    rw [hnil] at hlen
    exact absurd hlen (by decide)
  rw [WireMessage.encode_eq, ← feed_currentReceived received hne, hcurrent, feed_append,
    feed_header (List.ne_nil_of_length_pos (by rw [hlen]; decide)) (by rw [hlen]; exact le_rfl)]
  have hfits : ¬maxSize < Received.size ⟨(m.received env).header, []⟩ := by
    change ¬maxSize < (m.received env).size
    rw [hsize]
    exact Nat.not_lt.mpr h.data_le
  rw [List.nil_append, if_neg fun hboth => hfits hboth.2, Option.bind_some]
  have hdata : (⟨(m.received env).header, []⟩ : Received).data.length + m.data.length ≤
      (⟨(m.received env).header, []⟩ : Received).size := by
    change 0 + m.data.length ≤ (m.received env).size
    omega
  exact feed_data (r := ⟨(m.received env).header, []⟩) hlen hdata received

theorem feed_encode_all (env : NetEnv) {msgs : List WireMessage} (h : ∀ m ∈ msgs, m.Sendable)
    {received : List Received} (hcomplete : ∀ r ∈ received, r.complete = true) :
    feed received (msgs.flatMap (WireMessage.encode env)) =
      some ((msgs.map (WireMessage.received env)).reverse ++ received) := by
  induction msgs generalizing received with
  | nil => rfl
  | cons m msgs ih =>
    have hm := h m List.mem_cons_self
    rw [List.flatMap_cons, feed_append, feed_encode env hm hcomplete, Option.bind_some,
      ih (fun m hm => h m (List.mem_cons_of_mem _ hm)), List.map_cons, List.reverse_cons,
      List.append_assoc, List.singleton_append]
    intro r hr
    rcases List.mem_cons.mp hr with rfl | hr
    · exact hm.complete_received env
    · exact hcomplete r hr

/-- Command, size, checksum and data. -/
def NetMessage.content (msg : NetMessage) : List UInt8 × ℕ × UInt32 × List UInt8 :=
  (msg.hdr.getCommand, msg.hdr.nMessageSize.toNat, msg.hdr.nChecksum, msg.vRecv)

/-- A message of the queue is one that was sent. -/
structure NetMessage.Arrived (env : NetEnv) (msg : NetMessage) (m : WireMessage) : Prop where
  complete : msg.complete = true
  hdr : msg.hdr = m.header env
  vRecv : msg.vRecv = m.data

theorem NetMessage.Holds.arrived {env : NetEnv} {msg : NetMessage} {m : WireMessage}
    (h : msg.Holds env (m.received env)) (hm : m.Sendable) : msg.Arrived env m where
  complete := by rw [h.complete_eq, hm.complete_received]
  hdr := by rw [h.hdr, if_pos (WireMessage.length_header env m), WireMessage.unserialize_header]
  vRecv := h.vRecv_eq_of_complete (hm.complete_received env)

theorem arrived_of_holds {env : NetEnv} {vRecvMsg : List NetMessage} {msgs : List WireMessage}
    (hholds : List.Forall₂ (fun msg m => msg.Holds env (m.received env)) vRecvMsg msgs)
    (h : ∀ m ∈ msgs, m.Sendable) : List.Forall₂ (NetMessage.Arrived env) vRecvMsg msgs := by
  induction hholds with
  | nil => exact .nil
  | cons hmsg _ ih =>
    have hm := h _ List.mem_cons_self
    exact .cons (hmsg.arrived hm) (ih fun m hm => h m (List.mem_cons_of_mem _ hm))

theorem receiveChunks_encode (env : NetEnv) {msgs : List WireMessage}
    (h : ∀ m ∈ msgs, m.Sendable) {chunks : List (List UInt8)}
    (hchunks : chunks.flatten = msgs.flatMap (WireMessage.encode env)) :
    ∃ vRecvMsg, receiveChunks env chunks = some vRecvMsg ∧
      List.Forall₂ (NetMessage.Arrived env) vRecvMsg.reverse msgs := by
  have hrel := receiveChunks_rel env chunks
  rw [hchunks, feed_encode_all env h (fun r hr => absurd hr List.not_mem_nil),
    List.append_nil] at hrel
  cases hq : receiveChunks env chunks with
  | none =>
    rw [hq] at hrel
    cases hrel
  | some vRecvMsg =>
    rw [hq] at hrel
    cases hrel with
    | some hholds =>
      have hrev := List.rel_reverse hholds
      rw [List.reverse_reverse, List.forall₂_map_right_iff] at hrev
      exact ⟨vRecvMsg, rfl, arrived_of_holds hrev h⟩

/-- What the connection is like as the messages are processed: before each round whether it is to be
closed and whether the send buffer is full, and whether it is to be closed at the end. -/
structure ProcessIo where
  fDisconnect : ℕ → Bool
  sendFull : ℕ → Bool
  fDisconnectAtEnd : Bool

/-- The messages given to `ProcessMessage`, and those that are left. -/
structure Processed where
  passed : List WireMessage
  vRecvMsg : List NetMessage
  fOk : Bool

/-- The loop of `ProcessMessages`. -/
def processLoop (env : NetEnv) (io : ProcessIo) : ℕ → List NetMessage → Processed
  | _, [] => ⟨[], [], true⟩
  | k, msg :: it =>
    -- don't bother if send buffer is too full to respond anyway
    if io.fDisconnect k || io.sendFull k then ⟨[], msg :: it, true⟩
    -- end, if an incomplete message is found
    else if !msg.complete then ⟨[], msg :: it, true⟩
    else if msg.hdr.pchMessageStart ≠ env.messageStart.toList then ⟨[], it, false⟩
    else if !msg.hdr.isValid env then processLoop env io (k + 1) it
    else if messageChecksum env (msg.vRecv.take msg.hdr.nMessageSize.toNat) ≠ msg.hdr.nChecksum then
      processLoop env io (k + 1) it
    else
      let next := processLoop env io (k + 1) it
      { next with passed := ⟨msg.hdr.getCommand, msg.vRecv⟩ :: next.passed }

/-- `ProcessMessages`, from the first message of the queue on. -/
def processMessages (env : NetEnv) (io : ProcessIo) (vRecvMsg : List NetMessage) : Processed :=
  let processed := processLoop env io 0 vRecvMsg
  -- in case the connection got shut down, its receive buffer was wiped
  if !io.fDisconnectAtEnd then processed else { processed with vRecvMsg := vRecvMsg }

/-- Several calls of `ProcessMessages`. -/
def processCalls (env : NetEnv) : List ProcessIo → List NetMessage → List WireMessage × List NetMessage
  | [], vRecvMsg => ([], vRecvMsg)
  | io :: calls, vRecvMsg =>
    let processed := processMessages env io vRecvMsg
    let rest := processCalls env calls processed.vRecvMsg
    (processed.passed ++ rest.1, rest.2)

/-- Nothing keeps the messages from being processed. -/
def ProcessIo.Open (io : ProcessIo) : Prop := ∀ k, io.fDisconnect k = false ∧ io.sendFull k = false

theorem processLoop_eq {env : NetEnv} (io : ProcessIo) {msgs : List WireMessage}
    (hsend : ∀ m ∈ msgs, m.Sendable ∧ m.Printable) {vRecvMsg : List NetMessage}
    (h : List.Forall₂ (NetMessage.Arrived env) vRecvMsg msgs) (k : ℕ) :
    ∃ n ≤ msgs.length, processLoop env io k vRecvMsg = ⟨msgs.take n, vRecvMsg.drop n, true⟩ ∧
      (io.Open → n = msgs.length) := by
  induction h generalizing k with
  | nil => exact ⟨0, le_rfl, rfl, fun _ => rfl⟩
  | @cons msg m it msgs hmsg _ ih =>
    obtain ⟨hm, hprintable⟩ := hsend m List.mem_cons_self
    obtain ⟨n, hle, hn, hall⟩ := ih (fun m hm => hsend m (List.mem_cons_of_mem _ hm)) (k + 1)
    rw [processLoop]
    by_cases hstop : (io.fDisconnect k || io.sendFull k) = true
    · refine ⟨0, Nat.zero_le _, if_pos hstop, ?_⟩
      intro hopen
      rw [(hopen k).1, (hopen k).2] at hstop
      cases hstop
    · refine ⟨n + 1, Nat.succ_le_succ hle, ?_, fun hopen => by rw [hall hopen, List.length_cons]⟩
      have hsize : msg.hdr.nMessageSize.toNat = m.data.length := by
        rw [hmsg.hdr, hm.nMessageSize]
      have hvalid : msg.hdr.isValid env = true := by
        rw [hmsg.hdr, hm.isValid_header env hprintable]
      have hstart : msg.hdr.pchMessageStart = env.messageStart.toList := by
        rw [hmsg.hdr]
        rfl
      have hchecksum : messageChecksum env (msg.vRecv.take msg.hdr.nMessageSize.toNat) =
          msg.hdr.nChecksum := by
        rw [hsize, hmsg.vRecv, List.take_length, hmsg.hdr]
        rfl
      have hcommand : msg.hdr.getCommand = m.command := by
        rw [hmsg.hdr, hm.getCommand_header]
      rw [if_neg hstop, hmsg.complete, Bool.not_true, if_neg Bool.false_ne_true,
        if_neg (not_not.mpr hstart), hvalid, Bool.not_true, if_neg Bool.false_ne_true,
        if_neg (not_not.mpr hchecksum), hn, hcommand, hmsg.vRecv]
      rfl

/-- However often it is called, the messages are passed on in order, and those that were not are
still there. -/
theorem processCalls_eq {env : NetEnv} {msgs : List WireMessage}
    (hsend : ∀ m ∈ msgs, m.Sendable ∧ m.Printable) {calls : List ProcessIo}
    (hcalls : ∀ io ∈ calls, io.fDisconnectAtEnd = false) {vRecvMsg : List NetMessage}
    (h : List.Forall₂ (NetMessage.Arrived env) vRecvMsg msgs) :
    ∃ n ≤ msgs.length, processCalls env calls vRecvMsg = (msgs.take n, vRecvMsg.drop n) ∧
      ((∃ io ∈ calls, io.Open) → n = msgs.length) := by
  induction calls generalizing vRecvMsg msgs with
  | nil => exact ⟨0, Nat.zero_le _, rfl, fun ⟨_, hio, _⟩ => absurd hio List.not_mem_nil⟩
  | cons io calls ih =>
    obtain ⟨n, hle, hn, hall⟩ := processLoop_eq io hsend h 0
    obtain ⟨n', hle', hn', hall'⟩ := ih
      (fun m hm => hsend m (List.mem_of_mem_drop hm))
      (fun io hio => hcalls io (List.mem_cons_of_mem _ hio))
      (List.forall₂_drop n h)
    rw [List.length_drop] at hle' hall'
    have hfirst : processMessages env io vRecvMsg = ⟨msgs.take n, vRecvMsg.drop n, true⟩ := by
      unfold processMessages
      rw [hcalls io List.mem_cons_self, Bool.not_false, if_pos rfl, hn]
    refine ⟨n + n', by omega, ?_, ?_⟩
    · rw [processCalls, hfirst]
      dsimp only
      rw [hn', List.take_add, List.drop_drop]
    · rintro ⟨io', hio', hopen⟩
      rcases List.mem_cons.mp hio' with rfl | hio'
      · have := hall hopen
        omega
      · have := hall' ⟨io', hio', hopen⟩
        omega

theorem map_trim_eq {env : NetEnv} {q q' : List NetMessage} {received : List Received}
    (h : List.Forall₂ (NetMessage.Holds env) q received)
    (h' : List.Forall₂ (NetMessage.Holds env) q' received) :
    q.map NetMessage.trim = q'.map NetMessage.trim := by
  induction h generalizing q' with
  | nil => cases h'; rfl
  | cons hmsg _ ih =>
    cases h' with
    | cons hmsg' hrest' =>
      rw [List.map_cons, List.map_cons, hmsg.trim_eq hmsg', ih hrest']

theorem trim_eq_of_rel {env : NetEnv} {q q' : Option (List NetMessage)}
    {received : Option (List Received)}
    (h : Option.Rel (List.Forall₂ (NetMessage.Holds env)) q received)
    (h' : Option.Rel (List.Forall₂ (NetMessage.Holds env)) q' received) :
    q.map (·.map NetMessage.trim) = q'.map (·.map NetMessage.trim) := by
  cases h with
  | none => cases h'; rfl
  | some hq =>
    cases h' with
    | some hq' => exact congrArg some (map_trim_eq hq hq')

theorem content_of_arrived {env : NetEnv} {vRecvMsg : List NetMessage} {msgs : List WireMessage}
    (h : List.Forall₂ (NetMessage.Arrived env) vRecvMsg msgs) (hsend : ∀ m ∈ msgs, m.Sendable) :
    (∀ msg ∈ vRecvMsg, msg.complete = true) ∧
      vRecvMsg.map NetMessage.content = msgs.map fun m =>
        (m.command, m.data.length, messageChecksum env m.data, m.data) := by
  induction h with
  | nil => exact ⟨fun msg hmsg => absurd hmsg List.not_mem_nil, rfl⟩
  | @cons msg m _ _ hmsg _ ih =>
    have hm := hsend m List.mem_cons_self
    obtain ⟨hcomplete, hcontent⟩ := ih fun m hm => hsend m (List.mem_cons_of_mem _ hm)
    constructor
    · intro msg' hmsg'
      rcases List.mem_cons.mp hmsg' with rfl | hmsg'
      · exact hmsg.complete
      · exact hcomplete msg' hmsg'
    · rw [List.map_cons, List.map_cons, hcontent, NetMessage.content, hmsg.hdr, hmsg.vRecv,
        hm.getCommand_header, hm.nMessageSize]
      rfl

/-- The chunks do not matter, what was sent is received as it was, and as long as the connection is
not shut down the messages are processed in order, each of them once. -/
theorem receive_processCalls (env : NetEnv) (chunks : List (List UInt8)) :
    (receiveChunks env chunks).map (·.map NetMessage.trim) =
      (receiveMsgBytes env [] chunks.flatten).map (·.map NetMessage.trim) ∧
    ∀ msgs : List WireMessage, (∀ m ∈ msgs, m.Sendable) →
      chunks.flatten = msgs.flatMap (WireMessage.encode env) →
      ∃ vRecvMsg, receiveChunks env chunks = some vRecvMsg ∧
        (∀ msg ∈ vRecvMsg, msg.complete = true) ∧
        vRecvMsg.reverse.map NetMessage.content = msgs.map (fun m =>
          (m.command, m.data.length, messageChecksum env m.data, m.data)) ∧
        ((∀ m ∈ msgs, m.Printable) → ∀ calls : List ProcessIo,
          (∀ io ∈ calls, io.fDisconnectAtEnd = false) →
          ∃ n ≤ msgs.length,
            processCalls env calls vRecvMsg.reverse = (msgs.take n, vRecvMsg.reverse.drop n) ∧
            ((∃ io ∈ calls, io.Open) → n = msgs.length)) := by
  constructor
  · exact trim_eq_of_rel (receiveChunks_rel env chunks) (receiveMsgBytes_rel .nil chunks.flatten)
  · intro msgs hsend hchunks
    obtain ⟨vRecvMsg, hreceived, harrived⟩ := receiveChunks_encode env hsend hchunks
    obtain ⟨hcomplete, hcontent⟩ := content_of_arrived harrived hsend
    refine ⟨vRecvMsg, hreceived, ?_, hcontent, ?_⟩
    · intro msg hmsg
      exact hcomplete msg (List.mem_reverse.mpr hmsg)
    · intro hprintable calls hcalls
      exact processCalls_eq (fun m hm => ⟨hsend m hm, hprintable m hm⟩) hcalls harrived

namespace Sample

def ping : WireMessage := ⟨[112, 105, 110, 103], [1, 2]⟩
def verack : WireMessage := ⟨[118, 101, 114, 97, 99, 107], []⟩

/-- The two messages, cut in the header of the first and in that of the second. -/
def pingChunks : List (List UInt8) :=
  [(ping.encode netEnv).take 7, (ping.encode netEnv).drop 7 ++ (verack.encode netEnv).take 20,
    (verack.encode netEnv).drop 20]

theorem sendable_ping : ping.Sendable := ⟨by decide, by simp [ping], by decide⟩

theorem sendable_verack : verack.Sendable := ⟨by decide, by simp [verack], by decide⟩

def quiet : ProcessIo := ⟨fun _ => false, fun _ => false, false⟩

/-- A message with a command that `IsValid` does not take. -/
def control : WireMessage := ⟨[1], []⟩

end Sample

open Sample in
theorem receive_processCalls_ping : ∃ vRecvMsg,
    receiveChunks netEnv pingChunks = some vRecvMsg ∧
      processCalls netEnv [quiet] vRecvMsg.reverse = ([ping, verack], []) := by
  have hsend : ∀ m ∈ [ping, verack], m.Sendable := by
    intro m hm
    rcases List.mem_pair.mp hm with rfl | rfl
    · exact sendable_ping
    · exact sendable_verack
  obtain ⟨vRecvMsg, hreceived, -, hcontent, hprocess⟩ :=
    (receive_processCalls netEnv pingChunks).2 [ping, verack] hsend (by decide)
  have hprintable : ∀ m ∈ [ping, verack], m.Printable := by
    have hall : [ping, verack].all (fun m => m.command.all fun c => 0x20 ≤ c && c ≤ 0x7e) = true := by
      decide
    intro m hm c hc
    have hc := List.all_eq_true.mp (List.all_eq_true.mp hall m hm) c hc
    simpa using hc
  obtain ⟨n, -, hcalls, hall⟩ := hprocess hprintable [quiet] (by decide)
  have hn := hall ⟨quiet, List.mem_cons_self, fun _ => ⟨rfl, rfl⟩⟩
  have hlen : vRecvMsg.reverse.length = [ping, verack].length := by
    rw [← List.length_map NetMessage.content, hcontent, List.length_map]
  refine ⟨vRecvMsg, hreceived, ?_⟩
  rw [hcalls, hn, List.drop_of_length_le (Nat.le_of_eq hlen)]
  rfl

open Sample in
/-- The message is received, and not given to `ProcessMessage`. -/
theorem processCalls_control : control.Sendable ∧
    (receiveChunks netEnv [control.encode netEnv]).map (fun vRecvMsg =>
      (vRecvMsg.length, (processCalls netEnv [quiet] vRecvMsg.reverse).1)) = some (1, []) := by
  refine ⟨⟨by decide, by simp [Sample.control], by decide⟩, ?_⟩
  decide

end Beancash
