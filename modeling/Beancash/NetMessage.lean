import Beancash.ByteStream
import Beancash.CheckSig
import Beancash.Serialize

namespace Beancash

open ByteStream

/-- What the messages of a network depend on. -/
structure NetEnv where
  crypto : Crypto
  messageStart : Vector UInt8 4

structure MessageHeader where
  pchMessageStart : List UInt8
  pchCommand : List UInt8
  nMessageSize : UInt32
  nChecksum : UInt32
deriving DecidableEq

namespace MessageHeader

def commandSize : ℕ := 12
def headerSize : ℕ := 24
def messageSizeOffset : ℕ := 16
def checksumOffset : ℕ := 20

/-- `CMessageHeader(pszCommand, nMessageSizeIn)`. `strncpy` takes the first 12 characters, or
fills up with zeros. -/
def ofCommand (env : NetEnv) (pszCommand : List UInt8) (nMessageSize : UInt32) : MessageHeader where
  pchMessageStart := env.messageStart.toList
  pchCommand := pszCommand.take commandSize ++ List.replicate (commandSize - pszCommand.length) 0
  nMessageSize := nMessageSize
  nChecksum := 0

/-- `CMessageHeader()` -/
def new (env : NetEnv) : MessageHeader where
  pchMessageStart := env.messageStart.toList
  pchCommand := (List.replicate commandSize 0).set 1 1
  nMessageSize := 0xffffffff
  nChecksum := 0

def serialize (hdr : MessageHeader) : List UInt8 :=
  hdr.pchMessageStart ++ hdr.pchCommand ++ littleEndian 4 hdr.nMessageSize.toNat ++
    littleEndian 4 hdr.nChecksum.toNat

/-- `hdrbuf >> hdr`, of the 24 bytes that are there. -/
def unserialize (hdrbuf : List UInt8) : MessageHeader where
  pchMessageStart := hdrbuf.take 4
  pchCommand := (hdrbuf.drop 4).take commandSize
  nMessageSize := .ofNat (ofLittleEndian ((hdrbuf.drop messageSizeOffset).take 4))
  nChecksum := .ofNat (ofLittleEndian ((hdrbuf.drop checksumOffset).take 4))

def getCommand (hdr : MessageHeader) : List UInt8 :=
  if hdr.pchCommand.getLast? = some 0 then hdr.pchCommand.takeWhile (· ≠ 0) else hdr.pchCommand

/-- The loop over the command: printable characters, and zeros after them. -/
def isValidCommand : List UInt8 → Bool
  | [] => true
  | p1 :: pchCommand =>
    if p1 = 0 then pchCommand.all (· = 0)
    else decide (0x20 ≤ p1 ∧ p1 ≤ 0x7e) && isValidCommand pchCommand

def isValid (env : NetEnv) (hdr : MessageHeader) : Bool :=
  decide (hdr.pchMessageStart = env.messageStart.toList) && isValidCommand hdr.pchCommand &&
    decide (hdr.nMessageSize.toNat ≤ maxSize)

/-- Both numbers take four bytes. -/
structure WellFormed (hdr : MessageHeader) : Prop where
  messageStart : hdr.pchMessageStart.length = 4
  command : hdr.pchCommand.length = commandSize

theorem length_serialize {hdr : MessageHeader} (h : hdr.WellFormed) :
    hdr.serialize.length = headerSize := by
  simp only [serialize, List.length_append, length_littleEndian, h.messageStart, h.command,
    commandSize, headerSize]

theorem unserialize_header {hdr : MessageHeader} (h : hdr.WellFormed) :
    unserialize hdr.serialize = hdr := by
  obtain ⟨start, command, size, checksum⟩ := hdr
  obtain ⟨hstart, hcommand⟩ := h
  dsimp only at hstart hcommand
  have hnumber : ∀ n : UInt32, UInt32.ofNat (ofLittleEndian (littleEndian 4 n.toNat)) = n := by
    intro n
    rw [ofLittleEndian_littleEndian n.toNat_lt, UInt32.ofNat_toNat]
  have hrest : ∀ tail, (start ++ command ++ tail).drop messageSizeOffset = tail := by
    intro tail
    rw [List.drop_append_of_le_length, List.drop_eq_nil_iff.mpr, List.nil_append]
    all_goals rw [List.length_append, hstart, hcommand]; decide
  simp only [unserialize, serialize, mk.injEq, List.append_assoc]
  refine ⟨?_, ?_, ?_, ?_⟩
  · rw [List.take_append_of_le_length (by omega), List.take_of_length_le (by omega)]
  · rw [← hstart, List.drop_left, List.take_append_of_le_length (by omega),
      List.take_of_length_le (by omega)]
  · rw [← List.append_assoc, hrest, List.take_append_of_le_length (by simp),
      List.take_of_length_le (by simp), hnumber]
  · have hdrop : ∀ l : List UInt8, l.drop checksumOffset = (l.drop messageSizeOffset).drop 4 := by
      intro l
      rw [List.drop_drop]
      rfl
    rw [hdrop, ← List.append_assoc, hrest, List.drop_append_of_le_length (by simp),
      List.drop_of_length_le (by simp), List.nil_append, List.take_of_length_le (by simp), hnumber]

theorem wellFormed_ofCommand (env : NetEnv) (pszCommand : List UInt8) (nMessageSize : UInt32) :
    (ofCommand env pszCommand nMessageSize).WellFormed where
  messageStart := by simp [ofCommand]
  command := by
    simp only [ofCommand, List.length_append, List.length_take, List.length_replicate]
    omega

end MessageHeader

/-- The first four bytes of the hash, as a number. -/
def messageChecksum (env : NetEnv) (data : List UInt8) : UInt32 :=
  .ofNat (ofLittleEndian ((env.crypto.hash data).toList.take 4))

/-- `memcpy` of some bytes into the middle of others. -/
def putBytes (s : List UInt8) (offset : ℕ) (bytes : List UInt8) : List UInt8 :=
  s.take offset ++ bytes ++ s.drop (offset + bytes.length)

/-- What `ssSend` is after `BeginMessage`. -/
def beginMessage (env : NetEnv) (pszCommand : List UInt8) : List UInt8 :=
  (MessageHeader.ofCommand env pszCommand 0).serialize

/-- What `EndMessage` makes of a message that was begun, with its data behind it. -/
def sealMessage (env : NetEnv) (ssSend : List UInt8) : List UInt8 :=
  let nSize : UInt32 := .ofNat (ssSend.length - MessageHeader.headerSize)
  let ssSend := putBytes ssSend MessageHeader.messageSizeOffset (littleEndian 4 nSize.toNat)
  let nChecksum := messageChecksum env (ssSend.drop MessageHeader.headerSize)
  putBytes ssSend MessageHeader.checksumOffset (littleEndian 4 nChecksum.toNat)

/-- A message as it is sent. -/
def encodeMessage (env : NetEnv) (pszCommand data : List UInt8) : List UInt8 :=
  { MessageHeader.ofCommand env pszCommand (.ofNat data.length) with
    nChecksum := messageChecksum env data }.serialize ++ data

theorem putBytes_append {s bytes t : List UInt8} {offset : ℕ} (hs : s.length = offset)
    {u : List UInt8} (hu : u.length = bytes.length) :
    putBytes (s ++ u ++ t) offset bytes = s ++ bytes ++ t := by
  unfold putBytes
  rw [List.append_assoc s u t, ← hs, List.take_left, ← hu, ← List.length_append, ← List.append_assoc,
    List.drop_left]

theorem sealMessage_eq (env : NetEnv) (pszCommand data : List UInt8) :
    sealMessage env (beginMessage env pszCommand ++ data) = encodeMessage env pszCommand data := by
  have hwf := MessageHeader.wellFormed_ofCommand env pszCommand 0
  have hlen : (beginMessage env pszCommand).length = MessageHeader.headerSize :=
    MessageHeader.length_serialize hwf
  obtain ⟨front, hfront⟩ : ∃ front, front =
      (MessageHeader.ofCommand env pszCommand 0).pchMessageStart ++
        (MessageHeader.ofCommand env pszCommand 0).pchCommand := ⟨_, rfl⟩
  have hfrontLen : front.length = MessageHeader.messageSizeOffset := by
    rw [hfront, List.length_append, hwf.messageStart, hwf.command]
    rfl
  have hbegin : beginMessage env pszCommand ++ data =
      front ++ littleEndian 4 0 ++ (littleEndian 4 0 ++ data) := by
    unfold beginMessage MessageHeader.serialize
    rw [hfront]
    simp only [List.append_assoc]
    rfl
  have hsize : (beginMessage env pszCommand ++ data).length - MessageHeader.headerSize =
      data.length := by
    rw [List.length_append, hlen, Nat.add_sub_cancel_left]
  unfold sealMessage
  dsimp only
  rw [hsize, hbegin, putBytes_append hfrontLen (by simp)]
  have hdrop : ∀ size : List UInt8, size.length = 4 →
      (front ++ size ++ (littleEndian 4 0 ++ data)).drop MessageHeader.headerSize = data := by
    intro size hs
    have hhead : (front ++ size ++ littleEndian 4 0).length = MessageHeader.headerSize := by
      simp only [List.length_append, length_littleEndian, hfrontLen, hs]
      rfl
    rw [← List.append_assoc, ← hhead, List.drop_left]
  rw [hdrop _ (by simp), ← List.append_assoc (front ++ _), putBytes_append _ (by simp)]
  · rw [hfront]
    rfl
  · rw [List.length_append, hfrontLen, length_littleEndian]
    rfl

theorem length_encodeMessage (env : NetEnv) (pszCommand data : List UInt8) :
    (encodeMessage env pszCommand data).length = MessageHeader.headerSize + data.length := by
  unfold encodeMessage
  rw [List.length_append, MessageHeader.length_serialize]
  have hwf := MessageHeader.wellFormed_ofCommand env pszCommand (.ofNat data.length)
  exact ⟨hwf.messageStart, hwf.command⟩

end Beancash
