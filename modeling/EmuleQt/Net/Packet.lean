import EmuleQt.Math.LittleEndian

namespace EmuleQt.Net

open Math

def OP_EDONKEYPROT : UInt8 := 0xE3
def OP_PACKEDPROT : UInt8 := 0xD4
def OP_EMULEPROT : UInt8 := 0xC5

def kPacketHeaderSize : Nat := 6
def kMaxReadBuffer : Nat := 2000000

/-- A packet as it is handed to `packetReceived`. -/
structure Packet where
  prot : UInt8
  opcode : UInt8
  payload : List UInt8
  deriving DecidableEq

/-- Errors reported by `onError`; `socket` stands for those of the operating system. -/
inductive SocketError
  | wrongHeader
  | tooBig
  | socket
  deriving DecidableEq

namespace Header

-- `HeaderStruct` over the bytes it is read from.

def eDonkeyID (data : List UInt8) : UInt8 := data.headD 0

def packetLength (data : List UInt8) : Nat := leValue ((data.drop 1).take 4)

def command (data : List UInt8) : UInt8 := (data.drop 5).headD 0

/-- `packetLength - 1` of an unsigned 32-bit number. -/
def size (data : List UInt8) : Nat := (packetLength data + (2 ^ 32 - 1)) % 2 ^ 32

/-- What is wrong with a header, if anything. -/
def check (data : List UInt8) : Option SocketError :=
  if eDonkeyID data ≠ OP_EDONKEYPROT ∧ eDonkeyID data ≠ OP_PACKEDPROT ∧
      eDonkeyID data ≠ OP_EMULEPROT then some .wrongHeader
  else if kMaxReadBuffer < size data then some .tooBig
  else none

end Header

/-- `getHeader` of a packet. -/
def headerBytes (prot opcode : UInt8) (size : Nat) : List UInt8 :=
  prot::(leBytes 4 (size+1)++[opcode])

/-- A whole header that is reported. -/
def Malformed (e : SocketError) (data : List UInt8) : Prop :=
  kPacketHeaderSize ≤ data.length ∧ Header.check data = some e

namespace Packet

/-- The bytes of a packet on the wire. -/
def wire (p : Packet) : List UInt8 := headerBytes p.prot p.opcode p.payload.length ++ p.payload

def wires (ps : List Packet) : List UInt8 := ps.flatMap wire

/-- A protocol that is known, and a payload up to the limit. -/
structure WellFormed (p : Packet) : Prop where
  prot : p.prot=OP_EDONKEYPROT ∨ p.prot=OP_PACKEDPROT ∨ p.prot=OP_EMULEPROT
  size : p.payload.length≤kMaxReadBuffer

end Packet

@[simp] theorem headerBytes_length (prot opcode : UInt8) (size : Nat) :
    (headerBytes prot opcode size).length=kPacketHeaderSize := by
  simp [headerBytes,kPacketHeaderSize]

section Header

variable {prot opcode : UInt8} {n : Nat} {data rest : List UInt8} {e : SocketError}

theorem eDonkeyID_append (prot opcode : UInt8) (n : Nat) (rest : List UInt8) :
    Header.eDonkeyID (headerBytes prot opcode n++rest)=prot := rfl

theorem size_append (h : n≤kMaxReadBuffer) :
    Header.size (headerBytes prot opcode n++rest)=n := by
  have hlength : Header.packetLength (headerBytes prot opcode n++rest)=n+1 := by
    have hbytes : (((headerBytes prot opcode n++rest).drop 1).take 4)=leBytes 4 (n+1) := by
      simp [headerBytes]
    rw [Header.packetLength,hbytes,leValue_leBytes (by unfold kMaxReadBuffer at h; omega)]
  unfold kMaxReadBuffer at h
  rw [Header.size,hlength]
  omega

theorem command_append (prot opcode : UInt8) (n : Nat) (rest : List UInt8) :
    Header.command (headerBytes prot opcode n++rest)=opcode := by
  have hdrop : (headerBytes prot opcode n++rest).drop 5=opcode::rest := by
    simp [headerBytes]
  rw [Header.command,hdrop]
  rfl

theorem check_append
    (hprot : prot=OP_EDONKEYPROT ∨ prot=OP_PACKEDPROT ∨ prot=OP_EMULEPROT)
    (h : n≤kMaxReadBuffer) : Header.check (headerBytes prot opcode n++rest)=none := by
  unfold Header.check
  rw [eDonkeyID_append,size_append h,if_neg (Nat.not_lt.mpr h)]
  rcases hprot with rfl | rfl | rfl <;> rfl

theorem header_of_check (hlength : kPacketHeaderSize≤data.length)
    (hcheck : Header.check data=none) :
    data.take kPacketHeaderSize =
        headerBytes (Header.eDonkeyID data) (Header.command data) (Header.size data) ∧
      (Header.eDonkeyID data=OP_EDONKEYPROT ∨ Header.eDonkeyID data=OP_PACKEDPROT ∨
        Header.eDonkeyID data=OP_EMULEPROT) ∧ Header.size data≤kMaxReadBuffer := by
  unfold Header.check at hcheck
  split_ifs at hcheck with hprot hsize
  rw [not_and_or,not_and_or,not_not,not_not,not_not] at hprot
  refine ⟨?_,hprot,Nat.not_lt.mp hsize⟩
  obtain ⟨b0,b1,b2,b3,b4,b5,rest,rfl⟩ : ∃ b0 b1 b2 b3 b4 b5 rest,
      data=b0::b1::b2::b3::b4::b5::rest := by
    rcases data with _ | ⟨b0,_ | ⟨b1,_ | ⟨b2,_ | ⟨b3,_ | ⟨b4,_ | ⟨b5,rest⟩⟩⟩⟩⟩⟩
    iterate 6 · simp [kPacketHeaderSize] at hlength
    exact ⟨b0,b1,b2,b3,b4,b5,rest,rfl⟩
  have hlt := leValue_lt [b1,b2,b3,b4]
  have hlen : Header.size (b0::b1::b2::b3::b4::b5::rest)+1 =
      leValue [b1,b2,b3,b4] := by
    have hpacketLength : Header.packetLength (b0::b1::b2::b3::b4::b5::rest) =
        leValue [b1,b2,b3,b4] := rfl
    rw [Header.size,hpacketLength] at hsize ⊢
    rw [List.length_cons,List.length_cons,List.length_cons,List.length_cons,
      List.length_nil] at hlt
    unfold kMaxReadBuffer at hsize
    omega
  have hback := leBytes_leValue [b1,b2,b3,b4]
  unfold headerBytes
  rw [hlen]
  rw [show 4=[b1,b2,b3,b4].length from rfl,hback]
  rfl

end Header

end EmuleQt.Net
