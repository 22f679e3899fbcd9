import Mathlib.Algebra.Group.Int.Defs
import Mathlib.Algebra.Group.Nat.Defs
import Mathlib.Data.Int.Basic
import Mathlib.Data.List.Basic

namespace EmuleQt.Ipc

/-- The CBOR library: `fromCbor` gives the array a payload holds, `toInteger` a value's integer or
the default. -/
structure Cbor (V : Type) where
  fromCbor : List UInt8 → Option (List V)
  toInteger : V → Int → Int

/-! # Framing -/

def FrameHeaderSize : Nat := 4

def MaxPayloadSize : Nat := 16 * 1024 * 1024

/-- `qFromBigEndian` over the length prefix. -/
def fromBigEndian (bytes : List UInt8) : Nat :=
  bytes.foldl (fun n b => n*256+b.toNat) 0

def encodeFrame (cborPayload : List UInt8) : List UInt8 :=
  let len := cborPayload.length % 2 ^ 32
  [UInt8.ofNat (len / 2 ^ 24), UInt8.ofNat (len / 2 ^ 16), UInt8.ofNat (len / 2 ^ 8),
    UInt8.ofNat len] ++ cborPayload

def payloadLen (buffer : List UInt8) : Nat := fromBigEndian (buffer.take FrameHeaderSize)

variable {V : Type} (cbor : Cbor V)

structure DecodeResult (V : Type) where
  message : List V
  bytesConsumed : Nat

def tryDecodeFrame (buffer : List UInt8) : Option (DecodeResult V) :=
  if buffer.length < FrameHeaderSize then none
  else if MaxPayloadSize < payloadLen buffer then none
  else
    let totalLen := FrameHeaderSize + payloadLen buffer
    if buffer.length < totalLen then none
    else
      (cbor.fromCbor ((buffer.drop FrameHeaderSize).take (payloadLen buffer))).map
        fun array => ⟨array, totalLen⟩

/-! # Messages -/

abbrev IpcMessage (V : Type) := List V

/-- Qt's `int` of a 64-bit integer. -/
def toInt (v : Int) : Int := v.bmod (2 ^ 32)

namespace IpcMsgType

def PushStatsUpdate : Int := 400
def PushDownloadUpdate : Int := 410
def PushDownloadAdded : Int := 411
def PushDownloadRemoved : Int := 412
def PushServerState : Int := 420
def PushSearchResult : Int := 430
def PushGlobalSearchProgress : Int := 431
def PushCoreLoading : Int := 440
def PushUploadUpdate : Int := 470
def PushKadUpdate : Int := 480
def PushKadSearchesChanged : Int := 481
def PushKnownClientsChanged : Int := 490
def PushFriendListChanged : Int := 510
def PushPortMapStatus : Int := 530
def PushCategoriesChanged : Int := 540
def PushIndexerProgress : Int := 901
def PushBtStatus : Int := 953
def PushEd3kStatus : Int := 1050
def PushEd3kFriendsChanged : Int := 1051
def PushEd3kStakeClaims : Int := 1076
def PushEd3kHideChanged : Int := 1081
def PushEd3kSetsChanged : Int := 1155
def PushEd3kLiveChanged : Int := 1157
def PushEd3kRoomsChanged : Int := 1160
def PushEd3kFiltersChanged : Int := 1170
def PushEd3kDownloads : Int := 1180

end IpcMsgType

open IpcMsgType in
/-- The pushes that report one state of the core. -/
def statePushes : List Int :=
  [PushStatsUpdate,PushDownloadUpdate,PushDownloadAdded,PushDownloadRemoved,PushServerState,
    PushUploadUpdate,PushKadUpdate,PushKadSearchesChanged,PushKnownClientsChanged,
    PushFriendListChanged,PushPortMapStatus,PushCategoriesChanged,PushCoreLoading,PushBtStatus,
    PushEd3kStatus,PushEd3kFriendsChanged,PushEd3kStakeClaims,PushEd3kFiltersChanged,
    PushEd3kRoomsChanged,PushEd3kDownloads,PushEd3kSetsChanged,PushEd3kLiveChanged,
    PushEd3kHideChanged]

open IpcMsgType in
/-- The pushes that report one state of a search. -/
def searchPushes : List Int := [PushSearchResult,PushGlobalSearchProgress,PushIndexerProgress]

namespace IpcMessage

def type (msg : IpcMessage V) : Int :=
  if msg.length < 2 then -1 else msg.head?.elim (-1) fun v => toInt (cbor.toInteger v (-1))

def seqId (msg : IpcMessage V) : Int :=
  if msg.length < 2 then 0 else msg[1]?.elim 0 fun v => toInt (cbor.toInteger v 0)

/-- `field(index).toInteger()`; a field that is not there is an undefined value, which is 0. -/
def fieldInt (msg : IpcMessage V) (index : Nat) : Int :=
  msg[index + 2]?.elim 0 fun v => cbor.toInteger v 0

def isValid (msg : IpcMessage V) : Bool :=
  if msg.length < 2 then false
  else msg.head?.elim false fun v => decide (100 ≤ toInt (cbor.toInteger v (-1)))

end IpcMessage

def snapshotPushKey (msg : IpcMessage V) : Nat :=
  if msg.seqId cbor ≠ 0 then 0
  else
    let type := msg.type cbor
    if statePushes.contains type then (type % 2 ^ 32).toNat * 2 ^ 32
    else if searchPushes.contains type then
      (type % 2 ^ 32).toNat * 2 ^ 32 + (msg.fieldInt cbor 0 % 2 ^ 32).toNat
    else 0

/-! # Frames in a stream -/

/-- What the peer wrote for one message. -/
structure Frame (V : Type) where
  payload : List UInt8
  message : IpcMessage V

/-- The payload is the CBOR of the message and may be sent. -/
structure Frame.Ok (f : Frame V) : Prop where
  small : f.payload.length ≤ MaxPayloadSize
  array : cbor.fromCbor f.payload = some f.message

def wire (fs : List (Frame V)) : List UInt8 := fs.flatMap fun f => encodeFrame f.payload

variable {cbor} {f : Frame V} {fs : List (Frame V)} {buffer tail : List UInt8} {r : DecodeResult V}

@[simp] theorem wire_nil : wire ([] : List (Frame V))=[] := rfl

@[simp] theorem wire_cons : wire (f::fs)=encodeFrame f.payload++wire fs := rfl

theorem wire_append (xs ys : List (Frame V)) : wire (xs++ys)=wire xs++wire ys :=
  List.flatMap_append

theorem encodeFrame_length (payload : List UInt8) :
    (encodeFrame payload).length=FrameHeaderSize+payload.length := by
  simp only [encodeFrame,FrameHeaderSize,List.length_append,List.length_cons,List.length_nil]

theorem payloadLen_encodeFrame {payload : List UInt8} (h : payload.length≤MaxPayloadSize)
    (more : List UInt8) : payloadLen (encodeFrame payload++more)=payload.length := by
  have hlt : payload.length<2^32 := by
    simp only [MaxPayloadSize] at h
    omega
  have hmod : payload.length%2^32=payload.length := Nat.mod_eq_of_lt hlt
  simp only [payloadLen,encodeFrame,hmod,FrameHeaderSize,List.cons_append,List.nil_append,
    List.take_succ_cons,List.take_zero,fromBigEndian,List.foldl_cons,List.foldl_nil,
    UInt8.toNat_ofNat']
  omega

theorem payloadLen_append (h : FrameHeaderSize≤buffer.length) (more : List UInt8) :
    payloadLen (buffer++more)=payloadLen buffer := by
  rw [payloadLen,payloadLen,List.take_append_of_le_length h]

theorem tryDecodeFrame_some :
    tryDecodeFrame cbor buffer=some r ↔
      FrameHeaderSize+payloadLen buffer≤buffer.length ∧ payloadLen buffer≤MaxPayloadSize ∧
        cbor.fromCbor ((buffer.drop FrameHeaderSize).take (payloadLen buffer))=some r.message ∧
        r.bytesConsumed=FrameHeaderSize+payloadLen buffer := by
  simp only [tryDecodeFrame]
  split_ifs with hshort hbig hpart
  · simp
    omega
  · simp
    omega
  · simp
    omega
  · have hsize : FrameHeaderSize+payloadLen buffer≤buffer.length := by omega
    have hmax : payloadLen buffer≤MaxPayloadSize := by omega
    cases r with
    | mk message consumed =>
      simp only [Option.map_eq_some_iff,DecodeResult.mk.injEq,hsize,hmax,true_and]
      constructor
      · intro h
        obtain ⟨a,ha,hm,hc⟩ := h
        exact ⟨hm ▸ ha,hc.symm⟩
      · intro h
        exact ⟨message,h.1,rfl,h.2.symm⟩

theorem tryDecodeFrame_append (h : tryDecodeFrame cbor buffer=some r) (more : List UInt8) :
    tryDecodeFrame cbor (buffer++more)=some r := by
  obtain ⟨hsize,hmax,hc,hn⟩ := tryDecodeFrame_some.mp h
  have hlen : payloadLen (buffer++more)=payloadLen buffer := payloadLen_append (by omega) more
  refine tryDecodeFrame_some.mpr ⟨?_,?_,?_,?_⟩
  · rw [hlen,List.length_append]
    omega
  · rwa [hlen]
  · rw [hlen,List.drop_append_of_le_length (by omega),List.take_append_of_le_length,hc]
    rw [List.length_drop]
    omega
  · rw [hlen,hn]

theorem Frame.Ok.decode (hf : f.Ok cbor) (more : List UInt8) :
    tryDecodeFrame cbor (encodeFrame f.payload++more) =
      some ⟨f.message,(encodeFrame f.payload).length⟩ := by
  have hlen := payloadLen_encodeFrame hf.small more
  refine tryDecodeFrame_some.mpr ⟨?_,?_,?_,?_⟩
  · rw [hlen,List.length_append,encodeFrame_length]
    omega
  · rw [hlen]
    exact hf.small
  · rw [hlen,show encodeFrame f.payload++more =
        (encodeFrame f.payload).take FrameHeaderSize++(f.payload++more) from rfl,
      List.drop_left' (by simp [encodeFrame,FrameHeaderSize]),List.take_left]
    exact hf.array
  · rw [hlen,encodeFrame_length]

theorem tryDecodeFrame_stream (hok : ∀ f∈fs,f.Ok cbor) (htail : tryDecodeFrame cbor tail=none)
    (hp : buffer <+: wire fs++tail) (h : tryDecodeFrame cbor buffer=some r) :
    ∃ f rest, fs=f::rest ∧ r.message=f.message ∧
      buffer=encodeFrame f.payload++buffer.drop r.bytesConsumed := by
  obtain ⟨more,hmore⟩ := hp
  have hwhole := tryDecodeFrame_append h more
  rw [hmore] at hwhole
  cases fs with
  | nil => simp [htail] at hwhole
  | cons f rest =>
    rw [wire_cons,List.append_assoc,(hok f List.mem_cons_self).decode] at hwhole
    have hr : r=⟨f.message,(encodeFrame f.payload).length⟩ := by simpa using hwhole.symm
    obtain ⟨hsize,-,-,hn⟩ := tryDecodeFrame_some.mp h
    have hlen : (encodeFrame f.payload).length≤buffer.length := by
      rw [hr] at hn
      simp only at hn
      omega
    have hfront : encodeFrame f.payload <+: buffer := by
      refine List.prefix_of_prefix_length_le (List.prefix_append _ (wire rest++tail)) ?_ hlen
      exact ⟨more,by rw [hmore,wire_cons,List.append_assoc]⟩
    obtain ⟨t,ht⟩ := hfront
    refine ⟨f,rest,rfl,by rw [hr],?_⟩
    rw [hr,← ht,List.drop_left]

theorem DecodeResult.consumes (h : tryDecodeFrame cbor buffer=some r) :
    (buffer.drop r.bytesConsumed).length+4≤buffer.length := by
  obtain ⟨hsize,-,-,hn⟩ := tryDecodeFrame_some.mp h
  rw [List.length_drop,hn]
  simp only [FrameHeaderSize] at hsize ⊢
  omega

end EmuleQt.Ipc
