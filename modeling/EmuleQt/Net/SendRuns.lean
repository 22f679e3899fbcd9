import EmuleQt.Net.SendQueue

namespace EmuleQt.Net

open Framework

variable {γ ω : Type} {g : Ground γ ω} {c : Call} {x x' : Sending γ ω} {s s' : SendSide γ}
  {ret ret' : SocketSentBytes}

/-- What goes out for one packet. -/
def Taken.stream (t : Taken) : List UInt8 := t.negotiation ++ t.image

/-- The packets of one kind, in the order in which they were taken. -/
def packetsOf (control : Bool) (taken : List Taken) : List OutPacket :=
  (taken.filter fun t => t.control == control).map Taken.packet

def bytesOf (control : Bool) (taken : List Taken) : Nat :=
  ((taken.filter fun t => t.control == control).map fun t => t.image.length).sum

theorem packetsOf_append (control : Bool) (taken : List Taken) (t : Taken) :
    packetsOf control (taken++[t]) =
      packetsOf control taken++if t.control=control then [t.packet] else [] := by
  by_cases h : t.control=control <;> simp [packetsOf,h]

theorem bytesOf_append (control : Bool) (taken : List Taken) (t : Taken) :
    bytesOf control (taken++[t]) =
      bytesOf control taken+if t.control=control then t.image.length else 0 := by
  by_cases h : t.control=control <;> simp [bytesOf,h]

theorem bytesOf_add (taken : List Taken) :
    bytesOf true taken+bytesOf false taken=(taken.map fun t => t.image.length).sum := by
  induction taken with
  | nil => rfl
  | cons t taken ih =>
    simp only [bytesOf,beq_true,beq_false] at ih ⊢
    cases hkind : t.control <;> simp [hkind] <;> omega

/-- The bytes reported for one kind. -/
def SocketSentBytes.of (control : Bool) (ret : SocketSentBytes) : Nat :=
  if control then ret.sentBytesControlPackets else ret.sentBytesStandardPackets

def SendHistory.reported (control : Bool) (h : SendHistory) : Nat :=
  (h.reports.map (SocketSentBytes.of control)).sum

namespace SendSide

/-- What is left of the packet under way. -/
def unsent (s : SendSide γ) : List UInt8 := (s.sendBuffer.getD []).drop s.sent

/-- How much is left of it, where it is of that kind. -/
def unsentOf (control : Bool) (s : SendSide γ) : Nat :=
  if s.currentPacketIsControl=control then s.unsent.length else 0

theorem unsent_none (h : s.sendBuffer=none) : s.unsent=[] := by
  simp [unsent,h]

theorem unsentOf_none (h : s.sendBuffer=none) (control : Bool) : s.unsentOf control=0 := by
  simp [unsentOf,unsent_none h]

theorem unsent_length (s : SendSide γ) : s.unsent.length=s.sendBufferLen-s.sent := by
  rw [unsent,List.length_drop,sendBufferLen]

/-- The queues, the wire and the reports fit together; `ret` is the report of the call that is
under way. -/
structure Consistent (g : Ground γ ω) (s : SendSide γ) (ret : SocketSentBytes) : Prop where
  stream : s.history.wire ++ s.unsent = s.history.taken.flatMap Taken.stream
  whole : ∀ t ∈ s.history.taken, ∃ layer,
    t.image = (g.cryptPrepareSendData layer t.packet.bytes).2
  control : s.history.acceptedControl = packetsOf true s.history.taken ++ s.controlQueue
  standard : (packetsOf false s.history.taken ++ s.standardQueue.map Prod.fst).Sublist
    s.history.acceptedStandard
  controlBytes : s.controlQueueBytes = (s.controlQueue.map OutPacket.size).sum
  standardBytes : s.standardQueueBytes = (s.standardQueue.map fun e => e.1.size).sum
  counted : ∀ control, s.history.reported control + ret.of control + s.unsentOf control =
    bytesOf control s.history.taken
  len_lt : s.sendBufferLen < 2 ^ 32
  sent_le : s.sent ≤ s.sendBufferLen

/-- No packet is under way, or something is left of it. -/
def Settled (s : SendSide γ) : Prop := s.sendBuffer.isSome → s.sent < s.sendBufferLen

theorem fresh_consistent (g : Ground γ ω) (layer : γ) :
    (fresh layer).Consistent g ⟨0,0,true⟩ ∧ (fresh layer).Settled := by
  refine ⟨⟨rfl,?_,rfl,List.Sublist.refl _,rfl,rfl,?_,Nat.two_pow_pos 32,Nat.le_refl 0⟩,
    ?_⟩
  · intro t ht
    cases ht
  · intro control
    cases control <;> rfl
  · intro h
    cases h

end SendSide

namespace Call

/-- A call as `send` makes it: a limit of whole fragments, and of 31 bits. -/
structure Sane (c : Call) : Prop where
  pos : 0 < c.minFragSize
  whole : c.minFragSize ∣ c.maxNumberOfBytesToSend
  small : c.maxNumberOfBytesToSend ≤ INT32_MAX

theorem sane_of_getNextFragSize (maxNumberOfBytesToSend minFragSize : Nat)
    (only wasLong : Bool) :
    (Call.mk (getNextFragSize maxNumberOfBytesToSend (max 1 minFragSize)) (max 1 minFragSize) only
      wasLong).Sane where
  pos := by
    show 0 < max 1 minFragSize
    omega
  whole := Nat.dvd_mul_left _ _
  small := Nat.le_trans (Nat.div_mul_le_self _ _) (Nat.min_le_left _ _)

theorem getNextFragSize_spec (hc : c.Sane) {sentBytes : Nat}
    (hsent : sentBytes<c.maxNumberOfBytesToSend) (hpart : sentBytes%c.minFragSize≠0) :
    sentBytes≤getNextFragSize sentBytes c.minFragSize ∧
      getNextFragSize sentBytes c.minFragSize≤c.maxNumberOfBytesToSend := by
  obtain ⟨hpos,⟨k,hk⟩,hsmall⟩ := hc
  unfold INT32_MAX at hsmall
  -- `q` whole fragments have been sent, and a part of the next.
  have hdiv := Nat.div_add_mod sentBytes c.minFragSize
  have hmod := Nat.mod_lt sentBytes hpos
  have hq : sentBytes/c.minFragSize<k := by
    rw [Nat.div_lt_iff_lt_mul hpos,Nat.mul_comm,← hk]
    exact hsent
  have hup : c.minFragSize*(sentBytes/c.minFragSize+1)≤c.maxNumberOfBytesToSend := by
    rw [hk]
    exact Nat.mul_le_mul_left _ hq
  have hmulSucc : c.minFragSize*(sentBytes/c.minFragSize+1) =
      c.minFragSize*(sentBytes/c.minFragSize)+c.minFragSize := Nat.mul_succ _ _
  have hcut : min INT32_MAX ((sentBytes+c.minFragSize-1)%2^32)/c.minFragSize =
      sentBytes/c.minFragSize+1 := by
    rw [Nat.mod_eq_of_lt (by omega)]
    refine Nat.div_eq_of_lt_le ?_ ?_
    · rw [Nat.mul_comm,INT32_MAX]
      omega
    · rw [Nat.mul_comm,Nat.mul_succ]
      omega
  rw [getNextFragSize,hcut,Nat.mul_comm]
  omega

theorem toSend_le (hc : c.Sane) {drainForControl : Bool} (h : c.sendsOn x drainForControl=true) :
    c.toSend x drainForControl≤x.socket.sendBufferLen-x.socket.sent ∧
      x.sentBytes+c.toSend x drainForControl≤c.maxNumberOfBytesToSend := by
  simp only [sendsOn,Bool.and_eq_true,Bool.or_eq_true,decide_eq_true_eq] at h
  obtain ⟨⟨⟨-,hmax⟩,hguard⟩,-⟩ := h
  have hfrag : c.minFragSize≤c.maxNumberOfBytesToSend :=
    Nat.le_of_dvd (Nat.zero_lt_of_lt hmax) hc.whole
  -- The cases before the last are those the guard of the inner loop lists.
  have hpart : ¬(c.onlyControlPackets=false ∨ x.socket.currentPacketIsControl=true) →
      ¬drainForControl=true → ¬(c.wasLongTimeSinceSend=true ∧ x.sentBytes<c.minFragSize) →
        x.sentBytes%c.minFragSize≠0 := by
    intro hfull hdrain hlong
    rw [not_or] at hfull
    rcases hguard with (((hall | hcontrol) | hdrain') | hlong') | hpart
    · exact absurd (by simpa using hall) hfull.1
    · exact absurd hcontrol hfull.2
    · exact absurd hdrain' hdrain
    · exact absurd hlong' hlong
    · exact hpart
  unfold toSend
  dsimp only
  split_ifs with hfull hdrain hlong hnext
  · omega
  · omega
  · omega
  · have hspec := getNextFragSize_spec hc hmax (hpart hfull hdrain hlong)
    omega
  · exact absurd (getNextFragSize_spec hc hmax (hpart hfull hdrain hlong)).1 hnext

end Call

namespace Sending

theorem take_consistent {control : Bool} {packet : OutPacket} {s s' : SendSide γ}
    (h : s.Consistent g ret) (hnone : s.sendBuffer=none) (hhistory : s'.history=s.history)
    (hcurrent : s'.currentPacketIsControl=control)
    (hcontrol : s.controlQueue =
      (if control=true then [packet] else [])++s'.controlQueue)
    (hstandard : s.standardQueue.map Prod.fst =
      (if control=false then [packet] else [])++s'.standardQueue.map Prod.fst)
    (hcontrolBytes : s'.controlQueueBytes=(s'.controlQueue.map OutPacket.size).sum)
    (hstandardBytes : s'.standardQueueBytes=(s'.standardQueue.map fun e => e.1.size).sum) :
    (x.take g control packet s').socket.Consistent g ret := by
  have hlen := g.crypt_length s'.layer packet.bytes
  have hunsent : (x.take g control packet s').socket.unsent =
      (g.cryptPrepareSendData s'.layer packet.bytes).2 := rfl
  refine ⟨?_,?_,?_,?_,hcontrolBytes,hstandardBytes,?_,?_,Nat.zero_le _⟩
  · have hstream := h.stream
    rw [SendSide.unsent_none hnone,List.append_nil] at hstream
    rw [hunsent]
    simp only [take,hhistory,List.flatMap_append,List.flatMap_singleton,Taken.stream,
      List.append_assoc,← hstream]
  · intro t ht
    simp only [take,hhistory] at ht
    rcases List.mem_append.mp ht with ht | ht
    · exact h.whole t ht
    · rw [List.mem_singleton.mp ht]
      exact ⟨s'.layer,rfl⟩
  · simp only [take,hhistory,packetsOf_append,List.append_assoc]
    rw [h.control,hcontrol]
  · simp only [take,hhistory,packetsOf_append,List.append_assoc]
    rw [← hstandard]
    exact h.standard
  · intro kind
    have hcounted := h.counted kind
    rw [SendSide.unsentOf_none hnone] at hcounted
    simp only [SendSide.unsentOf,hunsent]
    simp only [take,SendHistory.reported,hhistory,hcurrent,bytesOf_append] at hcounted ⊢
    omega
  · show (g.cryptPrepareSendData s'.layer packet.bytes).2.length<2^32
    rw [hlen]
    exact packet.fits

theorem nextPacket_spec (h : x.socket.Consistent g ret) (hnone : x.socket.sendBuffer=none)
    (hnext : x.nextPacket g=some x') :
    x'.socket.Consistent g ret ∧ x'.socket.sendBuffer.isSome ∧ x'.socket.sent=0 ∧
      x'.sentBytes=x.sentBytes ∧ x'.ret=x.ret ∧
        x'.socket.controlQueue.length+x'.socket.standardQueue.length+1 =
          x.socket.controlQueue.length+x.socket.standardQueue.length := by
  unfold nextPacket at hnext
  have hcontrolBytes := h.controlBytes
  have hstandardBytes := h.standardBytes
  cases hqueue : x.socket.controlQueue with
  | cons packet queue =>
    rw [hqueue] at hnext hcontrolBytes
    obtain rfl := Option.some.inj hnext
    rw [List.map_cons,List.sum_cons] at hcontrolBytes
    refine ⟨take_consistent h hnone rfl rfl hqueue rfl ?_ hstandardBytes,rfl,rfl,rfl,rfl,?_⟩
    · dsimp only
      omega
    · simp only [take,List.length_cons]
      omega
  | nil =>
    rw [hqueue] at hnext
    cases hstandard : x.socket.standardQueue with
    | nil =>
      rw [hstandard] at hnext
      cases hnext
    | cons entry queue =>
      rw [hstandard] at hnext hstandardBytes
      obtain rfl := Option.some.inj hnext
      simp only [List.map_cons,List.sum_cons] at hstandardBytes
      refine ⟨take_consistent h hnone rfl rfl rfl ?_ hcontrolBytes ?_,rfl,rfl,rfl,rfl,?_⟩
      · rw [hstandard]
        rfl
      · dsimp only
        omega
      · simp only [take,hqueue,List.length_cons]
        omega

theorem wrote_consistent {n : Nat} (h : x.socket.Consistent g x.ret)
    (hn : n≤x.socket.sendBufferLen-x.socket.sent)
    (hsum : x.ret.sentBytesControlPackets+x.ret.sentBytesStandardPackets+n<2^32) :
    (x.wrote n).socket.Consistent g (x.wrote n).ret := by
  have hlen := h.len_lt
  have hle := h.sent_le
  have hsent : (x.socket.sent+n)%2^32=x.socket.sent+n := Nat.mod_eq_of_lt (by omega)
  have hunsent : (x.wrote n).socket.unsent=x.socket.unsent.drop n := by
    simp only [SendSide.unsent,wrote,hsent,List.drop_drop]
  refine ⟨?_,h.whole,h.control,h.standard,h.controlBytes,h.standardBytes,?_,hlen,?_⟩
  · have hstream := h.stream
    rw [hunsent]
    simp only [wrote,List.append_assoc]
    rw [← SendSide.unsent,List.take_append_drop]
    exact hstream
  · intro control
    have hcounted := h.counted control
    have hleft := x.socket.unsent_length
    simp only [SendSide.unsentOf,hunsent,List.length_drop] at hcounted ⊢
    simp only [wrote,SocketSentBytes.of,SendHistory.reported] at hcounted ⊢
    by_cases hcurrent : x.socket.currentPacketIsControl=true
    · cases control <;> simp [hcurrent] at hcounted ⊢ <;> omega
    · cases control <;> simp [hcurrent] at hcounted ⊢ <;> omega
  · simp only [wrote,hsent]
    show x.socket.sent+n≤x.socket.sendBufferLen
    omega

theorem finish_spec (h : s.Consistent g ret) (now : Nat) :
    (finish now s).Consistent g ret ∧ (finish now s).Settled ∧
      (finish now s).controlQueue=s.controlQueue ∧
        (finish now s).standardQueue=s.standardQueue := by
  by_cases hwhole : s.sent=s.sendBufferLen
  · have hnil : s.unsent=[] := by
      rw [← List.length_eq_zero_iff,s.unsent_length]
      omega
    have hempty : (finish now s).sendBuffer=none ∧ (finish now s).sent=0 := by
      unfold finish
      split_ifs <;> exact ⟨rfl,rfl⟩
    have hkeep : (finish now s).history=s.history ∧
        (finish now s).controlQueue=s.controlQueue ∧
          (finish now s).standardQueue=s.standardQueue ∧
            (finish now s).controlQueueBytes=s.controlQueueBytes ∧
              (finish now s).standardQueueBytes=s.standardQueueBytes := by
      unfold finish
      split_ifs <;> exact ⟨rfl,rfl,rfl,rfl,rfl⟩
    obtain ⟨hnone,hzero⟩ := hempty
    obtain ⟨hhistory,hcontrol,hstandard,hcontrolBytes,hstandardBytes⟩ := hkeep
    have hlen : (finish now s).sendBufferLen=0 := by
      rw [SendSide.sendBufferLen,hnone]
      rfl
    refine ⟨⟨?_,?_,?_,?_,?_,?_,?_,?_,?_⟩,?_,hcontrol,hstandard⟩
    · rw [SendSide.unsent_none hnone,hhistory,← h.stream,hnil]
    · rw [hhistory]
      exact h.whole
    · rw [hhistory,hcontrol]
      exact h.control
    · rw [hhistory,hstandard]
      exact h.standard
    · rw [hcontrol,hcontrolBytes]
      exact h.controlBytes
    · rw [hstandard,hstandardBytes]
      exact h.standardBytes
    · intro control
      have hcounted := h.counted control
      have hleft : s.unsentOf control=0 := by simp [SendSide.unsentOf,hnil]
      rw [SendSide.unsentOf_none hnone,hhistory,← hcounted,hleft]
    · rw [hlen]
      decide
    · rw [hzero]
      exact Nat.zero_le _
    · intro hsome
      rw [hnone] at hsome
      cases hsome
  · have hsame : finish now s=s := if_neg hwhole
    rw [hsame]
    refine ⟨h,?_,rfl,rfl⟩
    intro hsome
    exact Nat.lt_of_le_of_ne h.sent_le hwhole

theorem returned_consistent (h : x.socket.Consistent g ret)
    (hc : ∀ control,ret'.of control=ret.of control) :
    (x.returned ret').2.1.Consistent g ⟨0,0,true⟩ := by
  refine ⟨h.stream,h.whole,h.control,h.standard,h.controlBytes,h.standardBytes,?_,h.len_lt,
    h.sent_le⟩
  intro control
  have hcounted := h.counted control
  have hzero : (SocketSentBytes.mk 0 0 true).of control=0 := by cases control <;> rfl
  have hsum : (x.returned ret').2.1.history.reported control =
      x.socket.history.reported control+ret.of control := by
    simp [returned,SendHistory.reported,hc control]
  rw [hzero,hsum]
  exact hcounted

end Sending

open Framework

variable {γ ω : Type} {g : Ground γ ω} {c : Call} {x x' : Sending γ ω} {s s' : SendSide γ}
  {ret : SocketSentBytes} {w w' : ω}

namespace Sending

/-- Where a call stands between two passes. -/
structure Underway (g : Ground γ ω) (c : Call) (x : Sending γ ω) : Prop where
  consistent : x.socket.Consistent g x.ret
  sum : x.ret.sentBytesControlPackets+x.ret.sentBytesStandardPackets=x.sentBytes
  bounded : x.sentBytes≤c.maxNumberOfBytesToSend
  success : x.ret.success=true
  settled : x.place = .outer → x.socket.Settled
  drain : ∀ drainForControl, x.place = .inner drainForControl → x.socket.sendBuffer.isSome ∧
    drainForControl=(c.onlyControlPackets && Call.blocksControl x.socket)

/-- What a call has before it: bytes of its limit, packets, and the way to the next of them. -/
def measure (c : Call) (x : Sending γ ω) : Nat :=
  3 * (c.maxNumberOfBytesToSend - x.sentBytes) +
    2 * (x.socket.controlQueue.length + x.socket.standardQueue.length) +
      match x.place with
      | .outer => 1
      | .inner drainForControl => if c.sendsOn x drainForControl then 0 else 2

theorem sendsOn_of_goesOn (hgoes : c.goesOn x=true) (hsome : x.socket.sendBuffer.isSome)
    (hleft : x.socket.sent<x.socket.sendBufferLen) :
    c.sendsOn x (c.onlyControlPackets && Call.blocksControl x.socket)=true := by
  simp only [Call.goesOn,Bool.and_eq_true,Bool.or_eq_true,decide_eq_true_eq] at hgoes
  obtain ⟨⟨⟨hmax,hsuccess⟩,-⟩,hguard⟩ := hgoes
  simp only [Call.sendsOn,Bool.and_eq_true,Bool.or_eq_true,decide_eq_true_eq]
  refine ⟨⟨⟨hleft,hmax⟩,?_⟩,hsuccess⟩
  rcases hguard with (((hall | hcontrol) | hpart) | hnone) | hblocks
  · exact Or.inl (Or.inl (Or.inl (Or.inl hall)))
  · exact Or.inl (Or.inl (Or.inl (Or.inr hcontrol.2)))
  · exact Or.inr hpart.2
  · rw [Option.isNone_iff_eq_none] at hnone
    rw [hnone.1] at hsome
    cases hsome
  · cases honly : c.onlyControlPackets with
    | false => exact Or.inl (Or.inl (Or.inl (Or.inl rfl)))
    | true => exact Or.inl (Or.inl (Or.inr ⟨rfl,hblocks⟩))

theorem measure_outer (h : x.place = .outer) : x.measure c =
    3*(c.maxNumberOfBytesToSend-x.sentBytes) +
      2*(x.socket.controlQueue.length+x.socket.standardQueue.length)+1 := by
  rw [measure,h]

theorem measure_inner_le {drainForControl : Bool} (h : x.place = .inner drainForControl) :
    x.measure c≤3*(c.maxNumberOfBytesToSend-x.sentBytes) +
      2*(x.socket.controlQueue.length+x.socket.standardQueue.length)+2 := by
  rw [measure,h]
  dsimp only
  split_ifs <;> omega

theorem pass_outer (h : x.Underway g c) (hplace : x.place = .outer)
    (hpass : x.pass g c = .inl x') : x'.Underway g c ∧ x'.measure c<x.measure c := by
  unfold pass at hpass
  rw [hplace] at hpass
  dsimp only at hpass
  split_ifs at hpass with hgoes
  cases hbuffer : x.socket.sendBuffer with
  | some image =>
    rw [hbuffer] at hpass
    obtain rfl := Sum.inl.inj hpass
    have hsome : x.socket.sendBuffer.isSome := by rw [hbuffer]; rfl
    have hon := sendsOn_of_goesOn hgoes hsome (h.settled hplace hsome)
    refine ⟨⟨h.consistent,h.sum,h.bounded,h.success,?_,?_⟩,?_⟩
    · intro hother
      cases hother
    · intro drainForControl hdrain
      exact ⟨hsome,(Place.inner.inj hdrain).symm⟩
    · have hzero : (⟨x.socket,x.world,x.sentBytes,x.ret,
          .inner (c.onlyControlPackets && Call.blocksControl x.socket)⟩ : Sending γ ω).measure c =
          3*(c.maxNumberOfBytesToSend-x.sentBytes) +
            2*(x.socket.controlQueue.length+x.socket.standardQueue.length) :=
        congrArg _ (if_pos hon)
      rw [hzero,measure_outer hplace]
      exact Nat.lt_succ_self _
  | none =>
    rw [hbuffer] at hpass
    cases hnext : x.nextPacket g with
    | none =>
      rw [hnext] at hpass
      cases hpass
    | some y =>
      rw [hnext] at hpass
      obtain rfl := Sum.inl.inj hpass
      obtain ⟨hconsistent,hsome,-,hsent,hret,hqueues⟩ :=
        nextPacket_spec h.consistent hbuffer hnext
      refine ⟨⟨?_,?_,?_,?_,?_,?_⟩,?_⟩
      · exact hret ▸ hconsistent
      · show y.ret.sentBytesControlPackets+y.ret.sentBytesStandardPackets=y.sentBytes
        rw [hret,hsent]
        exact h.sum
      · exact hsent ▸ h.bounded
      · exact hret ▸ h.success
      · intro hother
        cases hother
      · intro drainForControl hdrain
        exact ⟨hsome,(Place.inner.inj hdrain).symm⟩
      · refine Nat.lt_of_le_of_lt (measure_inner_le rfl) ?_
        rw [measure_outer hplace]
        dsimp only
        rw [hsent]
        omega

theorem pass_inner (hc : c.Sane) (h : x.Underway g c) {drainForControl : Bool}
    (hplace : x.place = .inner drainForControl) (hpass : x.pass g c = .inl x') :
    x'.Underway g c ∧ x'.measure c<x.measure c := by
  unfold pass at hpass
  rw [hplace] at hpass
  dsimp only at hpass
  obtain ⟨hsome,hdrain⟩ := h.drain drainForControl hplace
  split_ifs at hpass with hon
  · obtain ⟨hpacket,hlimit⟩ := Call.toSend_le hc hon
    cases hwritten : (g.write (c.toSend x drainForControl) x.world).1.written with
    | blocked =>
      rw [hwritten] at hpass
      cases hpass
    | failed =>
      rw [hwritten] at hpass
      cases hpass
    | bytes n =>
      rw [hwritten] at hpass
      obtain rfl := Sum.inl.inj hpass
      obtain ⟨hpos,hle⟩ := WriteResult.written_bytes hwritten
      have hsmall := hc.small
      have hsum := h.sum
      unfold INT32_MAX at hsmall
      have hsent : (x.sentBytes+n)%2^32=x.sentBytes+n := Nat.mod_eq_of_lt (by omega)
      have hconsistent : ({ x.socket with
          lastSent := g.getTickCount x.world } : SendSide γ).Consistent g x.ret :=
        { h.consistent with }
      refine ⟨⟨wrote_consistent hconsistent ?_ ?_,?_,?_,?_,?_,?_⟩,?_⟩
      · exact Nat.le_trans hle hpacket
      · dsimp only
        omega
      · simp only [wrote,hsent]
        split_ifs <;> rw [Nat.mod_eq_of_lt (by omega)] <;> omega
      · simp only [wrote,hsent]
        omega
      · exact h.success
      · intro hother
        cases hother
      · intro drainForControl' hother
        exact ⟨hsome,(Place.inner.inj hother).symm.trans hdrain⟩
      · have hzero : x.measure c=3*(c.maxNumberOfBytesToSend-x.sentBytes) +
            2*(x.socket.controlQueue.length+x.socket.standardQueue.length) := by
          rw [measure,hplace]
          dsimp only
          rw [if_pos hon]
          rfl
        rw [hzero]
        refine Nat.lt_of_le_of_lt (measure_inner_le rfl) ?_
        simp only [wrote,hsent]
        omega
  · obtain rfl := Sum.inl.inj hpass
    obtain ⟨hconsistent,hsettled,hcontrol,hstandard⟩ :=
      finish_spec h.consistent (g.getTickCount x.world)
    refine ⟨⟨hconsistent,h.sum,h.bounded,h.success,fun _ => hsettled,?_⟩,?_⟩
    · intro drainForControl hother
      cases hother
    · rw [measure_outer rfl,measure,hplace]
      dsimp only
      rw [hcontrol,hstandard,if_neg hon]
      omega

theorem pass_underway (hc : c.Sane) (h : x.Underway g c) (hpass : x.pass g c = .inl x') :
    x'.Underway g c ∧ x'.measure c<x.measure c := by
  cases hplace : x.place with
  | outer => exact pass_outer h hplace hpass
  | inner drainForControl => exact pass_inner hc h hplace hpass

theorem pass_returned (h : x.Underway g c) {r : SocketSentBytes × SendSide γ × ω}
    (hpass : x.pass g c = .inr r) : r.2.1.Consistent g ⟨0,0,true⟩ ∧ r.2.1.Settled := by
  unfold pass at hpass
  cases hplace : x.place with
  | outer =>
    have hsettled := h.settled hplace
    have hreturned : (x.returned x.ret).2.1.Consistent g ⟨0,0,true⟩ :=
      returned_consistent h.consistent fun _ => rfl
    rw [hplace] at hpass
    dsimp only at hpass
    split_ifs at hpass with hgoes
    · cases hbuffer : x.socket.sendBuffer with
      | some image =>
        rw [hbuffer] at hpass
        cases hpass
      | none =>
        rw [hbuffer] at hpass
        cases hnext : x.nextPacket g with
        | some y =>
          rw [hnext] at hpass
          cases hpass
        | none =>
          rw [hnext] at hpass
          obtain rfl := Sum.inr.inj hpass
          exact ⟨hreturned,hsettled⟩
    · obtain rfl := Sum.inr.inj hpass
      exact ⟨hreturned,hsettled⟩
  | inner drainForControl =>
    rw [hplace] at hpass
    dsimp only at hpass
    split_ifs at hpass with hon
    have hleft : x.socket.Settled := by
      intro _
      simp only [Call.sendsOn,Bool.and_eq_true,decide_eq_true_eq] at hon
      exact hon.1.1.1
    have hconsistent : ({ x.socket with
        lastSent := g.getTickCount x.world } : SendSide γ).Consistent g x.ret :=
      { h.consistent with }
    cases hwritten : (g.write (c.toSend x drainForControl) x.world).1.written with
    | bytes n =>
      rw [hwritten] at hpass
      cases hpass
    | blocked =>
      rw [hwritten] at hpass
      obtain rfl := Sum.inr.inj hpass
      exact ⟨returned_consistent hconsistent fun _ => rfl,hleft⟩
    | failed =>
      rw [hwritten] at hpass
      obtain rfl := Sum.inr.inj hpass
      exact ⟨returned_consistent hconsistent fun _ => rfl,hleft⟩

end Sending

/-- A socket between two events. -/
def SendSide.Orderly (g : Ground γ ω) (s : SendSide γ) : Prop :=
  s.Consistent g ⟨0,0,true⟩ ∧ s.Settled

theorem sends_orderly (h : s.Orderly g) (maxNumberOfBytesToSend minFragSize : UInt32)
    (onlyControlPackets : Bool) (w : ω) :
    (∃ r, Sends g maxNumberOfBytesToSend minFragSize onlyControlPackets s w r) ∧
      ∀ r,Sends g maxNumberOfBytesToSend minFragSize onlyControlPackets s w r →
        r.2.1.Orderly g := by
  unfold Sends
  split_ifs with hready
  · dsimp only
    have hc := Call.sane_of_getNextFragSize maxNumberOfBytesToSend.toNat minFragSize.toNat
      onlyControlPackets (decide (s.lastSent+1000≤g.getTickCount w))
    have hstart : (⟨{ s with lastCalledSend := g.getTickCount w },w,0,⟨0,0,true⟩,.outer⟩ :
        Sending γ ω).Underway g ⟨getNextFragSize maxNumberOfBytesToSend.toNat
          (max 1 minFragSize.toNat),max 1 minFragSize.toNat,onlyControlPackets,
            decide (s.lastSent+1000≤g.getTickCount w)⟩ :=
      ⟨{ h.1 with },rfl,Nat.zero_le _,rfl,fun _ => h.2,fun _ hother => nomatch hother⟩
    constructor
    · obtain ⟨r,hr⟩ := loop_of_measure (fun _ _ hx hpass => Sending.pass_underway hc hx hpass)
        hstart (Nat.lt_succ_self _)
      exact ⟨r,loop_returns hr⟩
    · intro r hr
      obtain ⟨y,hy,hpass⟩ := hr.last
        (fun _ _ hx hpass => (Sending.pass_underway hc hx hpass).1) hstart
      exact Sending.pass_returned hy hpass
  · refine ⟨⟨_,rfl⟩,?_⟩
    intro r hr
    rw [hr]
    exact h

namespace SendSide

theorem pushControl_orderly (h : s.Orderly g) (packet : OutPacket) :
    (s.pushControl packet).Orderly g := by
  refine ⟨{ h.1 with control := ?_, controlBytes := ?_ },h.2⟩
  · simp only [pushControl]
    rw [h.1.control,List.append_assoc]
  · simp only [pushControl,List.map_append,List.sum_append,h.1.controlBytes]
    rfl

theorem pushStandard_orderly (h : s.Orderly g) (now : Nat) (packet : OutPacket)
    (actualPayloadSize : Nat) : (s.pushStandard now packet actualPayloadSize).Orderly g := by
  refine ⟨{ h.1 with standard := ?_, standardBytes := ?_ },h.2⟩
  · simp only [pushStandard,List.map_append]
    rw [← List.append_assoc]
    exact h.1.standard.append_right _
  · simp only [pushStandard,List.map_append,List.sum_append,h.1.standardBytes]
    rfl

theorem enqueue_orderly (h : s.Orderly g) (packet : OutPacket) (controlPacket : Bool)
    (actualPayloadSize now : Nat) :
    (s.enqueue packet controlPacket actualPayloadSize now).1.Orderly g := by
  unfold enqueue
  split_ifs
  · exact h
  · exact h
  · exact pushControl_orderly h packet
  · exact ⟨{ h.1 with },h.2⟩
  · exact pushStandard_orderly h now packet actualPayloadSize
  · exact ⟨{ h.1 with },h.2⟩

theorem truncateQueues_orderly (h : s.Orderly g) : s.truncateQueues.Orderly g := by
  refine ⟨{ h.1 with standard := ?_, standardBytes := rfl },h.2⟩
  exact (List.Sublist.append_left (List.nil_sublist _) _).trans h.1.standard

end SendSide

theorem SendEvent.step_orderly {x : SendSide γ × ω} (h : x.1.Orderly g) (e : SendEvent γ ω) :
    (∃ y, e.Step g x y) ∧ ∀ y,e.Step g x y → y.1.Orderly g := by
  have hsends : ∀ (s : SendSide γ) (w : ω) (most frag : UInt32) (only : Bool), s.Orderly g →
      (∃ y ret, Sends g most frag only s w (ret, y)) ∧
        ∀ y,(∃ ret, Sends g most frag only s w (ret, y)) → y.1.Orderly g := by
    intro s w most frag only hs
    obtain ⟨⟨r,hr⟩,hall⟩ := sends_orderly hs most frag only w
    refine ⟨⟨r.2,r.1,hr⟩,?_⟩
    intro y hy
    obtain ⟨ret,hret⟩ := hy
    exact hall _ hret
  cases e with
  | sendPacket packet controlPacket actualPayloadSize forceImmediateSend =>
    have hqueued := SendSide.enqueue_orderly h packet controlPacket actualPayloadSize
      (g.getTickCount x.2)
    unfold SendEvent.Step
    dsimp only
    split_ifs
    · exact hsends _ _ _ _ _ hqueued
    · exact ⟨⟨_,rfl⟩,fun y hy => hy ▸ hqueued⟩
  | sendControlData most frag => exact hsends _ _ _ _ _ h
  | sendFileAndControlData most frag => exact hsends _ _ _ _ _ h
  | truncateQueues => exact ⟨⟨_,rfl⟩,fun y hy => hy ▸ SendSide.truncateQueues_orderly h⟩
  | outside conState layer world => exact ⟨⟨_,rfl⟩,fun y hy => hy ▸ ⟨{ h.1 with },h.2⟩⟩

theorem leads_orderly {x y : SendSide γ × ω} (h : x.1.Orderly g) {events : List (SendEvent γ ω)}
    (hleads : Leads g x events y) : y.1.Orderly g := by
  induction events generalizing x with
  | nil => exact hleads ▸ h
  | cons e events ih =>
    obtain ⟨z,hstep,hrest⟩ := hleads
    exact ih ((SendEvent.step_orderly h e).2 z hstep) hrest

/-- What holds of a socket after any events: the wire with the rest of the packet under way is
whole packets, encrypted, one after the other, each behind what was left of the handshake; control
packets have kept their order and none is lost, standard packets have kept theirs and none came
twice; the counters are those of the queues; and what was reported for either kind is what was
written of it. -/
structure SendSide.InOrder (g : Ground γ ω) (s : SendSide γ) : Prop where
  wholePackets : s.history.wire ++ s.unsent = s.history.taken.flatMap Taken.stream
  encrypted : ∀ t ∈ s.history.taken, ∃ layer,
    t.image = (g.cryptPrepareSendData layer t.packet.bytes).2
  controlOrder : s.history.acceptedControl = packetsOf true s.history.taken ++ s.controlQueue
  standardOrder : (packetsOf false s.history.taken ++ s.standardQueue.map Prod.fst).Sublist
    s.history.acceptedStandard
  controlBytes : s.controlQueueBytes = (s.controlQueue.map OutPacket.size).sum
  standardBytes : s.standardQueueBytes = (s.standardQueue.map fun e => e.1.size).sum
  reported : ∀ control, s.history.reported control + s.unsentOf control =
    bytesOf control s.history.taken
  written : s.history.reported true + s.history.reported false +
    (s.history.taken.map fun t => t.negotiation.length).sum = s.history.wire.length

theorem SendSide.Orderly.inOrder (h : s.Orderly g) : s.InOrder g := by
  have hcounted := h.1.counted
  have hzero : ∀ control,(SocketSentBytes.mk 0 0 true).of control=0 := by
    intro control
    cases control <;> rfl
  simp only [hzero,Nat.add_zero] at hcounted
  refine ⟨h.1.stream,h.1.whole,h.1.control,h.1.standard,h.1.controlBytes,h.1.standardBytes,
    hcounted,?_⟩
  have hall := bytesOf_add s.history.taken
  have hlength := congrArg List.length h.1.stream
  have hkinds : s.unsentOf true+s.unsentOf false=s.unsent.length := by
    cases hcurrent : s.currentPacketIsControl <;> simp [SendSide.unsentOf,hcurrent]
  have hstream : (s.history.taken.flatMap Taken.stream).length =
      (s.history.taken.map fun t => t.negotiation.length).sum +
        (s.history.taken.map fun t => t.image.length).sum := by
    induction s.history.taken with
    | nil => rfl
    | cons t taken ih =>
      simp only [List.flatMap_cons,List.length_append,ih,Taken.stream,List.map_cons,
        List.sum_cons]
      omega
  rw [List.length_append,hstream] at hlength
  have hcontrol := hcounted true
  have hstandard := hcounted false
  omega

/-- After any events on a socket what it has sent is in order, and every further event ends. -/
theorem sendQueue_inOrder (g : Ground γ ω) (layer : γ) (world : ω)
    (events : List (SendEvent γ ω)) :
    (∃ y, Leads g (SendSide.fresh layer, world) events y) ∧
      ∀ y, Leads g (SendSide.fresh layer, world) events y →
        y.1.InOrder g ∧ ∀ e : SendEvent γ ω, ∃ z, e.Step g y z := by
  have hfresh : (SendSide.fresh layer).Orderly g := SendSide.fresh_consistent g layer
  have hends : ∀ (events : List (SendEvent γ ω)) (x : SendSide γ × ω), x.1.Orderly g →
      ∃ y, Leads g x events y := by
    intro events
    induction events with
    | nil => exact fun x _ => ⟨x,rfl⟩
    | cons e events ih =>
      intro x hx
      obtain ⟨⟨z,hz⟩,hall⟩ := SendEvent.step_orderly hx e
      obtain ⟨y,hy⟩ := ih z (hall z hz)
      exact ⟨y,z,hz,hy⟩
  refine ⟨hends events _ hfresh,?_⟩
  intro y hy
  have horderly := leads_orderly hfresh hy
  exact ⟨horderly.inOrder,fun e => (SendEvent.step_orderly horderly e).1⟩

end EmuleQt.Net
