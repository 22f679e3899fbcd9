import EmuleQt.Net.EMSocket

namespace EmuleQt.Net

open Framework Math Packet

variable {γ σ : Type} {packetReceived : σ → Packet → σ × Reply} {c c' : σ} {p q : Packet}
  {ps qs : List Packet} {plain data rest bad : List UInt8} {e e' : SocketError} {n : Nat}

/-- The calls a client gets that is offered packets one after the other, until it refuses one; and
its state, if it refused none. -/
def offer (packetReceived : σ → Packet → σ × Reply) : σ → List Packet → List Packet × Option σ
  | c, [] => ([], some c)
  | c, p :: ps =>
    match packetReceived c p with
    | (c, .accepted) => (p :: (offer packetReceived c ps).1, (offer packetReceived c ps).2)
    | _ => ([p], none)

theorem offer_all (h : (offer packetReceived c ps).2=some c') :
    (offer packetReceived c ps).1=ps := by
  induction ps generalizing c with
  | nil => rfl
  | cons p ps ih =>
    rw [offer] at h ⊢
    split at h
    · exact congrArg (p :: ·) (ih h)
    · cases h

theorem offer_append_some (h : (offer packetReceived c ps).2=some c') :
    offer packetReceived c (ps++qs) =
      (ps++(offer packetReceived c' qs).1, (offer packetReceived c' qs).2) := by
  induction ps generalizing c with
  | nil =>
    cases h
    rfl
  | cons p ps ih =>
    rw [offer] at h
    rw [List.cons_append,offer]
    split at h
    · rw [ih h]
      rfl
    · cases h

theorem offer_append_none (h : (offer packetReceived c ps).2=none) :
    offer packetReceived c (ps++qs)=offer packetReceived c ps := by
  induction ps generalizing c with
  | nil => cases h
  | cons p ps ih =>
    rw [offer] at h
    rw [List.cons_append,offer,offer]
    split at h
    · rw [ih h]
    · rfl

def pendingBytes (pending : Option PendingPacket) : List UInt8 :=
  pending.elim [] fun p => headerBytes p.prot p.opcode p.size ++ p.received

/-- A packet under way has passed the header check. -/
def PendingPacket.WellFormed (p : PendingPacket) : Prop :=
  (p.prot=OP_EDONKEYPROT ∨ p.prot=OP_PACKEDPROT ∨ p.prot=OP_EMULEPROT) ∧
    p.size≤kMaxReadBuffer

/-- Reports of the framing, not of the operating system. -/
def Framing.headerReports (f : Framing σ) : List SocketError := f.reports.filter (· ≠ .socket)

/-- Everything of `plain` was handed over and accepted, but the packet under way and `left`. -/
structure Going (packetReceived : σ → Packet → σ × Reply) (c : σ) (plain : List UInt8)
    (f : Framing σ) (left : List UInt8) : Prop where
  wellFormed : ∀ p ∈ f.dispatched, p.WellFormed
  accepted : (offer packetReceived c f.dispatched).2 = some f.client
  pending : ∀ p, f.pendingPacket = some p → p.WellFormed
  bytes : plain = wires f.dispatched ++ (pendingBytes f.pendingPacket ++ left)
  reports : f.headerReports = []

/-- The last packet handed over was not accepted. -/
structure Ended (packetReceived : σ → Packet → σ × Reply) (c : σ) (plain : List UInt8)
    (f : Framing σ) : Prop where
  wellFormed : ∀ p ∈ f.dispatched, p.WellFormed
  refused : (offer packetReceived c f.dispatched).2 = none
  calls : (offer packetReceived c f.dispatched).1 = f.dispatched
  bytes : wires f.dispatched <+: plain
  disconnected : f.disconnected = true

/-- A header was reported, and everything before it accepted. -/
structure Reported (packetReceived : σ → Packet → σ × Reply) (c : σ) (plain : List UInt8)
    (f : Framing σ) : Prop where
  wellFormed : ∀ p ∈ f.dispatched, p.WellFormed
  accepted : (offer packetReceived c f.dispatched).2 = some f.client
  bytes : ∃ e bad, plain = wires f.dispatched ++ bad ∧ Malformed e bad ∧ f.headerReports = [e]
  disconnected : f.disconnected = true

theorem wires_append (ps qs : List Packet) : wires (ps++qs)=wires ps++wires qs :=
  List.flatMap_append

theorem wires_cons (p : Packet) (ps : List Packet) : wires (p::ps)=wire p++wires ps := rfl

theorem wires_singleton (p : Packet) : wires [p]=wire p := by
  simp [wires]

section Parse

variable {f : Framing σ} {prot opcode : UInt8} {size : Nat} {received : List UInt8}

theorem dispatch_spec (hgo : Going packetReceived c plain { f with pendingPacket := none }
      (wire p++rest)) (hp : p.WellFormed) (hopen : f.disconnected=false) :
    let r := f.dispatch packetReceived p
    r.2 = .accepted ∧ Going packetReceived c plain r.1 rest ∧ r.1.disconnected=false ∧
        r.1.pendingPacket=none ∨
      r.2 ≠ .accepted ∧ Ended packetReceived c plain r.1 := by
  have hwellFormed : ∀ q∈f.dispatched++[p], q.WellFormed := by
    intro q hq
    rcases List.mem_append.mp hq with hq | hq
    · exact hgo.wellFormed q hq
    · exact List.mem_singleton.mp hq ▸ hp
  have hbytes : plain=wires (f.dispatched++[p])++rest := by
    rw [wires_append,wires_singleton,List.append_assoc]
    exact hgo.bytes
  have hoffer : offer packetReceived c (f.dispatched++[p]) =
      (f.dispatched++(offer packetReceived f.client [p]).1,
        (offer packetReceived f.client [p]).2) := offer_append_some hgo.accepted
  have hended : ∀ client reply,packetReceived f.client p=(client, reply) →
      reply ≠ .accepted → (offer packetReceived c (f.dispatched++[p])).2=none ∧
        (offer packetReceived c (f.dispatched++[p])).1=f.dispatched++[p] := by
    intro client reply hreply hno
    rw [hoffer,offer,hreply]
    cases reply with
    | accepted => exact absurd rfl hno
    | refused => exact ⟨rfl,rfl⟩
    | threw => exact ⟨rfl,rfl⟩
  unfold Framing.dispatch
  generalize hreply : packetReceived f.client p=r at *
  obtain ⟨client,reply⟩ := r
  cases reply with
  | accepted =>
    refine Or.inl ⟨rfl,⟨hwellFormed,?_,by simp,?_,hgo.reports⟩,hopen,rfl⟩
    · rw [hoffer,offer,hreply]
      rfl
    · exact hbytes
  | refused =>
    obtain ⟨hnone,hcalls⟩ := hended _ _ rfl (by simp)
    exact Or.inr ⟨by simp,hwellFormed,hnone,hcalls,⟨rest,hbytes.symm⟩,rfl⟩
  | threw =>
    obtain ⟨hnone,hcalls⟩ := hended _ _ rfl (by simp)
    exact Or.inr ⟨by simp,hwellFormed,hnone,hcalls,⟨rest,hbytes.symm⟩,rfl⟩

theorem fill_spec (hgo : Going packetReceived c plain { f with pendingPacket := none }
      (headerBytes prot opcode size++(received++data)))
    (hprot : prot=OP_EDONKEYPROT ∨ prot=OP_PACKEDPROT ∨ prot=OP_EMULEPROT)
    (hsize : size≤kMaxReadBuffer) (hle : received.length ≤ size)
    (hopen : f.disconnected=false) :
    (∃ f' rest, f.fill packetReceived prot opcode size received data=(f', some rest) ∧
        Going packetReceived c plain f' rest ∧ f'.disconnected=false ∧
        rest.length=data.length-(size-received.length)) ∨
      ∃ f', f.fill packetReceived prot opcode size received data=(f', none) ∧
        Ended packetReceived c plain f' := by
  unfold Framing.fill
  dsimp only
  generalize hcopy : min (size-received.length) data.length=toCopy
  have hlength : (received++data.take toCopy).length=received.length+toCopy := by
    rw [List.length_append,List.length_take]
    omega
  have hrest : (data.drop toCopy).length=data.length-(size-received.length) := by
    rw [List.length_drop]
    omega
  by_cases hshort : (received++data.take toCopy).length<size
  · rw [dif_pos hshort]
    left
    refine ⟨_,_,rfl,⟨hgo.wellFormed,hgo.accepted,fun p hp => ?_,?_,hgo.reports⟩,hopen,hrest⟩
    · cases hp
      exact ⟨hprot,hsize⟩
    · have hbytes := hgo.bytes
      simpa [pendingBytes] using hbytes
  · rw [dif_neg hshort]
    have hfull : (received++data.take toCopy).length=size := by omega
    have hgo' : Going packetReceived c plain { f with pendingPacket := none }
        (wire ⟨prot,opcode,received++data.take toCopy⟩++data.drop toCopy) := by
      refine ⟨hgo.wellFormed,hgo.accepted,hgo.pending,?_,hgo.reports⟩
      have hbytes := hgo.bytes
      simpa [wire,hfull] using hbytes
    rcases dispatch_spec hgo' ⟨hprot,hfull ▸ hsize⟩ hopen with
      ⟨hreply,hgoing,hopen',-⟩ | ⟨hreply,hended⟩
    · rw [if_pos hreply]
      exact Or.inl ⟨_,_,rfl,hgoing,hopen',hrest⟩
    · rw [if_neg hreply]
      exact Or.inr ⟨_,rfl,hended⟩

/-- One round of the parse loop uses up bytes, or ends it. -/
theorem round_spec (hgo : Going packetReceived c plain f data) (hmore : f.hasMore data=true)
    (hopen : f.disconnected=false) :
    (∃ f' rest, f.round packetReceived data=(f', some rest) ∧
        Going packetReceived c plain f' rest ∧ f'.disconnected=false ∧
        rest.length<data.length) ∨
      ∃ f', f.round packetReceived data=(f', none) ∧
        (Ended packetReceived c plain f' ∨ Reported packetReceived c plain f') := by
  unfold Framing.hasMore at hmore
  unfold Framing.round
  have hbytes := hgo.bytes
  cases hpending : f.pendingPacket with
  | none =>
    rw [hpending] at hbytes hmore
    have hlong : kPacketHeaderSize≤data.length := by simpa using hmore
    cases hcheck : Header.check data with
    | some e =>
      have hne : e ≠ .socket := by
        rintro rfl
        unfold Header.check at hcheck
        split_ifs at hcheck <;> cases hcheck
      have hnone := hgo.reports
      unfold Framing.headerReports at hnone
      refine Or.inr ⟨_,rfl,Or.inr ⟨hgo.wellFormed,hgo.accepted,
        ⟨e,data,hbytes,⟨hlong,hcheck⟩,?_⟩,rfl⟩⟩
      rw [Framing.headerReports,Framing.onError,List.filter_append,hnone]
      simp [hne]
    | none =>
      obtain ⟨hheader,hprot,hsize⟩ := header_of_check hlong hcheck
      have hgo' : Going packetReceived c plain { f with pendingPacket := none }
          (headerBytes (Header.eDonkeyID data) (Header.command data) (Header.size data) ++
            ([]++data.drop kPacketHeaderSize)) := by
        refine ⟨hgo.wellFormed,hgo.accepted,by simp,?_,hgo.reports⟩
        rw [← hheader,List.nil_append,List.take_append_drop]
        exact hbytes
      rcases fill_spec hgo' hprot hsize (Nat.zero_le _) hopen with
        ⟨f',rest,hfill,hgoing,hopen',hrest⟩ | ⟨f',hfill,hended⟩
      · refine Or.inl ⟨f',rest,hfill,hgoing,hopen',?_⟩
        rw [List.length_drop] at hrest
        unfold kPacketHeaderSize at hlong hrest
        omega
      · exact Or.inr ⟨f',hfill,Or.inl hended⟩
  | some p =>
    rw [hpending] at hbytes hmore
    have hgo' : Going packetReceived c plain { f with pendingPacket := none }
        (headerBytes p.prot p.opcode p.size++(p.received++data)) := by
      refine ⟨hgo.wellFormed,hgo.accepted,by simp,?_,hgo.reports⟩
      simpa [pendingBytes] using hbytes
    obtain ⟨hprot,hsize⟩ := hgo.pending p hpending
    rcases fill_spec hgo' hprot hsize p.short.le hopen with
      ⟨f',rest,hfill,hgoing,hopen',hrest⟩ | ⟨f',hfill,hended⟩
    · refine Or.inl ⟨f',rest,hfill,hgoing,hopen',?_⟩
      have hpos : 0<data.length := by
        unfold kPacketHeaderSize at hmore
        rcases Bool.or_eq_true_iff.mp hmore with hlong | hnonempty
        · have hle := of_decide_eq_true hlong
          omega
        · exact List.length_pos_iff.mpr (by simpa using hnonempty)
      have hshort := p.short
      omega
    · exact Or.inr ⟨f',hfill,Or.inl hended⟩

theorem parsePackets_spec (hgo : Going packetReceived c plain f data) (hn : data.length≤n)
    (hopen : f.disconnected=false) :
    (∃ f' rest, f.parsePackets packetReceived n data=(f', some rest) ∧
        Going packetReceived c plain f' rest ∧ f'.disconnected=false ∧
        f'.hasMore rest=false) ∨
      ∃ f', f.parsePackets packetReceived n data=(f', none) ∧
        (Ended packetReceived c plain f' ∨ Reported packetReceived c plain f') := by
  induction n generalizing f data with
  | zero =>
    have hempty : data=[] := List.length_eq_zero_iff.mp (Nat.le_zero.mp hn)
    subst hempty
    exact Or.inl ⟨f,[],rfl,hgo,hopen,by simp [Framing.hasMore,kPacketHeaderSize]⟩
  | succ n ih =>
    rw [Framing.parsePackets]
    split_ifs with hmore
    · rcases round_spec hgo hmore hopen with
        ⟨f',rest,hround,hgoing,hopen',hrest⟩ | ⟨f',hround,hstopped⟩
      · rw [hround]
        exact ih hgoing (by omega) hopen'
      · rw [hround]
        exact Or.inr ⟨f',rfl,hstopped⟩
    · exact Or.inl ⟨f,data,rfl,hgo,hopen,by simpa using hmore⟩

end Parse

section Unique

variable {ds : List Packet} {more more' : List UInt8}

theorem check_prefix (h : kPacketHeaderSize≤data.length) :
    Header.check (data++more)=Header.check data := by
  have hid : Header.eDonkeyID (data++more)=Header.eDonkeyID data := by
    cases data with
    | nil => simp [kPacketHeaderSize] at h
    | cons b data => rfl
  have hlength : Header.packetLength (data++more)=Header.packetLength data := by
    unfold kPacketHeaderSize at h
    unfold Header.packetLength
    rw [List.drop_append_of_le_length (by omega),List.take_append_of_le_length (by
      rw [List.length_drop]
      omega)]
  unfold Header.check Header.size
  rw [hid,hlength]

theorem check_wire (hp : p.WellFormed) : Header.check (wire p++more)=none := by
  rw [wire,List.append_assoc]
  exact check_append hp.prot hp.size

theorem wire_length (p : Packet) : (wire p).length=kPacketHeaderSize+p.payload.length := by
  simp [wire]

theorem wire_inj (hp : p.WellFormed) (hq : q.WellFormed)
    (h : wire p++more=wire q++more') : p=q ∧ more=more' := by
  have hprot := congrArg Header.eDonkeyID h
  have hopcode := congrArg Header.command h
  have hsize := congrArg Header.size h
  simp only [wire,List.append_assoc,eDonkeyID_append,command_append,size_append hp.size,
    size_append hq.size] at hprot hopcode hsize
  have hlength : (wire p).length=(wire q).length := by rw [wire_length,wire_length,hsize]
  obtain ⟨hwire,hmore⟩ := List.append_inj h hlength
  have hpayload : p.payload=q.payload := (List.append_inj hwire (by simp)).2
  cases p
  cases hprot
  cases hopcode
  cases hpayload
  exact ⟨rfl,hmore⟩

/-- Nothing, or a whole header that is reported. -/
def Stuck (bad : List UInt8) : Prop := bad = [] ∨ ∃ e, Malformed e bad

theorem not_wire_of_stuck (hp : p.WellFormed) (hbad : Stuck bad) : wire p++more≠bad := by
  rintro rfl
  rcases hbad with hnil | ⟨e,-,hcheck⟩
  · have hlength := congrArg List.length hnil
    rw [List.length_append,wire_length] at hlength
    simp [kPacketHeaderSize] at hlength
  · rw [check_wire hp] at hcheck
    cases hcheck

theorem packets_prefix (hds : ∀ p∈ds,p.WellFormed) (hps : ∀ p∈ps,p.WellFormed)
    (hbad : Stuck bad) (h : wires ds++more=wires ps++bad) :
    ∃ qs, ps=ds++qs ∧ more=wires qs++bad := by
  induction ds generalizing ps with
  | nil => exact ⟨ps,rfl,h⟩
  | cons d ds ih =>
    obtain ⟨hd,hds'⟩ := List.forall_mem_cons.mp hds
    rw [wires_cons,List.append_assoc] at h
    cases ps with
    | nil => exact absurd h (not_wire_of_stuck hd hbad)
    | cons p ps =>
      obtain ⟨hp,hps'⟩ := List.forall_mem_cons.mp hps
      rw [wires_cons,List.append_assoc] at h
      obtain ⟨rfl,htail⟩ := wire_inj hd hp h
      obtain ⟨qs,rfl,hmore⟩ := ih hds' hps' htail
      exact ⟨qs,rfl,hmore⟩

variable {f : Framing σ} {left : List UInt8}

theorem left_incomplete (hgo : Going packetReceived c plain f left)
    (hmore : f.hasMore left=false) (hp : p.WellFormed) :
    wire p++more≠pendingBytes f.pendingPacket++left := by
  intro h
  unfold Framing.hasMore at hmore
  rw [Bool.or_eq_false_iff] at hmore
  have hshort : left.length<kPacketHeaderSize := by simpa using hmore.1
  cases hpending : f.pendingPacket with
  | none =>
    rw [hpending] at h
    have hlength := congrArg List.length h
    rw [List.length_append,wire_length] at hlength
    simp only [pendingBytes,Option.elim_none,List.nil_append] at hlength
    omega
  | some q =>
    rw [hpending] at h hmore
    have hnil : left=[] := by simpa using hmore.2
    rw [hnil,List.append_nil] at h
    have hsize := congrArg Header.size h
    have hlength := congrArg List.length h
    simp only [wire,pendingBytes,Option.elim_some,List.append_assoc,size_append hp.size,
      size_append (hgo.pending q hpending).2] at hsize
    simp only [List.length_append,wire_length,pendingBytes,Option.elim_some,
      headerBytes_length] at hlength
    have hq := q.short
    omega

theorem left_not_malformed (hgo : Going packetReceived c plain f left)
    (hmore : f.hasMore left=false) :
    ¬ Malformed e (pendingBytes f.pendingPacket++left) := by
  rintro ⟨hlong,hcheck⟩
  unfold Framing.hasMore at hmore
  rw [Bool.or_eq_false_iff] at hmore
  have hshort : left.length<kPacketHeaderSize := by simpa using hmore.1
  cases hpending : f.pendingPacket with
  | none =>
    rw [hpending] at hlong
    simp only [pendingBytes,Option.elim_none,List.nil_append] at hlong
    omega
  | some q =>
    rw [hpending] at hcheck
    obtain ⟨hprot,hsize⟩ := hgo.pending q hpending
    simp only [pendingBytes,Option.elim_some,List.append_assoc,
      check_append hprot hsize] at hcheck
    cases hcheck

end Unique

namespace EMSocket

variable {layer : CryptLayer γ} {g : γ} {s : EMSocket γ σ} {stream : List UInt8}

/-- The bytes taken so far, out of the crypt layer. -/
def deciphered (layer : CryptLayer γ) (g : γ) (s : EMSocket γ σ) : List UInt8 :=
  (layer.processReceivedData g s.taken).2

/-- What was read has been framed, all but the start of a header or of a packet. -/
structure SocketOk (layer : CryptLayer γ) (packetReceived : σ → Packet → σ × Reply) (g : γ) (c : σ)
    (stream : List UInt8) (s : EMSocket γ σ) : Prop where
  stream : s.taken++s.available=stream
  crypt : s.crypt=(layer.processReceivedData g s.taken).1
  progress : Going packetReceived c (s.deciphered layer g) s.framing s.pendingHeader ∧
      s.framing.hasMore s.pendingHeader=false ∨
    Ended packetReceived c (s.deciphered layer g) s.framing ∨
    Reported packetReceived c (s.deciphered layer g) s.framing

theorem SocketOk.going (h : SocketOk layer packetReceived g c stream s)
    (hopen : s.disconnected=false) :
    Going packetReceived c (s.deciphered layer g) s.framing s.pendingHeader ∧
      s.framing.hasMore s.pendingHeader=false := by
  rcases h.progress with hgo | hended | hreported
  · exact hgo
  · rw [disconnected,hended.disconnected] at hopen
    cases hopen
  · rw [disconnected,hreported.disconnected] at hopen
    cases hopen

theorem SocketOk.header_short (h : SocketOk layer packetReceived g c stream s)
    (hopen : s.disconnected=false) : s.pendingHeader.length<kPacketHeaderSize := by
  have hmore := (h.going hopen).2
  unfold Framing.hasMore at hmore
  rw [Bool.or_eq_false_iff] at hmore
  simpa using hmore.1

theorem scheduleReadRearm_ok (h : SocketOk layer packetReceived g c stream s) :
    SocketOk layer packetReceived g c stream s.scheduleReadRearm := by
  unfold scheduleReadRearm
  split_ifs
  · exact h
  · exact ⟨h.stream,h.crypt,h.progress⟩

/-- The framing is over, and not for want of bytes. -/
def Stopped (layer : CryptLayer γ) (packetReceived : σ → Packet → σ × Reply) (g : γ) (c : σ)
    (s : EMSocket γ σ) : Prop :=
  Ended packetReceived c (s.deciphered layer g) s.framing ∨
    Reported packetReceived c (s.deciphered layer g) s.framing

theorem scheduleReadRearm_framing (s : EMSocket γ σ) :
    s.scheduleReadRearm.framing=s.framing := by
  unfold scheduleReadRearm
  split_ifs <;> rfl

theorem scheduleReadRearm_available (s : EMSocket γ σ) :
    s.scheduleReadRearm.available=s.available := by
  unfold scheduleReadRearm
  split_ifs <;> rfl

theorem processRead_ok {taken bytes : List UInt8} (hopen : s.disconnected=false)
    (hgo : Going packetReceived c (layer.processReceivedData g taken).2 s.framing s.pendingHeader ∧
      s.framing.hasMore s.pendingHeader=false)
    (hcrypt : s.crypt=(layer.processReceivedData g taken).1) (htaken : s.taken=taken++bytes)
    (hstream : s.taken++s.available=stream) :
    let s' := s.processRead layer packetReceived bytes
    SocketOk layer packetReceived g c stream s' ∧ s'.available=s.available ∧
      (s'.disconnected=true → Stopped layer packetReceived g c s') := by
  have happend := layer.append g taken bytes
  rw [← htaken,← hcrypt] at happend
  have hcrypt' : (layer.processReceivedData s.crypt bytes).1 =
      (layer.processReceivedData g s.taken).1 := by rw [happend]
  have hplain : (layer.processReceivedData g s.taken).2 =
      (layer.processReceivedData g taken).2++(layer.processReceivedData s.crypt bytes).2 := by
    rw [happend]
  unfold processRead
  generalize layer.processReceivedData s.crypt bytes=r at hcrypt' hplain ⊢
  obtain ⟨crypt,data⟩ := r
  dsimp only at hcrypt' hplain ⊢
  by_cases hnil : data=[]
  · rw [if_pos hnil]
    rw [hnil,List.append_nil] at hplain
    refine ⟨scheduleReadRearm_ok ⟨hstream,hcrypt',Or.inl ?_⟩,
      scheduleReadRearm_available _,fun hclosed => ?_⟩
    · rw [deciphered,hplain]
      exact hgo
    · rw [disconnected,scheduleReadRearm_framing] at hclosed
      rw [disconnected,hclosed] at hopen
      cases hopen
  · rw [if_neg hnil]
    have hgo' : Going packetReceived c (layer.processReceivedData g s.taken).2 s.framing
        (s.pendingHeader++data) := by
      refine ⟨hgo.1.wellFormed,hgo.1.accepted,hgo.1.pending,?_,hgo.1.reports⟩
      rw [hplain,hgo.1.bytes]
      simp only [List.append_assoc]
    rcases parsePackets_spec hgo' (Nat.le_refl _) hopen with
      ⟨f',rest,hparse,hgoing,hopen',hmore⟩ | ⟨f',hparse,hstopped⟩
    · rw [hparse]
      refine ⟨scheduleReadRearm_ok ⟨hstream,hcrypt',Or.inl ⟨hgoing,hmore⟩⟩,
        scheduleReadRearm_available _,fun hclosed => ?_⟩
      rw [disconnected,scheduleReadRearm_framing,hopen'] at hclosed
      cases hclosed
    · rw [hparse]
      exact ⟨⟨hstream,hcrypt',Or.inr hstopped⟩,rfl,fun _ => hstopped⟩

/-- A pass keeps what holds; unless the limit is zero it takes bytes while there are any. -/
theorem readIncoming_ok (h : SocketOk layer packetReceived g c stream s) (peerShutdown : Bool) :
    let s' := s.readIncoming layer packetReceived peerShutdown
    SocketOk layer packetReceived g c stream s' ∧
      (s.disconnected=false → s.available≠[] →
        (s.downloadLimitEnable=true → s.downloadLimit=0 → peerShutdown=true) →
        s'.available.length<s.available.length) ∧
      (s.disconnected=false → s'.disconnected=true →
        Stopped layer packetReceived g c s') := by
  unfold readIncoming
  cases hopen : s.disconnected with
  | true =>
    exact ⟨h,fun hfalse => absurd hfalse (by simp),fun hfalse => absurd hfalse (by simp)⟩
  | false =>
    rw [if_neg (by simp)]
    have hheader := h.header_short hopen
    by_cases hlimit : s.downloadLimitEnable ∧ s.downloadLimit=0 ∧ peerShutdown=false
    · rw [if_pos hlimit]
      refine ⟨⟨h.stream,h.crypt,h.progress⟩,fun _ _ hready => ?_,fun _ hclosed => ?_⟩
      · have htrue := hready hlimit.1 hlimit.2.1
        rw [hlimit.2.2] at htrue
        cases htrue
      · exact absurd (hopen.symm.trans hclosed) (by simp)
    · rw [if_neg hlimit]
      dsimp only
      generalize hreadMax : (if s.downloadLimitEnable ∧
          s.downloadLimit.toNat<kMaxReadBuffer-s.pendingHeader.length ∧ peerShutdown=false
        then s.downloadLimit.toNat else kMaxReadBuffer-s.pendingHeader.length)=readMax
      have hpos : 0<readMax := by
        rw [← hreadMax]
        split_ifs with hsmall
        · refine Nat.pos_of_ne_zero fun hzero => hlimit ⟨hsmall.1,?_,hsmall.2.2⟩
          exact UInt32.toNat_inj.mp hzero
        · unfold kPacketHeaderSize at hheader
          unfold kMaxReadBuffer
          omega
      by_cases hempty : s.available=[]
      · rw [if_pos hempty]
        exact ⟨h,fun _ hne => absurd hempty hne,
          fun _ hclosed => absurd (hopen.symm.trans hclosed) (by simp)⟩
      · rw [if_neg hempty]
        generalize htoRead : min readMax s.available.length=toRead
        have hlength := List.length_pos_iff.mpr hempty
        have hstream : s.taken++s.available.take toRead++s.available.drop toRead=stream := by
          rw [List.append_assoc,List.take_append_drop]
          exact h.stream
        obtain ⟨hok,havailable,hstopped⟩ := processRead_ok (s := { s with
            available := s.available.drop toRead
            taken := s.taken++s.available.take toRead
            fullReceive := decide (toRead=readMax) })
          hopen (h.going hopen) h.crypt rfl hstream
        refine ⟨hok,fun _ _ _ => ?_,fun _ => hstopped⟩
        rw [havailable,List.length_drop]
        omega

theorem drain_ok (h : SocketOk layer packetReceived g c stream s)
    (hn : s.available.length≤n) :
    let s' := s.drain layer packetReceived n
    SocketOk layer packetReceived g c stream s' ∧
      (s.disconnected=false → s'.available=[] ∨ Stopped layer packetReceived g c s') := by
  induction n generalizing s with
  | zero => exact ⟨h,fun _ => Or.inl (List.length_eq_zero_iff.mp (Nat.le_zero.mp hn))⟩
  | succ n ih =>
    rw [drain]
    split_ifs with hdone
    · refine ⟨h,fun hopen => hdone.elim Or.inl fun hclosed => ?_⟩
      rw [hopen] at hclosed
      cases hclosed
    · rw [not_or,Bool.not_eq_true] at hdone
      obtain ⟨hok,htakes,hstopped⟩ := readIncoming_ok h true
      have hless := htakes hdone.2 hdone.1 fun _ _ => rfl
      rw [if_neg (Nat.not_le.mpr hless)]
      obtain ⟨hrest,hend⟩ := ih hok (by omega)
      refine ⟨hrest,fun _ => ?_⟩
      cases hclosed : (s.readIncoming layer packetReceived true).disconnected with
      | false => exact hend hclosed
      | true =>
        have hsame : (s.readIncoming layer packetReceived true).drain layer packetReceived n =
            s.readIncoming layer packetReceived true := by
          cases n with
          | zero => rfl
          | succ n => rw [drain,if_pos (Or.inr hclosed)]
        rw [hsame]
        exact Or.inr (hstopped hdone.2 hclosed)

theorem onError_socket_ok (h : SocketOk layer packetReceived g c stream s) :
    SocketOk layer packetReceived g c stream
      { s with framing := s.framing.onError .socket } := by
  have hreports : (s.framing.onError .socket).headerReports=s.framing.headerReports := by
    simp [Framing.headerReports,Framing.onError]
  refine ⟨h.stream,h.crypt,?_⟩
  rcases h.progress with ⟨hgo,hmore⟩ | hended | hreported
  · exact Or.inl ⟨⟨hgo.wellFormed,hgo.accepted,hgo.pending,hgo.bytes,
      hreports.trans hgo.reports⟩,hmore⟩
  · exact Or.inr (Or.inl ⟨hended.wellFormed,hended.refused,hended.calls,hended.bytes,rfl⟩)
  · obtain ⟨e,bad,hbytes,hbad,hone⟩ := hreported.bytes
    exact Or.inr (Or.inr ⟨hreported.wellFormed,hreported.accepted,
      ⟨e,bad,hbytes,hbad,hreports.trans hone⟩,rfl⟩)

theorem step_ok (h : SocketOk layer packetReceived g c stream s) (op : Op) :
    SocketOk layer packetReceived g c (stream++received [op])
      (s.step layer packetReceived op) := by
  have hnone : stream++[]=stream := List.append_nil stream
  cases op with
  | readyRead bytes =>
    have hmore : SocketOk layer packetReceived g c (stream++bytes)
        { s with available := s.available++bytes } := by
      refine ⟨?_,h.crypt,h.progress⟩
      rw [← List.append_assoc,h.stream]
    have hbytes : received [.readyRead bytes]=bytes := by simp [received]
    rw [hbytes]
    exact (readIncoming_ok hmore false).1
  | readRearm =>
    rw [received,List.flatMap_cons,List.flatMap_nil,List.append_nil,hnone]
    unfold step
    dsimp only
    split_ifs
    · exact (readIncoming_ok (s := { s with readRearmScheduled := false })
        ⟨h.stream,h.crypt,h.progress⟩ false).1
    · exact h
  | setDownloadLimit limit =>
    rw [received,List.flatMap_cons,List.flatMap_nil,List.append_nil,hnone]
    have hset : SocketOk layer packetReceived g c stream
        { s with downloadLimit := limit, downloadLimitEnable := true } :=
      ⟨h.stream,h.crypt,h.progress⟩
    unfold step
    dsimp only
    split_ifs
    · exact (readIncoming_ok hset false).1
    · exact hset
  | disableDownloadLimit =>
    rw [received,List.flatMap_cons,List.flatMap_nil,List.append_nil,hnone]
    have hset : SocketOk layer packetReceived g c stream { s with downloadLimitEnable := false } :=
      ⟨h.stream,h.crypt,h.progress⟩
    unfold step
    dsimp only
    split_ifs
    · exact (readIncoming_ok hset false).1
    · exact hset
  | clearDownloadLimit =>
    rw [received,List.flatMap_cons,List.flatMap_nil,List.append_nil,hnone]
    exact ⟨h.stream,h.crypt,h.progress⟩
  | remoteHostClosed =>
    rw [received,List.flatMap_cons,List.flatMap_nil,List.append_nil,hnone]
    exact onError_socket_ok (drain_ok h (Nat.le_refl _)).1

theorem run_ok (h : SocketOk layer packetReceived g c stream s) (ops : List Op) :
    SocketOk layer packetReceived g c (stream++received ops)
      (run (step layer packetReceived) s ops) := by
  induction ops generalizing s stream with
  | nil =>
    rw [received,List.flatMap_nil,List.append_nil]
    exact h
  | cons op ops ih =>
    have hrest := ih (step_ok h op)
    rw [List.append_assoc,received,received,← List.flatMap_append] at hrest
    exact hrest

section Outcome

variable {f : Framing σ} {left more : List UInt8} (hps : ∀ p∈ps, p.WellFormed)
  (hbad : Stuck bad) (hplain : plain++more=wires ps++bad)

include hps hbad hplain

theorem going_outcome (h : Going packetReceived c plain f left) :
    ∃ qs, ps=f.dispatched++qs ∧
      pendingBytes f.pendingPacket++left++more=wires qs++bad := by
  rw [h.bytes,List.append_assoc] at hplain
  exact packets_prefix h.wellFormed hps hbad hplain

theorem going_calls (h : Going packetReceived c plain f left) :
    f.dispatched <+: (offer packetReceived c ps).1 := by
  obtain ⟨qs,hqs,-⟩ := going_outcome hps hbad hplain h
  rw [hqs,offer_append_some h.accepted]
  exact List.prefix_append _ _

theorem ended_calls (h : Ended packetReceived c plain f) :
    offer packetReceived c ps=(f.dispatched, none) := by
  obtain ⟨rest,hrest⟩ := h.bytes
  rw [← hrest,List.append_assoc] at hplain
  obtain ⟨qs,hqs,-⟩ := packets_prefix h.wellFormed hps hbad hplain
  rw [hqs,offer_append_none h.refused]
  exact Prod.ext h.calls h.refused

theorem reported_outcome (h : Reported packetReceived c plain f) :
    f.dispatched=ps ∧ (offer packetReceived c ps).1=ps ∧
      ∃ e, Malformed e bad ∧ f.headerReports=[e] := by
  obtain ⟨e,bad',hbytes,⟨hlong,hcheck⟩,hreports⟩ := h.bytes
  rw [hbytes,List.append_assoc] at hplain
  obtain ⟨qs,hqs,hrest⟩ := packets_prefix h.wellFormed hps hbad hplain
  have hheader : Header.check (wires qs++bad)=some e := by
    rw [← hrest, check_prefix hlong,hcheck]
  cases qs with
  | nil =>
    rw [List.append_nil] at hqs
    have hle : kPacketHeaderSize≤bad.length := by
      have hlength := congrArg List.length hrest
      rcases hbad with rfl | ⟨e',hlong',-⟩
      · rw [List.length_append] at hlength
        simp only [wires,List.flatMap_nil,List.append_nil,List.length_nil] at hlength
        unfold kPacketHeaderSize at hlong
        omega
      · exact hlong'
    exact ⟨hqs.symm,hqs ▸ offer_all h.accepted,e,⟨hle,hheader⟩,hreports⟩
  | cons q qs =>
    have hq := hps q (hqs ▸ List.mem_append_right _ List.mem_cons_self)
    rw [wires_cons,List.append_assoc,check_wire hq] at hheader
    cases hheader

end Outcome

theorem going_complete {f : Framing σ} {left : List UInt8} (hps : ∀ p∈ps,p.WellFormed)
    (hbad : Stuck bad) (hplain : plain=wires ps++bad)
    (h : Going packetReceived c plain f left) (hmore : f.hasMore left=false) :
    f.dispatched=ps ∧ (offer packetReceived c ps).1=ps ∧ bad=[] := by
  have hwhole : plain++[]=wires ps++bad := by rw [List.append_nil,hplain]
  obtain ⟨qs,hqs,hrest⟩ := going_outcome hps hbad hwhole h
  rw [List.append_nil] at hrest
  cases qs with
  | nil =>
    rw [List.append_nil] at hqs
    refine ⟨hqs.symm,hqs ▸ offer_all h.accepted,?_⟩
    rcases hbad with hnil | ⟨e,hmalformed⟩
    · exact hnil
    · have hleft : pendingBytes f.pendingPacket++left=bad := hrest
      exact absurd (hleft.symm ▸ hmalformed) (left_not_malformed h hmore)
  | cons q qs =>
    have hq := hps q (hqs ▸ List.mem_append_right _ List.mem_cons_self)
    rw [wires_cons,List.append_assoc] at hrest
    exact absurd hrest.symm (left_incomplete h hmore hq)

theorem Stopped.complete (hps : ∀ p∈ps,p.WellFormed) (hbad : Stuck bad)
    (hplain : s.deciphered layer g++rest=wires ps++bad)
    (h : Stopped layer packetReceived g c s) :
    s.framing.dispatched=(offer packetReceived c ps).1 := by
  rcases h with hended | hreported
  · rw [ended_calls hps hbad hplain hended]
  · obtain ⟨hcalls,hoffer,-⟩ := reported_outcome hps hbad hplain hreported
    rw [hcalls,hoffer]

section Correct

variable (h : SocketOk layer packetReceived g c stream s) (hps : ∀ p∈ps, p.WellFormed)
  (hbad : Stuck bad)

include h

theorem SocketOk.deciphered_prefix :
    s.deciphered layer g <+: (layer.processReceivedData g stream).2 := by
  rw [← h.stream,layer.append]
  exact List.prefix_append _ _

theorem SocketOk.deciphered_all (hread : s.available=[]) :
    s.deciphered layer g=(layer.processReceivedData g stream).2 := by
  rw [← h.stream,hread,List.append_nil]
  rfl

include hps hbad

theorem SocketOk.calls (hplain : (layer.processReceivedData g stream).2 <+: wires ps++bad) :
    s.framing.dispatched <+: (offer packetReceived c ps).1 := by
  obtain ⟨rest,hrest⟩ := h.deciphered_prefix.trans hplain
  rcases h.progress with ⟨hgo,-⟩ | hended | hreported
  · exact going_calls hps hbad hrest hgo
  · simp only [ended_calls hps hbad hrest hended,List.prefix_rfl]
  · obtain ⟨hcalls,hoffer,-⟩ := reported_outcome hps hbad hrest hreported
    simp only [hcalls,hoffer,List.prefix_rfl]

theorem SocketOk.report (hplain : (layer.processReceivedData g stream).2 <+: wires ps++bad)
    (haccepts : (offer packetReceived c ps).2≠none) (hreports : s.framing.headerReports≠[]) :
    s.framing.dispatched=ps ∧ ∃ e, Malformed e bad ∧ s.framing.headerReports=[e] := by
  obtain ⟨rest,hrest⟩ := h.deciphered_prefix.trans hplain
  rcases h.progress with ⟨hgo,-⟩ | hended | hreported
  · exact absurd hgo.reports hreports
  · rw [ended_calls hps hbad hrest hended] at haccepts
    exact absurd rfl haccepts
  · obtain ⟨hcalls,-,hone⟩ := reported_outcome hps hbad hrest hreported
    exact ⟨hcalls,hone⟩

theorem SocketOk.complete (hplain : (layer.processReceivedData g stream).2=wires ps++bad)
    (hread : s.available=[]) :
    s.framing.dispatched=(offer packetReceived c ps).1 ∧
      ((offer packetReceived c ps).2≠none → bad≠[] → s.framing.headerReports≠[]) := by
  have hwhole := (h.deciphered_all hread).trans hplain
  have happend : s.deciphered layer g++[]=wires ps++bad := by rw [List.append_nil,hwhole]
  rcases h.progress with ⟨hgo,hmore⟩ | hended | hreported
  · obtain ⟨hcalls,hoffer,hnil⟩ := going_complete hps hbad hwhole hgo hmore
    exact ⟨hcalls.trans hoffer.symm,fun _ hne => absurd hnil hne⟩
  · rw [ended_calls hps hbad happend hended]
    exact ⟨rfl,fun haccepts => absurd rfl haccepts⟩
  · obtain ⟨hcalls,hoffer,e,-,hone⟩ := reported_outcome hps hbad happend hreported
    refine ⟨hcalls.trans hoffer.symm,fun _ _ => ?_⟩
    rw [hone]
    exact List.cons_ne_nil e []

theorem SocketOk.remoteHostClosed
    (hplain : (layer.processReceivedData g stream).2=wires ps++bad)
    (hopen : s.disconnected=false) :
    (s.step layer packetReceived .remoteHostClosed).framing.dispatched =
      (offer packetReceived c ps).1 := by
  obtain ⟨hdrained,hend⟩ := drain_ok h (Nat.le_refl _)
  have hsame : (s.step layer packetReceived .remoteHostClosed).framing.dispatched =
      (s.drain layer packetReceived s.available.length).framing.dispatched := rfl
  rw [hsame]
  rcases hend hopen with hread | hstopped
  · exact (hdrained.complete hps hbad hplain hread).1
  · obtain ⟨rest,hrest⟩ := hdrained.deciphered_prefix
    rw [hplain] at hrest
    exact hstopped.complete hps hbad hrest

end Correct

end EMSocket

end EmuleQt.Net
