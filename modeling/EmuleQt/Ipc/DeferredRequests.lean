import EmuleQt.Ipc.IpcMessage

namespace EmuleQt.Ipc

namespace IpcMsgType

def GetDownloads : Int := 110
def GetDownload : Int := 111
def GetDownloadSources : Int := 117
def GetUploads : Int := 120
def GetDownloadClients : Int := 121
def GetKnownClients : Int := 122
def GetServers : Int := 130
def GetConnection : Int := 140
def GetSearchResults : Int := 151
def GetKnownTypes : Int := 156
def GetSharedFiles : Int := 160
def GetFriends : Int := 170
def GetStats : Int := 180
def GetPreferences : Int := 190
def GetTorrents : Int := 800
def GetTorrentDetails : Int := 806
def GetBtStatus : Int := 818
def GetBtStats : Int := 819
def GetHosterStats : Int := 1107
def GetEd3kStatus : Int := 1000
def GetEd3kFriends : Int := 1001
def GetEd3kDownloads : Int := 1140
def GetEd3kSets : Int := 1110
def GetEd3kLive : Int := 1119
def GetKadContacts : Int := 210
def GetKadStatus : Int := 211
def GetKadSearches : Int := 216
def GetKadLookupHistory : Int := 217
def GetNetworkInfo : Int := 218
def GetSchedules : Int := 221
def GetNetworkInterfaces : Int := 223
def GetConvertJobs : Int := 231
def GetDownloadDetails : Int := 249
def GetClientDetails : Int := 252
def GetSharedFileDetails : Int := 253
def GetServerState : Int := 254
def GetServerMessages : Int := 259
def GetSearchResultDetails : Int := 260
def GetKadStats : Int := 277
def GetClientStats : Int := 278
def GetGeoIpStatus : Int := 273
def GetIPFilter : Int := 294
def GetSpeedHistory : Int := 261
def GetStatsHistory : Int := 262
def GetCategories : Int := 268
def GetSharedDirState : Int := 286
def GetKnownFiles : Int := 288
def GetIndexers : Int := 700
def GetIndexerFeeds : Int := 708
def GetNewsServers : Int := 720
def GetUsenetQueue : Int := 723
def GetUsenetKnownTypes : Int := 733
def GetUsenetItemDetails : Int := 734
def GetUsenetStats : Int := 738

end IpcMsgType

open IpcMsgType in
/-- The requests whose answer changes nothing. -/
def readOnlyRequests : List Int :=
  [GetDownloads,GetDownload,GetDownloadSources,GetUploads,GetDownloadClients,GetKnownClients,
    GetServers,GetConnection,GetSearchResults,GetKnownTypes,GetSharedFiles,GetFriends,
    GetStats,GetPreferences,GetTorrents,GetTorrentDetails,GetBtStatus,GetBtStats,
    GetHosterStats,GetEd3kStatus,GetEd3kFriends,GetEd3kDownloads,GetEd3kSets,GetEd3kLive,
    GetKadContacts,GetKadStatus,GetKadSearches,GetKadLookupHistory,GetNetworkInfo,
    GetSchedules,GetNetworkInterfaces,GetConvertJobs,GetDownloadDetails,GetClientDetails,
    GetSharedFileDetails,GetServerState,GetServerMessages,GetSearchResultDetails,GetKadStats,
    GetClientStats,GetGeoIpStatus,GetIPFilter,GetSpeedHistory,GetStatsHistory,GetCategories,
    GetSharedDirState,GetKnownFiles,GetIndexers,GetIndexerFeeds,GetNewsServers,
    GetUsenetQueue,GetUsenetKnownTypes,GetUsenetItemDetails,GetUsenetStats]

def isReadOnlyRequest (type : Int) : Bool := readOnlyRequests.contains type

/-- The writing side of the CBOR library. -/
structure CborWriter (V : Type) extends reader : Cbor V where
  integer : Int → V
  toCbor : List V → List UInt8

def requestIdentity {V : Type} (cbor : CborWriter V) (msg : IpcMessage V) : List UInt8 :=
  cbor.toCbor (if 2 ≤ msg.length then msg.set 1 (cbor.integer 0) else msg)

/-- What a store of requests asks of a message. -/
structure Requests (M I : Type) where
  isReadOnly : M → Bool
  identity : M → I

def ipcRequests {V : Type} (cbor : CborWriter V) : Requests (IpcMessage V) (List UInt8) where
  isReadOnly msg := isReadOnlyRequest (msg.type cbor.reader)
  identity := requestIdentity cbor

def kMaxHeld : Nat := 2048

structure DeferredRequests (M I : Type) where
  /-- `none` = superseded. -/
  held : List (Option M)
  /-- `requestIdentity` to the index in `held`. -/
  readOnly : I → Option Nat
  live : Nat

namespace DeferredRequests

variable {M I : Type}

def empty : DeferredRequests M I := ⟨[], fun _ => none, 0⟩

/-- Everything held, in arrival order. -/
def messages (s : DeferredRequests M I) : List M := s.held.filterMap id

def slotCount (s : DeferredRequests M I) : Nat := s.held.length

section Model

variable [DecidableEq I] (req : Requests M I)

/-- The loop of `compact`, from slot `i` on. -/
def reindex : List (Option M) → Nat → (I → Option Nat) → I → Option Nat
  | [], _, index => index
  | none :: held, i, index => reindex held (i + 1) index
  | some msg :: held, i, index =>
    reindex held (i + 1)
      (if req.isReadOnly msg then Function.update index (req.identity msg) (some i) else index)

def compact (s : DeferredRequests M I) : DeferredRequests M I :=
  let held := s.held.filter Option.isSome
  { s with held := held, readOnly := reindex req held 0 fun _ => none }

/-- `m_held.emplace_back`, and the entry of a read-only request before it. -/
def append (s : DeferredRequests M I) (msg : M) : DeferredRequests M I where
  held := s.held ++ [some msg]
  readOnly :=
    if req.isReadOnly msg then Function.update s.readOnly (req.identity msg) (some s.held.length)
    else s.readOnly
  live := s.live + 1

/-- The older equal request goes; dead slots in excess go with it. -/
def supersede (s : DeferredRequests M I) (i : Nat) : DeferredRequests M I :=
  let s := { s with held := s.held.set i none, live := s.live-1 }
  if kMaxHeld<s.held.length-s.live then s.compact req else s

def hold (s : DeferredRequests M I) (msg : M) : DeferredRequests M I × Option M :=
  if req.isReadOnly msg then
    match s.readOnly (req.identity msg) with
    | some i => ((s.supersede req i).append req msg, s.held.getD i none)
    | none => if kMaxHeld ≤ s.live then (s, some msg) else (s.append req msg, none)
  else if kMaxHeld ≤ s.live then (s, some msg)
  else (s.append req msg, none)

def take (s : DeferredRequests M I) : DeferredRequests M I × List M := (empty, s.messages)

end Model

variable {req : Requests M I} {s : DeferredRequests M I}
  {held : List (Option M)} {index : I → Option Nat} {i j : Nat} {key : I} {msg old : M}

/-- The slot holds a read-only request of the identity. -/
def Holds (req : Requests M I) (held : List (Option M)) (i : Nat) (key : I) : Prop :=
  ∃ msg, held[i]? = some (some msg) ∧ req.isReadOnly msg = true ∧ req.identity msg = key

/-- The index finds a slot for every read-only request held, and only such slots. -/
structure Indexed (req : Requests M I) (held : List (Option M)) (index : I → Option Nat) :
    Prop where
  sound : ∀ key i, index key = some i → Holds req held i key
  complete : ∀ key i, Holds req held i key → ∃ j, index key = some j

structure Sound (req : Requests M I) (s : DeferredRequests M I) : Prop where
  count : s.live = s.messages.length
  indexed : Indexed req s.held s.readOnly
  live_le : s.live ≤ kMaxHeld
  dead_le : s.slotCount ≤ s.live + kMaxHeld

theorem messages_append (xs ys : List (Option M)) :
    (xs++ys).filterMap id=xs.filterMap id++ys.filterMap id := List.filterMap_append

theorem filterMap_filter_isSome (held : List (Option M)) :
    (held.filter Option.isSome).filterMap id=held.filterMap id := by
  induction held with
  | nil => rfl
  | cons slot held ih =>
    cases slot with
    | none => exact ih
    | some msg => exact congrArg (msg :: ·) ih

theorem length_filter_isSome (held : List (Option M)) :
    (held.filter Option.isSome).length=(held.filterMap id).length := by
  induction held with
  | nil => rfl
  | cons slot held ih => cases slot <;> simp [ih]

theorem filterMap_set_none (h : held[i]? = some (some msg)) : ∃ before after,
    held.filterMap id=before++msg::after ∧
      (held.set i none).filterMap id=before++after := by
  obtain ⟨hi,hget⟩ := List.getElem?_eq_some_iff.mp h
  refine ⟨(held.take i).filterMap id,(held.drop (i+1)).filterMap id,?_,?_⟩
  · have hsplit : held=held.take i++some msg::held.drop (i+1) := by
      rw [← hget,List.getElem_cons_drop,List.take_append_drop]
    conv_lhs => rw [hsplit]
    rw [messages_append]
    rfl
  · rw [List.set_eq_take_append_cons_drop,if_pos hi,messages_append]
    rfl

theorem Holds.of_append (h : Holds req held i key) (more : List (Option M)) :
    Holds req (held++more) i key := by
  obtain ⟨msg,hget,hrest⟩ := h
  obtain ⟨hi,-⟩ := List.getElem?_eq_some_iff.mp hget
  exact ⟨msg,by rw [List.getElem?_append_left hi,hget],hrest⟩

theorem indexed_nil : Indexed req [] fun _ => none where
  sound _ _ h := by cases h
  complete _ _ h := by
    obtain ⟨msg,hget,-⟩ := h
    cases hget

theorem empty_sound : (empty : DeferredRequests M I).Sound req where
  count := rfl
  indexed := indexed_nil
  live_le := Nat.zero_le _
  dead_le := Nat.zero_le _

variable [DecidableEq I]

theorem reindex_indexed (before held : List (Option M)) (h : Indexed req before index) :
    Indexed req (before++held) (reindex req held before.length index) := by
  induction held generalizing before index with
  | nil => simpa [reindex] using h
  | cons slot held ih =>
    have hlast : (before++[slot])[before.length]? = some slot := by simp
    have hone : Indexed req (before++[slot]) (match slot with
        | none => index
        | some msg => if req.isReadOnly msg then
            Function.update index (req.identity msg) (some before.length) else index) := by
      constructor
      · intro key i hi
        cases slot with
        | none => exact (h.sound key i hi).of_append _
        | some msg =>
          dsimp only at hi
          split_ifs at hi with hread
          · by_cases hkey : key=req.identity msg
            · rw [hkey,Function.update_self] at hi
              obtain rfl := Option.some.inj hi
              exact ⟨msg,hlast,hread,hkey.symm⟩
            · rw [Function.update_of_ne hkey] at hi
              exact (h.sound key i hi).of_append _
          · exact (h.sound key i hi).of_append _
      · intro key i hi
        obtain ⟨m,hget,hread,hkey⟩ := hi
        rcases Nat.lt_or_ge i before.length with hlt | hge
        · rw [List.getElem?_append_left hlt] at hget
          obtain ⟨j,hj⟩ := h.complete key i ⟨m,hget,hread,hkey⟩
          cases slot with
          | none => exact ⟨j,hj⟩
          | some msg =>
            dsimp only
            split_ifs with hnew
            · by_cases hsame : key=req.identity msg
              · exact ⟨before.length,by rw [hsame,Function.update_self]⟩
              · exact ⟨j,by rw [Function.update_of_ne hsame,hj]⟩
            · exact ⟨j,hj⟩
        · obtain ⟨hi,-⟩ := List.getElem?_eq_some_iff.mp hget
          rw [List.length_append,List.length_singleton] at hi
          obtain rfl : i=before.length := by omega
          rw [hlast] at hget
          obtain rfl := Option.some.inj hget
          dsimp only
          rw [if_pos hread]
          exact ⟨before.length,by rw [← hkey,Function.update_self]⟩
    have hrest := ih (before++[slot]) hone
    rw [List.append_assoc,List.singleton_append,List.length_append,List.length_singleton]
      at hrest
    cases slot <;> exact hrest

theorem Indexed.supersede (h : Indexed req held index) (hread : req.isReadOnly msg=true)
    (hget : held[i]? = some (some old)) (hold : req.identity old=req.identity msg) :
    Indexed req (held.set i none++[some msg])
      (Function.update index (req.identity msg) (some held.length)) := by
  constructor
  · intro key j hj
    by_cases hsame : key=req.identity msg
    · rw [hsame,Function.update_self] at hj
      obtain rfl := Option.some.inj hj
      exact ⟨msg,by simp,hread,hsame.symm⟩
    · rw [Function.update_of_ne hsame] at hj
      obtain ⟨m,hm,hmread,hmkey⟩ := h.sound key j hj
      refine Holds.of_append ⟨m,?_,hmread,hmkey⟩ _
      have hne : i≠j := by
        rintro rfl
        rw [hget] at hm
        obtain rfl := Option.some.inj (Option.some.inj hm)
        exact hsame (hmkey.symm.trans hold)
      rw [List.getElem?_set_ne hne,hm]
  · intro key j hj
    by_cases hsame : key=req.identity msg
    · exact ⟨_,by rw [hsame,Function.update_self]⟩
    · rw [Function.update_of_ne hsame]
      obtain ⟨m,hm,hmread,hmkey⟩ := hj
      rcases Nat.lt_or_ge j (held.set i none).length with hlt | hge
      · rw [List.getElem?_append_left hlt] at hm
        by_cases hij : i=j
        · rw [hij,List.getElem?_set_self (by simpa using hlt)] at hm
          cases hm
        · rw [List.getElem?_set_ne hij] at hm
          exact h.complete key j ⟨m,hm,hmread,hmkey⟩
      · obtain ⟨hj,-⟩ := List.getElem?_eq_some_iff.mp hm
        rw [List.length_append,List.length_singleton] at hj
        obtain rfl : j=(held.set i none).length := by omega
        rw [List.getElem?_concat_length] at hm
        obtain rfl := Option.some.inj (Option.some.inj hm)
        exact absurd hmkey.symm hsame

@[simp] theorem messages_compact : (s.compact req).messages=s.messages :=
  filterMap_filter_isSome s.held

theorem compact_indexed : Indexed req (s.compact req).held (s.compact req).readOnly := by
  exact reindex_indexed [] (s.held.filter Option.isSome) indexed_nil

@[simp] theorem messages_append_msg (msg : M) :
    (s.append req msg).messages=s.messages++[msg] := messages_append s.held [some msg]

theorem Sound.append (h : s.Sound req) (hroom : s.live<kMaxHeld) :
    (s.append req msg).Sound req where
  count := by
    rw [messages_append_msg,List.length_append,List.length_singleton,← h.count]
    rfl
  indexed := by
    have hindexed := reindex_indexed s.held [some msg] h.indexed
    exact hindexed
  live_le := hroom
  dead_le := by
    have hdead := h.dead_le
    change (s.held++[some msg]).length ≤ s.live+1+kMaxHeld
    change s.held.length ≤ s.live+kMaxHeld at hdead
    rw [List.length_append,List.length_singleton]
    omega

theorem supersede_spec (h : s.Sound req) (hread : req.isReadOnly msg=true)
    (hindex : s.readOnly (req.identity msg)=some i) : ∃ old before after,
    s.held.getD i none=some old ∧ req.isReadOnly old=true ∧
      req.identity old=req.identity msg ∧ s.messages=before++old::after ∧
      (s.supersede req i).messages=before++after ∧
      ((s.supersede req i).append req msg).Sound req := by
  obtain ⟨old,hget,hread',hkey⟩ := h.indexed.sound _ _ hindex
  obtain ⟨before,after,hsplit,hset⟩ := filterMap_set_none hget
  have hlen : s.live=(before++after).length+1 := by
    rw [h.count,messages,hsplit,List.length_append,List.length_append,List.length_cons]
    omega
  have hlive := h.live_le
  have hslots : (s.held.set i none).length=s.held.length := List.length_set
  refine ⟨old,before,after,by rw [List.getD_eq_getElem?_getD,hget]; rfl,hread',hkey,hsplit,
    ?_,?_⟩
  · unfold supersede
    dsimp only
    split_ifs
    · rw [messages_compact]
      exact hset
    · exact hset
  · unfold supersede
    dsimp only
    split_ifs with hmany
    · refine Sound.append ⟨?_,compact_indexed,?_,?_⟩ ?_
      · rw [messages_compact]
        change s.live-1=((s.held.set i none).filterMap id).length
        rw [hset]
        omega
      · exact Nat.le_trans (Nat.sub_le _ _) hlive
      · change ((s.held.set i none).filter Option.isSome).length ≤ s.live-1+kMaxHeld
        rw [length_filter_isSome,hset]
        omega
      · change s.live-1<kMaxHeld
        omega
    · refine ⟨?_,?_,?_,?_⟩
      · rw [messages_append_msg,List.length_append,List.length_singleton]
        change s.live-1+1=((s.held.set i none).filterMap id).length+1
        rw [hset]
        omega
      · have hindexed := h.indexed.supersede hread hget hkey
        rw [← hslots] at hindexed
        unfold DeferredRequests.append
        dsimp only
        rw [if_pos hread]
        exact hindexed
      · change s.live-1+1≤kMaxHeld
        omega
      · change (s.held.set i none++[some msg]).length ≤ s.live-1+1+kMaxHeld
        rw [List.length_append,List.length_singleton]
        omega

/-- What `hold` can do: put the request in the place of an older equal one, refuse it for want of
room, or keep it. -/
theorem hold_cases (h : s.Sound req) (msg : M) : (s.hold req msg).1.Sound req ∧
    ((∃ old before after, req.isReadOnly msg=true ∧ req.isReadOnly old=true ∧
        req.identity old=req.identity msg ∧ s.messages=before++old::after ∧
        (s.hold req msg).1.messages=before++after++[msg] ∧
        (s.hold req msg).2=some old) ∨
      (s.live=kMaxHeld ∧ (s.hold req msg).1=s ∧ (s.hold req msg).2=some msg ∧
        (req.isReadOnly msg=true → ∀ m∈s.messages,req.isReadOnly m=true →
          req.identity m≠req.identity msg)) ∨
      ((s.hold req msg).1.messages=s.messages++[msg] ∧ (s.hold req msg).2=none)) := by
  have hlive := h.live_le
  unfold hold
  by_cases hread : req.isReadOnly msg=true
  · rw [if_pos hread]
    cases hindex : s.readOnly (req.identity msg) with
    | some i =>
      obtain ⟨old,before,after,hget,hold,hkey,hsplit,hmessages,hsound⟩ :=
        supersede_spec h hread hindex
      refine ⟨hsound,.inl ⟨old,before,after,hread,hold,hkey,hsplit,?_,hget⟩⟩
      rw [messages_append_msg,hmessages]
    | none =>
      dsimp only
      split_ifs with hfull
      · refine ⟨h,.inr (.inl ⟨Nat.le_antisymm hlive hfull,rfl,rfl,?_⟩)⟩
        intro _ m hm hmread hmkey
        obtain ⟨slot,hslot,rfl⟩ := List.mem_filterMap.mp hm
        obtain ⟨j,hj⟩ := List.mem_iff_getElem?.mp hslot
        obtain ⟨k,hk⟩ := h.indexed.complete (req.identity msg) j ⟨m,hj,hmread,hmkey⟩
        exact Option.some_ne_none k (hk.symm.trans hindex)
      · exact ⟨h.append (Nat.lt_of_not_le hfull),.inr (.inr ⟨messages_append_msg msg,rfl⟩)⟩
  · rw [if_neg hread]
    split_ifs with hfull
    · exact ⟨h,.inr (.inl ⟨Nat.le_antisymm hlive hfull,rfl,rfl,fun hr => absurd hr hread⟩)⟩
    · exact ⟨h.append (Nat.lt_of_not_le hfull),.inr (.inr ⟨messages_append_msg msg,rfl⟩)⟩

end DeferredRequests

inductive DeferredOp (M : Type)
  | hold (msg : M)
  | take

/-- What a call gives back. -/
inductive DeferredAnswer (M : Type)
  | refused (msg : Option M)
  | delivered (msgs : List M)

/-- The messages a call passes to `hold`. -/
def DeferredOp.passed {M : Type} : DeferredOp M → List M
  | hold msg => [msg]
  | take => []

namespace DeferredAnswer

variable {M N : Type}

def refusals : DeferredAnswer M → List M
  | refused msg => msg.toList
  | delivered _ => []

def deliveries : DeferredAnswer M → List M
  | refused _ => []
  | delivered msgs => msgs

def map (f : M → N) : DeferredAnswer M → DeferredAnswer N
  | refused msg => refused (msg.map f)
  | delivered msgs => delivered (msgs.map f)

end DeferredAnswer

/-- The calls with each message marked by its place in the sequence. -/
def marked {M : Type} : Nat → List (DeferredOp M) → List (DeferredOp (Nat × M))
  | _, [] => []
  | n, .hold msg :: ops => .hold (n, msg) :: marked (n + 1) ops
  | n, .take :: ops => .take :: marked (n + 1) ops

/-- A mark changes nothing of what a store asks of a message. -/
def Requests.marked {M I : Type} (req : Requests M I) : Requests (Nat × M) I where
  isReadOnly msg := req.isReadOnly msg.2
  identity msg := req.identity msg.2

namespace DeferredRequests

variable {M N I : Type} {req : Requests M I} {s : DeferredRequests M I}

def map (f : M → N) (s : DeferredRequests M I) : DeferredRequests N I :=
  ⟨s.held.map (Option.map f), s.readOnly, s.live⟩

theorem messages_map (s : DeferredRequests M I) (f : M → N) :
    (s.map f).messages=s.messages.map f := by
  change (s.held.map (Option.map f)).filterMap id=(s.held.filterMap id).map f
  rw [List.filterMap_map,List.map_filterMap]
  rfl

variable [DecidableEq I]

section Model

variable (req : Requests M I) (s : DeferredRequests M I)

def step : DeferredOp M → DeferredRequests M I × DeferredAnswer M
  | .hold msg => ((s.hold req msg).1, .refused (s.hold req msg).2)
  | .take => (s.take.1, .delivered s.take.2)

/-- The store after a sequence of calls, and the answer to each. -/
def play (s : DeferredRequests M I) : List (DeferredOp M) →
    DeferredRequests M I × List (DeferredAnswer M)
  | [] => (s, [])
  | op :: ops =>
    let (s', answer) := s.step req op
    let (last, answers) := play s' ops
    (last, answer :: answers)

end Model

/-! # Marks -/

section Map

variable {req : Requests N I} {f : M → N} (req' : Requests M I)
  (hread : ∀ msg, req'.isReadOnly msg=req.isReadOnly (f msg))
  (hidentity : ∀ msg, req'.identity msg=req.identity (f msg))

include hread hidentity

theorem reindex_map (held : List (Option M)) (i : Nat) (index : I → Option Nat) :
    reindex req (held.map (Option.map f)) i index=reindex req' held i index := by
  induction held generalizing i index with
  | nil => rfl
  | cons slot held ih =>
    cases slot with
    | none => exact ih (i+1) index
    | some msg =>
      simp only [List.map_cons,Option.map_some,reindex,hread,hidentity]
      exact ih (i+1) _

theorem compact_map (s : DeferredRequests M I) : (s.map f).compact req=(s.compact req').map f := by
  have hfilter : (s.held.map (Option.map f)).filter Option.isSome =
      (s.held.filter Option.isSome).map (Option.map f) := by
    rw [List.filter_map]
    congr 1
    exact List.filter_congr fun slot _ => by cases slot <;> rfl
  simp only [compact,map,hfilter,reindex_map req' hread hidentity]

theorem append_map (s : DeferredRequests M I) (msg : M) :
    (s.map f).append req (f msg)=(s.append req' msg).map f := by
  simp [append,map,hread,hidentity]

theorem supersede_map (s : DeferredRequests M I) (i : Nat) :
    (s.map f).supersede req i=(s.supersede req' i).map f := by
  have hset : (s.held.map (Option.map f)).set i none=(s.held.set i none).map (Option.map f) := by
    rw [List.map_set]
    rfl
  have hcompact := compact_map req' hread hidentity
    { s with held := s.held.set i none, live := s.live-1 }
  simp only [supersede,map,hset,List.length_map] at hcompact ⊢
  split_ifs
  · exact hcompact
  · rfl

theorem hold_map (s : DeferredRequests M I) (msg : M) :
    (s.map f).hold req (f msg) =
      ((s.hold req' msg).1.map f, (s.hold req' msg).2.map f) := by
  have happend := append_map req' hread hidentity
  have hget : ∀ i,(s.map f).held.getD i none=(s.held.getD i none).map f := by
    intro i
    change (s.held.map (Option.map f)).getD i none=_
    rw [List.getD_eq_getElem?_getD,List.getD_eq_getElem?_getD,List.getElem?_map]
    cases s.held[i]? <;> rfl
  have hlive : (s.map f).live=s.live := rfl
  have hindexMap : (s.map f).readOnly=s.readOnly := rfl
  unfold hold
  rw [hread,hidentity,hlive,hindexMap]
  by_cases hro : req.isReadOnly (f msg)=true
  · rw [if_pos hro,if_pos hro]
    cases hindex : s.readOnly (req.identity (f msg)) with
    | some i =>
      dsimp only
      rw [supersede_map req' hread hidentity,happend,hget]
    | none =>
      dsimp only
      split_ifs
      · rfl
      · rw [happend]
        rfl
  · rw [if_neg hro,if_neg hro]
    split_ifs
    · rfl
    · rw [happend]
      rfl

end Map

theorem play_marked (s : DeferredRequests (Nat × M) I) (n : Nat) (ops : List (DeferredOp M)) :
    (s.map Prod.snd).play req ops =
      ((s.play req.marked (marked n ops)).1.map Prod.snd,
        (s.play req.marked (marked n ops)).2.map (DeferredAnswer.map Prod.snd)) := by
  induction ops generalizing s n with
  | nil => rfl
  | cons op ops ih =>
    cases op with
    | hold msg =>
      have hhold := @hold_map _ _ _ _ req Prod.snd req.marked (fun _ => rfl) (fun _ => rfl)
        s (n, msg)
      simp only [Ipc.marked,play,step]
      rw [hhold,ih]
      rfl
    | take =>
      simp only [Ipc.marked,play,step,take,messages_map]
      rw [show (empty : DeferredRequests M I)=(empty : DeferredRequests (Nat × M) I).map Prod.snd
        from rfl,ih]
      rfl

/-! # Runs -/

def passedIn (ops : List (DeferredOp M)) : List M := ops.flatMap DeferredOp.passed

def refusedIn (answers : List (DeferredAnswer M)) : List M := answers.flatMap DeferredAnswer.refusals

def deliveredIn (answers : List (DeferredAnswer M)) : List M :=
  answers.flatMap DeferredAnswer.deliveries

theorem step_sound (h : s.Sound req) (op : DeferredOp M) : (s.step req op).1.Sound req := by
  cases op with
  | hold msg => exact (hold_cases h msg).1
  | take => exact empty_sound

theorem step_account (h : s.Sound req) (op : DeferredOp M) :
    ((s.step req op).2.refusals++(s.step req op).2.deliveries ++
      (s.step req op).1.messages).Perm (s.messages++op.passed) ∧
    ((s.step req op).2.deliveries++(s.step req op).1.messages).Sublist
      (s.messages++op.passed) := by
  cases op with
  | take => simp [step,take,DeferredAnswer.refusals,DeferredAnswer.deliveries,
      DeferredOp.passed,empty,messages]
  | hold msg =>
    simp only [step,DeferredAnswer.refusals,DeferredAnswer.deliveries,DeferredOp.passed,
      List.append_nil,List.nil_append]
    obtain ⟨-,⟨old,before,after,-,-,-,hsplit,hmessages,hrefused⟩ |
      ⟨-,hsame,hrefused,-⟩ | ⟨hmessages,hrefused⟩⟩ := hold_cases h msg
    · rw [hmessages,hrefused,hsplit]
      constructor
      · have hfront : (old::(before++after)).Perm (before++old::after) :=
          List.perm_middle.symm
        exact hfront.append_right [msg]
      · have hdrop : (before++after).Sublist (before++old::after) :=
          (List.Sublist.refl before).append (List.sublist_cons_self old after)
        exact hdrop.append (List.Sublist.refl [msg])
    · rw [hsame,hrefused]
      exact ⟨(List.perm_append_singleton msg s.messages).symm,List.sublist_append_left _ _⟩
    · rw [hmessages,hrefused]
      exact ⟨List.Perm.refl _,List.Sublist.refl _⟩

theorem play_sound (h : s.Sound req) (ops : List (DeferredOp M)) :
    (s.play req ops).1.Sound req := by
  induction ops generalizing s with
  | nil => exact h
  | cons op ops ih => exact ih (step_sound h op)

/-- Every message passed is refused, delivered or still held, and none twice; what is delivered
or held stands in the order passed. -/
theorem play_account (h : s.Sound req) (ops : List (DeferredOp M)) :
    (refusedIn (s.play req ops).2++deliveredIn (s.play req ops).2 ++
      (s.play req ops).1.messages).Perm (s.messages++passedIn ops) ∧
    (deliveredIn (s.play req ops).2++(s.play req ops).1.messages).Sublist
      (s.messages++passedIn ops) := by
  induction ops generalizing s with
  | nil => simp [play,refusedIn,deliveredIn,passedIn]
  | cons op ops ih =>
    obtain ⟨hperm,hsub⟩ := step_account h op
    obtain ⟨hrest,hrestSub⟩ := ih (step_sound h op)
    simp only [play,refusedIn,deliveredIn,passedIn,List.flatMap_cons] at hrest hrestSub ⊢
    constructor
    · classical
      rw [List.perm_iff_count] at hperm hrest ⊢
      intro msg
      have hstep := hperm msg
      have hlater := hrest msg
      simp only [List.count_append] at hstep hlater ⊢
      omega
    · have hgroup := (hrestSub.append_left (s.step req op).2.deliveries).trans
        (List.append_assoc _ _ _ ▸ hsub.append_right (ops.flatMap DeferredOp.passed))
      simpa only [List.append_assoc] using hgroup

theorem mem_passedIn_marked {n i : Nat} {msg : M} {ops : List (DeferredOp M)}
    (h : (i, msg)∈passedIn (marked n ops)) : n ≤ i ∧ i<n+ops.length := by
  induction ops generalizing n with
  | nil => cases h
  | cons op ops ih =>
    cases op with
    | hold m =>
      rcases List.mem_cons.mp h with heq | hrest
      · obtain rfl : i=n := congrArg Prod.fst heq
        simp
      · have := ih hrest
        rw [List.length_cons]
        omega
    | take =>
      have := ih h
      rw [List.length_cons]
      omega

theorem passedIn_marked_nodup (n : Nat) (ops : List (DeferredOp M)) :
    ((passedIn (marked n ops)).map Prod.fst).Nodup := by
  induction ops generalizing n with
  | nil => exact List.nodup_nil
  | cons op ops ih =>
    cases op with
    | hold msg =>
      refine List.nodup_cons.mpr ⟨fun hmem => ?_,ih (n+1)⟩
      obtain ⟨entry,hentry,hfst⟩ := List.mem_map.mp hmem
      have := (@mem_passedIn_marked _ _ entry.1 entry.2 _ hentry).1
      omega
    | take => exact ih (n+1)

end DeferredRequests

open DeferredRequests

/-- Every message passed to `hold` is refused once or delivered once by the next `take`, in the
order held. A refusal is for want of room, or of a read-only request when an equal one follows it.
The store keeps within its limits. The marks tell equal messages apart. -/
theorem deferredRequests_account {V : Type} (cbor : CborWriter V)
    (ops : List (DeferredOp (IpcMessage V))) :
    let req := ipcRequests cbor
    let s := (play req.marked empty (marked 0 ops)).1
    let answers := (play req.marked empty (marked 0 ops)).2
    play req empty ops=(s.map Prod.snd, answers.map (DeferredAnswer.map Prod.snd)) ∧
    ((passedIn (marked 0 ops)).map Prod.fst).Nodup ∧
    (refusedIn answers++deliveredIn answers++s.messages).Perm (passedIn (marked 0 ops)) ∧
    (deliveredIn answers++s.messages).Sublist (passedIn (marked 0 ops)) ∧
    s.take=(empty, s.messages) ∧
    s.live=s.messages.length ∧ s.live≤kMaxHeld ∧ s.slotCount ≤ s.live+kMaxHeld ∧
    ∀ msg i old,(s.hold req.marked (ops.length, msg)).2=some (i, old) →
      (i=ops.length ∧ old=msg ∧ s.live=kMaxHeld ∧
        (req.isReadOnly msg=true → ∀ m∈s.messages,req.isReadOnly m.2=true →
          req.identity m.2≠req.identity msg)) ∨
      (i<ops.length ∧ (i, old)∈s.messages ∧ req.isReadOnly old=true ∧
        req.isReadOnly msg=true ∧ req.identity old=req.identity msg) := by
  intro req s answers
  have hsound : s.Sound req.marked := play_sound empty_sound (marked 0 ops)
  obtain ⟨hperm,hsub⟩ := @play_account _ _ req.marked _ _ empty_sound (marked 0 ops)
  refine ⟨play_marked empty 0 ops,passedIn_marked_nodup 0 ops,hperm,hsub,rfl,hsound.count,
    hsound.live_le,hsound.dead_le,?_⟩
  intro msg i old hrefused
  obtain ⟨-,⟨old',before,after,hread,hold,hkey,hsplit,-,hsome⟩ |
    ⟨hfull,-,hself,hnone⟩ | ⟨-,hnothing⟩⟩ := hold_cases hsound (ops.length, msg)
  · right
    obtain rfl : (i, old)=old' := Option.some.inj (hrefused.symm.trans hsome)
    have hmem : (i, old)∈s.messages := by
      rw [hsplit]
      simp
    have hpassed : (i, old)∈passedIn (marked 0 ops) :=
      hsub.subset (List.mem_append_right _ hmem)
    exact ⟨by simpa using (mem_passedIn_marked hpassed).2,hmem,hold,hread,hkey⟩
  · left
    have heq : (ops.length, msg)=(i, old) := Option.some.inj (hself.symm.trans hrefused)
    exact ⟨(congrArg Prod.fst heq).symm,(congrArg Prod.snd heq).symm,hfull,hnone⟩
  · cases hnothing.symm.trans hrefused

end EmuleQt.Ipc
