import EmuleQt.Framework.Packing
import EmuleQt.Kademlia.Indexed
import EmuleQt.Kademlia.TrustValue
import EmuleQt.Framework.PageWindow

namespace EmuleQt.Kademlia

open Framework Utils

/-- A write into a memory file at a position it has reached before. -/
def overwrite (pos : Nat) (data buffer : List UInt8) : List UInt8 :=
  buffer.take pos ++ data ++ buffer.drop (pos + data.length)

/-- `sent` is what the sink was given. -/
structure ResultPacketSender where
  kadId : UInt128
  keyID : UInt128
  packet : List UInt8
  countPos : Nat
  unsentCount : UInt16
  sent : List (List UInt8)

namespace ResultPacketSender

def startPacket (s : ResultPacketSender) : ResultPacketSender :=
  let ids := s.kadId.bytes ++ s.keyID.bytes
  { s with packet := ids ++ writeUInt16 0, countPos := ids.length, unsentCount := 0 }

def create (kadId keyID : UInt128) : ResultPacketSender :=
  startPacket ⟨kadId, keyID, [], 0, 0, []⟩

def flushCurrent (s : ResultPacketSender) : ResultPacketSender :=
  let packet := overwrite s.countPos (writeUInt16 s.unsentCount.toNat) s.packet
  { s with packet, sent := s.sent ++ [packet] }

def flush (s : ResultPacketSender) : ResultPacketSender :=
  if s.unsentCount > 0 then s.flushCurrent else s

end ResultPacketSender

/-- A packet of the results in a group. -/
def resultPacket (kadId keyID : UInt128) (group : List (List UInt8)) : List UInt8 :=
  kadId.bytes++keyID.bytes++writeUInt16 group.length++group.flatten

/-- The sender packs its results. -/
structure Packs (kadId keyID : UInt128) (s : ResultPacketSender)
    (p : Packing (List UInt8)) : Prop where
  kad : s.kadId = kadId
  key : s.keyID = keyID
  packet : s.packet = kadId.bytes ++ keyID.bytes ++ writeUInt16 0 ++ p.current.flatten
  countPos : s.countPos = (kadId.bytes ++ keyID.bytes).length
  unsentCount : s.unsentCount.toNat = p.current.length
  sent : s.sent = p.closed.map (resultPacket kadId keyID)

variable {kadId keyID : UInt128} {s : ResultPacketSender} {p : Packing (List UInt8)}

@[simp] theorem flush_create (kadId keyID : UInt128) :
    (ResultPacketSender.create kadId keyID).flush.sent=[] := rfl

theorem Packs.flushCurrent_sent (h : Packs kadId keyID s p) :
    s.flushCurrent.sent=(p.closed++[p.current]).map (resultPacket kadId keyID) := by
  have hpacket : overwrite s.countPos (writeUInt16 s.unsentCount.toNat) s.packet =
      resultPacket kadId keyID p.current := by
    have hcount : (kadId.bytes++keyID.bytes).length+(writeUInt16 p.current.length).length =
        (kadId.bytes++keyID.bytes++writeUInt16 0).length := by
      simp [Nat.add_assoc]
    have hids : (kadId.bytes++keyID.bytes++writeUInt16 0++p.current.flatten).take
        (kadId.bytes++keyID.bytes).length=kadId.bytes++keyID.bytes := by
      rw [List.append_assoc,List.take_left]
    rw [h.countPos,h.unsentCount,h.packet,overwrite,hcount,List.drop_left,hids,resultPacket]
  rw [ResultPacketSender.flushCurrent,hpacket,h.sent,List.map_append]
  rfl

theorem Packs.startPacket (h : Packs kadId keyID s p) :
    Packs kadId keyID s.flushCurrent.startPacket ⟨p.closed++[p.current],[]⟩ := by
  refine ⟨h.kad,h.key,?_,?_,rfl,h.flushCurrent_sent⟩
  · change s.kadId.bytes++s.keyID.bytes++writeUInt16 0=_
    rw [h.kad,h.key]
    simp
  · change (s.kadId.bytes++s.keyID.bytes).length=_
    rw [h.kad,h.key]

theorem Packs.append (h : Packs kadId keyID s p) (hfew : p.current.length<65535)
    (tmpBuf : List UInt8) :
    Packs kadId keyID { s with packet := s.packet++tmpBuf, unsentCount := s.unsentCount+1 }
      ⟨p.closed,p.current++[tmpBuf]⟩ := by
  refine ⟨h.kad,h.key,?_,h.countPos,?_,h.sent⟩
  · simp [h.packet]
  · have hcount := h.unsentCount
    rw [UInt16.toNat_add,List.length_append,hcount]
    exact Nat.mod_eq_of_lt (Nat.succ_lt_succ hfew)

open Framework Protocol Utils

def TAG_FILEFORMAT : UInt8 := 0x04

/-- The types of a `SearchTerm` that compare a number. -/
inductive CompareOp
  | greaterEqual | lessEqual | greater | less | equal | notEqual
  deriving DecidableEq

/-- As `createSearchExpressionTree` builds them: an operator has both its terms, and a tag is its
lookup key with the value that goes with the type. -/
inductive SearchTerm
  | and (left right : SearchTerm)
  | or (left right : SearchTerm)
  | not (left right : SearchTerm)
  | string (strings : List QString)
  | metaTag (key : List UInt8) (value : QString)
  | compare (op : CompareOp) (key : List UInt8) (value : UInt64)

/-- The Unicode tables behind `kadTagStrToLower` and `Qt::CaseInsensitive`. -/
structure CaseTables where
  lower : QString → QString
  fold : QString → QString

namespace CaseTables

variable (tables : CaseTables)

def contains (text word : QString) : Bool := decide (tables.fold word <:+: tables.fold text)

def same (a b : QString) : Bool := decide (tables.fold a = tables.fold b)

end CaseTables

def int64Value : TagValue → Option UInt64
  | .uint32 v => some v.toUInt64
  | .uint64 v => some v
  | _ => none

def strValue : TagValue → Option QString
  | .string s => some s
  | _ => none

namespace Entry

def getIntTagValue (e : Entry) (tagName : List UInt8) : Option UInt64 :=
  if tagName = [FT_FILESIZE] then some e.size
  else e.tags.findSome? fun tag => if tagNameMatches tag tagName then int64Value tag.value else none

def getStrTagValue (e : Entry) (tagName : List UInt8) : QString :=
  if tagName = [FT_FILENAME] then getCommonFileName e.fileNames
  else (e.tags.findSome? fun tag =>
    if tagNameMatches tag tagName then strValue tag.value else none).getD []

def fileFormat (name : QString) : Option QString :=
  if 0x2E ∈ name then some (name.reverse.takeWhile fun u => decide (u ≠ 0x2E)).reverse else none

end Entry

def CompareOp.holds (entryVal searchVal : UInt64) : CompareOp → Bool
  | greaterEqual => decide (entryVal ≥ searchVal)
  | lessEqual => decide (entryVal ≤ searchVal)
  | greater => decide (entryVal > searchVal)
  | less => decide (entryVal < searchVal)
  | equal => decide (entryVal = searchVal)
  | notEqual => decide (entryVal ≠ searchVal)

def searchTermsMatch (tables : CaseTables) (e : Entry) : SearchTerm → Bool
  | .and left right => searchTermsMatch tables e left && searchTermsMatch tables e right
  | .or left right => searchTermsMatch tables e left || searchTermsMatch tables e right
  | .not left right => searchTermsMatch tables e left && !searchTermsMatch tables e right
  | .string strings => !strings.isEmpty && strings.all fun word =>
      tables.contains (tables.lower (getCommonFileName e.fileNames)) word
  | .metaTag key value =>
    if key = [TAG_FILEFORMAT] then
      match Entry.fileFormat (tables.lower (getCommonFileName e.fileNames)) with
      | none => false
      | some format => tables.same format value
    else tables.same (e.getStrTagValue key) value
  | .compare op key value =>
    match e.getIntTagValue key with
    | none => false
    | some entryVal => op.holds entryVal value

/-- What an answer depends on besides the index: the platform, our own id, and the request. -/
structure KeywordQuery where
  tables : CaseTables
  trunc : Truncation
  kadId : UInt128
  keyID : UInt128
  searchTerms : Option SearchTerm

def KeywordQuery.accepts (q : KeywordQuery) (e : Entry) : Bool :=
  match q.searchTerms with
  | none => true
  | some term => searchTermsMatch q.tables e term

/-- What `time` returns when a pass looks at the trust of the entry in a place, and when the entry
is written. -/
structure Clock where
  look : (onlyTrusted : Bool) → (place : Nat) → UInt32
  sending : (onlyTrusted : Bool) → (place : Nat) → UInt32

/-- A result as it went to the sender, with the place of its entry in the walk. -/
structure Result where
  place : Nat
  bytes : List UInt8

structure Walk where
  count : Int
  results : List Result
  sender : ResultPacketSender

section Passes

variable (q : KeywordQuery) (g : Tracking) (clock : Clock) (onlyTrusted : Bool)

def writeResult (sourceID : UInt128) (trust : ℚ) (e : KeyEntry) : List UInt8 :=
  sourceID.bytes ++ e.writeTagListWithPublishInfo (TrustedEntry.hundredths q.trunc trust)

end Passes

/-- The keyword part of the index, with the trust values its entries remember. -/
structure KeywordIndex where
  dataLoaded : Bool
  keywords : List (Hash TrustedEntry)
  globalPublishIPs : Tracking

open Framework

/-- The entries of a keyword in the order of the walk, each under its source. -/
def entriesOf (sources : List (Source TrustedEntry)) : List (UInt128 × TrustedEntry) :=
  sources.flatMap fun source => source.entryList.map (source.sourceID, ·)

namespace TrustedEntry

/-- What a look at the trust of an entry at a time shows, and what it leaves. -/
def trustAt (now : UInt32) (g : Tracking) (e : TrustedEntry) : ℚ := (e.getTrustValue now g).1

def looked (now : UInt32) (g : Tracking) (e : TrustedEntry) : TrustedEntry :=
  (e.getTrustValue now g).2

def trusted (now : UInt32) (g : Tracking) (e : TrustedEntry) : Bool :=
  decide (1 ≤ e.trustAt now g)

variable {now now' : UInt32} {g : Tracking} {e : TrustedEntry}

def RunOut (now : UInt32) (e : TrustedEntry) : Prop :=
  e.trustValue=0 ∨ now-e.lastTrustValueCalc>600

theorem look_runOut (h : e.RunOut now) :
    e.trustAt now g=trustOf g e.publishers ∧
      (e.looked now g).trustValue=trustOf g e.publishers := by
  have h : e.trustValue=0 ∨ now-e.lastTrustValueCalc>600 := h
  simp [trustAt,looked,getTrustValue,h,recalculateTrustValue]

theorem look_current (h : ¬ e.RunOut now) :
    e.trustAt now g=e.trustValue ∧ e.looked now g=e := by
  have h : ¬ (e.trustValue=0 ∨ now-e.lastTrustValueCalc>600) := h
  simp [trustAt,looked,getTrustValue,h]

@[simp] theorem looked_toKeyEntry (now : UInt32) (g : Tracking) (e : TrustedEntry) :
    (e.looked now g).toKeyEntry=e.toKeyEntry := by
  unfold looked getTrustValue
  split_ifs <;> rfl

@[simp] theorem looked_publishers (now : UInt32) (g : Tracking) (e : TrustedEntry) :
    (e.looked now g).publishers=e.publishers := by
  rw [publishers,looked_toKeyEntry,publishers]

theorem trustAt_eq (now : UInt32) (g : Tracking) (e : TrustedEntry) :
    e.trustAt now g=e.trustValue ∨ e.trustAt now g=trustOf g e.publishers := by
  by_cases h : e.RunOut now
  · exact .inr (look_runOut h).1
  · exact .inl (look_current h).1

/-- Every look in a time shows the entry on the side. -/
def OnSide (times : Set UInt32) (g : Tracking) (side : Bool) (e : TrustedEntry) : Prop :=
  ∀ now∈times, e.trusted now g=side

theorem OnSide.looked {times : Set UInt32} {side : Bool} (h : e.OnSide times g side)
    (hnow : now∈times) : (e.looked now g).OnSide times g side := by
  intro later hlater
  by_cases hold : e.RunOut now
  · have hfresh : (e.looked now g).trustAt later g=trustOf g e.publishers := by
      rcases trustAt_eq later g (e.looked now g) with htrust | htrust
      · rw [htrust,(look_runOut hold).2]
      · rw [htrust,looked_publishers]
    have hside := h now hnow
    rw [trusted,(look_runOut hold).1] at hside
    rw [trusted,hfresh,hside]
  · rw [(look_current hold).2]
    exact h later hlater

end TrustedEntry

/-- What an answer leaves of an entry it may have looked at. -/
structure Looked (times : Set UInt32) (g : Tracking) (p p' : UInt128 × TrustedEntry) : Prop where
  id : p'.1 = p.1
  entry : p'.2.toKeyEntry = p.2.toKeyEntry
  trust : p'.2.trustValue = p.2.trustValue ∨ p'.2.trustValue = trustOf g p.2.publishers
  side : ∀ side, p.2.OnSide times g side → p'.2.OnSide times g side

variable {times : Set UInt32} {g : Tracking} {p p' p'' : UInt128 × TrustedEntry}

theorem Looked.refl (p : UInt128 × TrustedEntry) : Looked times g p p :=
  ⟨rfl,rfl,.inl rfl,fun _ h => h⟩

theorem Looked.trans (h : Looked times g p p') (h' : Looked times g p' p'') :
    Looked times g p p'' := by
  refine ⟨h'.id.trans h.id,h'.entry.trans h.entry,?_,
    fun side hp => h'.side side (h.side side hp)⟩
  have hpublishers : p'.2.publishers=p.2.publishers := by
    rw [TrustedEntry.publishers,h.entry,TrustedEntry.publishers]
  rcases h'.trust with heq | hfresh
  · rw [heq]
    exact h.trust
  · exact .inr (by rw [hfresh,hpublishers])

section Flat

variable (q : KeywordQuery) (g : Tracking) (clock : Clock) (onlyTrusted : Bool)

/-- The places of the entries that a pass accepts. -/
def selected (look : Nat → UInt32) (place : Nat) (ps : List (UInt128 × TrustedEntry)) : List Nat :=
  ((ps.zipIdx place).filter fun p =>
    decide (p.1.2.trusted (look p.2) g = onlyTrusted) && q.accepts p.1.2.toEntry).map Prod.snd

variable {q g clock onlyTrusted} {times : Set UInt32}

end Flat

/-- All looks of the answer fall in the time. -/
def Clock.Within (clock : Clock) (times : Set UInt32) : Prop :=
  ∀ onlyTrusted place,
    clock.look onlyTrusted place ∈ times ∧ clock.sending onlyTrusted place ∈ times

/-- The record of an entry, with the trust it remembers or with a fresh one. -/
def RecordOf (q : KeywordQuery) (g : Tracking) (ps : List (UInt128 × TrustedEntry))
    (place : Nat) (r : Result) : Prop :=
  ∃ i p trust, ps[i]? = some p ∧ r.place=place+i ∧
    (trust=p.2.trustValue ∨ trust=trustOf g p.2.publishers) ∧
    r.bytes=writeResult q p.1 trust p.2.toKeyEntry

section Spec

variable {q : KeywordQuery} {g : Tracking} {clock : Clock} {onlyTrusted : Bool} {place : Nat}
  {p : UInt128 × TrustedEntry} {ps : List (UInt128 × TrustedEntry)} {w : Walk}

theorem RecordOf.cons {r : Result} (h : RecordOf q g ps (place+1) r) :
    RecordOf q g (p::ps) place r := by
  obtain ⟨i,p',trust,hget,hplace,htrust,hbytes⟩ := h
  exact ⟨i+1,p',trust,by simpa using hget,by omega,htrust,hbytes⟩

end Spec

end EmuleQt.Kademlia
