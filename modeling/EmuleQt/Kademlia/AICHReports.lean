import EmuleQt.Framework.Run
import EmuleQt.Kademlia.PublishRequest
import Mathlib.Data.List.Nodup

namespace EmuleQt.Kademlia

open Crypto Net Utils

/-- Which hashes somebody still reports. -/
def popularFlags : List (List UInt8) → List UInt8 → List Bool
  | [], _ => []
  | _ :: hashes, [] => false::popularFlags hashes []
  | _ :: hashes, n::popularity => decide (n>0)::popularFlags hashes popularity

/-- `newIndex`: the indices of the reported hashes close up. -/
def renumber (next : Nat) : List Bool → List UInt16
  | [] => []
  | popular :: flags =>
    if popular then UInt16.ofNat next :: renumber (next + 1) flags
    else kNoAICHHash :: renumber next flags

/-- `QByteArray::resize(20, '\\0')` -/
def resizeHash (hash : List UInt8) : List UInt8 :=
  (hash++List.replicate kAICHHashSize 0).take kAICHHashSize

/-- The hashes that go into the file. -/
def writtenHashes : List (List UInt8) → List UInt16 → List (List UInt8)
  | hash::hashes, idx::newIndex =>
    if idx≠kNoAICHHash then resizeHash hash::writtenHashes hashes newIndex
    else writtenHashes hashes newIndex
  | _, _ => []

def writeFileName (name : FileNameEntry) : List UInt8 :=
  writeStringUTF8 name.fileName++writeUInt32 name.popularityIndex.toNat

def writePublisher (newIndex : List UInt16) (p : PublishingIP) : List UInt8 :=
  writeUInt32 p.ip.toUint32.toNat++(writeUInt32 p.lastPublish ++
    writeUInt16 (newIndex[p.aichHashIdx.toNat]?.getD kNoAICHHash).toNat)

/-- `writePublishTrackingDataToFile` -/
def writePublishTrackingData (e : KeyEntry) : List UInt8 :=
  let flags := popularFlags e.aichHashes e.aichHashPopularity
  let newIndex := renumber 0 flags
  let ips := e.publishingIPs.getD []
  writeUInt16 (flags.count true)++((writtenHashes e.aichHashes newIndex).flatten ++
    (writeUInt32 e.fileNames.length++(e.fileNames.flatMap writeFileName ++
      (writeUInt32 ips.length++ips.flatMap (writePublisher newIndex)))))

def readHashes : (count : Nat) → Reader (List (List UInt8))
  | 0 => pure []
  | count+1 => do
    let hash ← Reader.read kAICHHashSize
    let hashes ← readHashes count
    pure (hash::hashes)

/-- Only the most popular names are kept. -/
def readFileNames : (count : Nat) → List FileNameEntry → Reader (List FileNameEntry)
  | 0, names => pure names
  | count+1, names => do
    let fileName ← readStringUTF8
    let popularityIndex ← Reader.readUInt32
    readFileNames count
      (addFileNameCapped names ⟨fileName,UInt32.ofNat popularityIndex⟩ false)

/-- A publisher of the file counts for its hash; a corrupt index is none. -/
def countIndex (aich : AICHHashes) (idx : UInt16) : UInt16 × AICHHashes :=
  if idx=kNoAICHHash then (idx, aich)
  else if idx.toNat≥aich.aichHashes.length then (kNoAICHHash, aich)
  else (idx, { aich with
    aichHashPopularity := aich.aichHashPopularity.modify idx.toNat fun n =>
      if n<255 then n+1 else n })

/-- Old files have no index. -/
def readIndex (includesAICH : Bool) (aich : AICHHashes) : Reader (UInt16 × AICHHashes) :=
  if includesAICH then do
    let idx ← Reader.readUInt16
    pure (countIndex aich (UInt16.ofNat idx))
  else pure (kNoAICHHash, aich)

def readPublishers (includesAICH : Bool) :
    (count : Nat) → AICHHashes → Reader (List PublishingIP × AICHHashes)
  | 0, aich => pure ([], aich)
  | count+1, aich => do
    let ip ← Reader.readUInt32
    let lastPublish ← Reader.readUInt32
    let (idx, aich) ← readIndex includesAICH aich
    let (ips, aich) ← readPublishers includesAICH count aich
    pure (⟨lastPublish,Address.fromHostOrder (UInt32.ofNat ip),idx⟩ :: ips, aich)

def readHashList (includesAICH : Bool) : Reader (List (List UInt8)) :=
  if includesAICH then do
    let count ← Reader.readUInt16
    readHashes count
  else pure []

/-- `readPublishTrackingDataFromFile` for a new entry, less the counting of its publishers. -/
def readPublishTrackingData (includesAICH : Bool) :
    Reader (AICHHashes × List FileNameEntry × List PublishingIP) := do
  let hashes ← readHashList includesAICH
  let nameCount ← Reader.readUInt32
  let names ← readFileNames nameCount []
  let ipCount ← Reader.readUInt32
  let (ips, aich) ← readPublishers includesAICH ipCount ⟨hashes,hashes.map fun _ => 0⟩
  pure (aich, names, ips)

section WrittenHashes

theorem popularFlags_length (hashes : List (List UInt8)) (popularity : List UInt8) :
    (popularFlags hashes popularity).length=hashes.length := by
  induction hashes generalizing popularity with
  | nil => rfl
  | cons hash hashes ih => cases popularity <;> simp [popularFlags,ih]

theorem popularFlags_get {hashes : List (List UInt8)} {popularity : List UInt8} {i : Nat}
    {n : UInt8} (hi : i<hashes.length) (hn : popularity[i]? = some n) :
    (popularFlags hashes popularity)[i]? = some (decide (n>0)) := by
  induction hashes generalizing popularity i with
  | nil => simp at hi
  | cons hash hashes ih =>
    cases popularity with
    | nil => simp at hn
    | cons m popularity =>
      cases i with
      | zero => simpa [popularFlags] using congrArg (Option.map fun n => decide (n>0)) hn
      | succ i =>
        exact ih (by simpa using hi) (by simpa using hn)

variable {next : Nat} {flags : List Bool} {hashes : List (List UInt8)}

theorem ofNat_ne_none {n : Nat} (h : n<0xFFFF) : UInt16.ofNat n≠kNoAICHHash := by
  intro heq
  have hvalue := congrArg UInt16.toNat heq
  rw [UInt16.toNat_ofNat_of_lt' (h.trans (by decide))] at hvalue
  have hnone : kNoAICHHash.toNat=0xFFFF := rfl
  omega

theorem writtenHashes_length (hlen : hashes.length=flags.length)
    (hnext : next+flags.count true≤0xFFFF) :
    (writtenHashes hashes (renumber next flags)).length=flags.count true := by
  induction flags generalizing hashes next with
  | nil =>
    rw [List.length_nil,List.length_eq_zero_iff] at hlen
    simp [hlen,writtenHashes]
  | cons popular flags ih =>
    cases hashes with
    | nil => simp at hlen
    | cons hash hashes =>
      have hlen' : hashes.length=flags.length := by simpa using hlen
      cases popular with
      | true =>
        rw [List.count_cons_self] at hnext ⊢
        rw [renumber,if_pos rfl,writtenHashes,if_pos (ofNat_ne_none (by omega)),
          List.length_cons,ih hlen' (by omega)]
      | false =>
        rw [List.count_cons_of_ne (by decide)] at hnext ⊢
        rw [renumber,if_neg (by decide),writtenHashes,if_neg (by simp),ih hlen' hnext]

theorem writtenHashes_get (hlen : hashes.length=flags.length)
    (hnext : next+flags.count true≤0xFFFF) {i : Nat} {hash : List UInt8}
    (hflag : flags[i]? = some true) (hhash : hashes[i]? = some hash) :
    ∃ j, (renumber next flags)[i]? = some (UInt16.ofNat (next+j)) ∧ j<flags.count true ∧
      (writtenHashes hashes (renumber next flags))[j]? = some (resizeHash hash) := by
  induction flags generalizing hashes next i with
  | nil => simp at hflag
  | cons popular flags ih =>
    cases hashes with
    | nil => simp at hlen
    | cons first hashes =>
      have hlen' : hashes.length=flags.length := by simpa using hlen
      cases popular with
      | true =>
        rw [List.count_cons_self] at hnext ⊢
        rw [renumber,if_pos rfl,writtenHashes,if_pos (ofNat_ne_none (by omega))]
        cases i with
        | zero =>
          obtain rfl : first=hash := by simpa using hhash
          exact ⟨0,by simp,by omega,by simp⟩
        | succ i =>
          have hnext' : next+1+flags.count true≤0xFFFF := by omega
          obtain ⟨j,hidx,hj,hget⟩ := ih hlen' hnext' (by simpa using hflag)
            (by simpa using hhash)
          refine ⟨j+1,?_,by omega,by simpa using hget⟩
          rw [List.getElem?_cons_succ,hidx,Nat.add_assoc,Nat.add_comm 1 j]
      | false =>
        rw [renumber,if_neg (by decide),writtenHashes,if_neg (by simp)]
        cases i with
        | zero => simp at hflag
        | succ i =>
          obtain ⟨j,hidx,hj,hget⟩ := ih hlen' hnext (by simpa using hflag)
            (by simpa using hhash)
          exact ⟨j,by rw [List.getElem?_cons_succ,hidx],hj,hget⟩

end WrittenHashes

/-- The name as it comes back. -/
def restoreFileName (n : FileNameEntry) : FileNameEntry :=
  ⟨QString.fromUtf8 (QString.toUtf8 n.fileName),n.popularityIndex⟩

/-- The names as they come back. -/
def restoreFileNames (names kept : List FileNameEntry) : List FileNameEntry :=
  names.foldl (fun kept n => addFileNameCapped kept (restoreFileName n) false) kept

/-- The publishers as they come back, counted into the hashes. -/
def restorePublishers (newIndex : List UInt16) :
    List PublishingIP → AICHHashes → List PublishingIP × AICHHashes
  | [], aich => ([], aich)
  | p::ips, aich =>
    let (idx, aich) := countIndex aich (newIndex[p.aichHashIdx.toNat]?.getD kNoAICHHash)
    let (ips, aich) := restorePublishers newIndex ips aich
    (⟨p.lastPublish%2^32,Address.fromHostOrder p.ip.toUint32,idx⟩ :: ips, aich)

/-- Nothing in the tracking block is longer than its length field can tell. -/
def Fits (e : KeyEntry) : Prop :=
  (popularFlags e.aichHashes e.aichHashPopularity).count true ≤ 0xFFFF ∧
  (∀ n ∈ e.fileNames, (QString.toUtf8 n.fileName).length < 2 ^ 16) ∧
  e.fileNames.length < 2 ^ 32 ∧ (e.publishingIPs.getD []).length < 2 ^ 32

section Read

theorem readHashes_append {hashes : List (List UInt8)}
    (hsize : ∀ hash∈hashes,hash.length=kAICHHashSize) (rest : List UInt8) :
    readHashes hashes.length (hashes.flatten++rest) = .ok (hashes, rest) := by
  induction hashes with
  | nil => rfl
  | cons hash hashes ih =>
    obtain ⟨hhash,hrest⟩ := List.forall_mem_cons.mp hsize
    rw [List.length_cons,readHashes,List.flatten_cons,List.append_assoc,
      Reader.bind_ok (Reader.read_append hhash _),Reader.bind_ok (ih hrest)]
    rfl

theorem readFileNames_append {names kept : List FileNameEntry}
    (hfits : ∀ n∈names,(QString.toUtf8 n.fileName).length<2^16) (rest : List UInt8) :
    readFileNames names.length kept (names.flatMap writeFileName++rest) =
      .ok (restoreFileNames names kept, rest) := by
  induction names generalizing kept with
  | nil => rfl
  | cons n names ih =>
    obtain ⟨hn,hrest⟩ := List.forall_mem_cons.mp hfits
    have hread := readStringUTF8_write n.fileName
      (writeUInt32 n.popularityIndex.toNat++(names.flatMap writeFileName++rest))
    dsimp only at hread
    rw [Nat.mod_eq_of_lt hn,List.take_length,List.drop_length,List.nil_append] at hread
    have hpopularity := readUInt32_write n.popularityIndex.toNat_lt
      (names.flatMap writeFileName++rest)
    rw [List.length_cons,readFileNames,List.flatMap_cons,writeFileName,List.append_assoc,
      List.append_assoc,Reader.bind_ok hread,Reader.bind_ok hpopularity,ih hrest,
      UInt32.ofNat_toNat]
    rfl

theorem readPublishers_append (newIndex : List UInt16) {ips : List PublishingIP}
    (aich : AICHHashes) (rest : List UInt8) :
    readPublishers true ips.length aich (ips.flatMap (writePublisher newIndex)++rest) =
      .ok (restorePublishers newIndex ips aich, rest) := by
  induction ips generalizing aich with
  | nil => rfl
  | cons p ips ih =>
    have hip := readUInt32_write p.ip.toUint32.toNat_lt (writeUInt32 p.lastPublish ++
      (writeUInt16 (newIndex[p.aichHashIdx.toNat]?.getD kNoAICHHash).toNat ++
        (ips.flatMap (writePublisher newIndex)++rest)))
    have hlast : Reader.readUInt32 (writeUInt32 p.lastPublish ++
        (writeUInt16 (newIndex[p.aichHashIdx.toNat]?.getD kNoAICHHash).toNat ++
          (ips.flatMap (writePublisher newIndex)++rest))) = .ok (p.lastPublish%2^32, _) :=
      Reader.readUInt_leBytes_mod 4 _ _
    have hidx : readIndex true aich
        (writeUInt16 (newIndex[p.aichHashIdx.toNat]?.getD kNoAICHHash).toNat ++
          (ips.flatMap (writePublisher newIndex)++rest)) =
        .ok (countIndex aich (newIndex[p.aichHashIdx.toNat]?.getD kNoAICHHash),
          ips.flatMap (writePublisher newIndex)++rest) := by
      rw [readIndex,if_pos rfl,Reader.bind_ok (readUInt16_write (UInt16.toNat_lt _) _),
        UInt16.ofNat_toNat]
      rfl
    rw [List.length_cons,readPublishers,List.flatMap_cons,writePublisher,List.append_assoc,
      List.append_assoc,List.append_assoc,Reader.bind_ok hip,Reader.bind_ok hlast,
      Reader.bind_ok hidx]
    dsimp only
    rw [Reader.bind_ok (ih _),UInt32.ofNat_toNat]
    rfl

theorem readPublishTrackingData_write {e : KeyEntry} (h : Fits e) (rest : List UInt8) :
    let newIndex := renumber 0 (popularFlags e.aichHashes e.aichHashPopularity)
    let hashes := writtenHashes e.aichHashes newIndex
    let restored := restorePublishers newIndex (e.publishingIPs.getD [])
      ⟨hashes,hashes.map fun _ => 0⟩
    readPublishTrackingData true (writePublishTrackingData e++rest) =
      .ok ((restored.2, restoreFileNames e.fileNames [], restored.1), rest) := by
  obtain ⟨hcount,hnames,hnameCount,hipCount⟩ := h
  have hlen := (popularFlags_length e.aichHashes e.aichHashPopularity).symm
  unfold readPublishTrackingData writePublishTrackingData
  generalize hflags : popularFlags e.aichHashes e.aichHashPopularity=flags at hcount hlen ⊢
  have hwritten := @writtenHashes_length 0 flags e.aichHashes hlen (by omega)
  have hsize : ∀ hash∈writtenHashes e.aichHashes (renumber 0 flags),
      hash.length=kAICHHashSize := by
    generalize renumber 0 flags=newIndex
    generalize e.aichHashes=hashes
    intro hash hmem
    induction hashes generalizing newIndex with
    | nil => simp [writtenHashes] at hmem
    | cons first hashes ih =>
      cases newIndex with
      | nil => simp [writtenHashes] at hmem
      | cons idx newIndex =>
        rw [writtenHashes] at hmem
        split_ifs at hmem
        · rcases List.mem_cons.mp hmem with rfl | hmem
          · simp [resizeHash]
          · exact ih newIndex hmem
        · exact ih newIndex hmem
  have hhashes : ∀ tail,readHashList true (writeUInt16 (flags.count true) ++
      ((writtenHashes e.aichHashes (renumber 0 flags)).flatten++tail)) =
      .ok (writtenHashes e.aichHashes (renumber 0 flags), tail) := by
    intro tail
    have hread := readHashes_append hsize tail
    rw [hwritten] at hread
    rw [readHashList,if_pos rfl,Reader.bind_ok (readUInt16_write (by omega) _),hread]
  have hpublishers := @readPublishers_append (renumber 0 flags) (e.publishingIPs.getD [])
    ⟨writtenHashes e.aichHashes (renumber 0 flags),
      (writtenHashes e.aichHashes (renumber 0 flags)).map fun _ => 0⟩ rest
  simp only [List.append_assoc]
  rw [Reader.bind_ok (hhashes _),Reader.bind_ok (readUInt32_write hnameCount _),
    Reader.bind_ok (readFileNames_append hnames _),Reader.bind_ok (readUInt32_write hipCount _),
    Reader.bind_ok hpublishers]
  rfl

end Read

open Crypto Framework Net Protocol Utils

/-- How many publishers point at a slot. -/
def pointing (idxs : List UInt16) (i : Nat) : Nat := idxs.countP fun idx => decide (idx.toNat = i)

/-- The hashes are in step with the indices of their publishers. -/
structure Refs (a : AICHHashes) (idxs : List UInt16) : Prop where
  nodup : a.aichHashes.Nodup
  size : ∀ hash ∈ a.aichHashes, hash.length = kAICHHashSize
  room : a.aichHashes.length ≤ 0xFFFF
  lengths : a.aichHashPopularity.length = a.aichHashes.length
  valid : ∀ idx ∈ idxs, idx = kNoAICHHash ∨ idx.toNat < a.aichHashes.length
  counts : ∀ i < a.aichHashes.length,
    a.aichHashPopularity[i]?.map UInt8.toNat = some (pointing idxs i)

/-- The index stands for what the publisher reported. -/
def Reports (a : AICHHashes) (idx : UInt16) : Option AICHHash → Prop
  | none => idx = kNoAICHHash
  | some hash => idx ≠ kNoAICHHash ∧ a.aichHashes[idx.toNat]? = some hash.bytes

/-- No slot changes what it stands for. -/
def Extends (a b : AICHHashes) : Prop := a.aichHashes <+: b.aichHashes

theorem Extends.of_eq {a b : AICHHashes} (h : b.aichHashes=a.aichHashes) : Extends a b :=
  ⟨[],by rw [h,List.append_nil]⟩

theorem Reports.extends {a b : AICHHashes} {idx : UInt16} {reported : Option AICHHash}
    (h : Reports a idx reported) (hext : Extends a b) : Reports b idx reported := by
  cases reported with
  | none => exact h
  | some hash =>
    obtain ⟨tail,htail⟩ := hext
    refine ⟨h.1,?_⟩
    rw [← htail,List.getElem?_append_left (List.getElem?_eq_some_iff.mp h.2).1]
    exact h.2

section Refs

variable {a : AICHHashes} {idx : UInt16} {idxs idxs' : List UInt16} {hash : List UInt8}

theorem Refs.perm (h : Refs a idxs) (hperm : idxs.Perm idxs') : Refs a idxs' :=
  ⟨h.nodup,h.size,h.room,h.lengths,fun idx hidx => h.valid idx (hperm.mem_iff.mpr hidx),
    fun i hi => by rw [h.counts i hi,pointing,pointing,hperm.countP_eq]⟩

theorem pointing_cons (i : Nat) :
    pointing (idx::idxs) i=pointing idxs i+if idx.toNat=i then 1 else 0 := by
  unfold pointing
  rw [List.countP_cons]
  simp

theorem pointing_le (i : Nat) : pointing idxs i ≤ idxs.length := List.countP_le_length

theorem none_toNat_ne (h : Refs a idxs) {i : Nat} (hi : i<a.aichHashes.length) :
    kNoAICHHash.toNat≠i := by
  have hroom := h.room
  have hnone : kNoAICHHash.toNat=0xFFFF := rfl
  omega

theorem Refs.tail_none (h : Refs a (kNoAICHHash::idxs)) : Refs a idxs := by
  refine ⟨h.nodup,h.size,h.room,h.lengths,fun idx hidx => h.valid idx (List.mem_cons_of_mem _ hidx),
    fun i hi => ?_⟩
  rw [h.counts i hi,pointing_cons,if_neg (none_toNat_ne h hi),Nat.add_zero]

theorem Refs.cons_none (h : Refs a idxs) : Refs a (kNoAICHHash::idxs) := by
  refine ⟨h.nodup,h.size,h.room,h.lengths,
    List.forall_mem_cons.mpr ⟨Or.inl rfl,h.valid⟩,fun i hi => ?_⟩
  rw [h.counts i hi,pointing_cons,if_neg (none_toNat_ne h hi),Nat.add_zero]

theorem Refs.modify (h : Refs a idxs) {f : UInt8 → UInt8} {i : Nat}
    (hvalid : ∀ idx∈idxs',idx=kNoAICHHash ∨ idx.toNat<a.aichHashes.length)
    (hself : ∀ n : UInt8, n.toNat=pointing idxs i → (f n).toNat=pointing idxs' i)
    (hother : ∀ j,j≠i → pointing idxs' j=pointing idxs j) :
    Refs { a with aichHashPopularity := a.aichHashPopularity.modify i f } idxs' := by
  refine ⟨h.nodup,h.size,h.room,by rw [List.length_modify]; exact h.lengths,hvalid,
    fun j hj => ?_⟩
  have hcount := h.counts j hj
  rw [List.getElem?_modify]
  by_cases hij : i=j
  · subst hij
    obtain ⟨n,hn,hvalue⟩ := Option.map_eq_some_iff.mp hcount
    rw [hn]
    simpa using hself n hvalue
  · rw [hother j (Ne.symm hij),← hcount]
    simp [hij]

theorem idxOf?_get {i : Nat} (hfound : a.aichHashes.idxOf? hash=some i) :
    a.aichHashes[i]? = some hash := by
  obtain ⟨hi,heq,-⟩ := List.idxOf?_eq_some_iff.mp hfound
  rw [List.getElem?_eq_getElem hi,heq]

theorem get_idxOf? (h : Refs a idxs) {i : Nat} (hget : a.aichHashes[i]? = some hash) :
    a.aichHashes.idxOf? hash=some i := by
  obtain ⟨hi,heq⟩ := List.getElem?_eq_some_iff.mp hget
  refine List.idxOf?_eq_some_iff.mpr ⟨hi,heq,fun j hj heq' => ?_⟩
  have hsame := (List.Nodup.getElem_inj_iff h.nodup).mp (heq'.trans heq.symm)
  omega

theorem Refs.release (h : Refs a (idx::idxs)) :
    Refs (a.release idx) idxs ∧ (a.release idx).aichHashes=a.aichHashes := by
  unfold AICHHashes.release
  split_ifs with hnone
  · subst hnone
    exact ⟨h.tail_none,rfl⟩
  · obtain hidx := (h.valid idx List.mem_cons_self).resolve_left hnone
    have hget := List.getElem?_eq_getElem hidx
    rw [hget]
    unfold AICHHashes.addRemoveAICHHash
    dsimp only
    rw [get_idxOf? h hget]
    refine ⟨h.modify (fun i hi => h.valid i (List.mem_cons_of_mem idx hi)) (fun n hn => ?_)
      (fun j hj => ?_),rfl⟩
    · rw [pointing_cons,if_pos rfl] at hn
      have hpos : n>0 := by
        rw [gt_iff_lt,UInt8.lt_iff_toNat_lt]
        exact hn ▸ Nat.succ_pos _
      rw [if_neg Bool.false_ne_true,if_pos hpos,UInt8.toNat_sub_of_le n 1 (by
        rw [UInt8.le_iff_toNat_le]; exact hpos)]
      exact hn ▸ rfl
    · rw [pointing_cons,if_neg (Ne.symm hj),Nat.add_zero]

theorem toNat_add_one {n : UInt8} (h : n.toNat<255) :
    (if n<255 then n+1 else n).toNat=n.toNat+1 := by
  have hlt : n<255 := UInt8.lt_iff_toNat_lt.mpr h
  rw [if_pos hlt,UInt8.toNat_add]
  have hone : (1 : UInt8).toNat=1 := rfl
  omega

/-- A publisher that reports a hash the table has, or has room for, points at its slot. -/
theorem Refs.acquire (h : Refs a idxs) (hsize : hash.length=kAICHHashSize)
    (hroom : hash∈a.aichHashes ∨ a.aichHashes.length<0xFFFF) (hfew : idxs.length<255) :
    let r := a.addRemoveAICHHash hash true
    Refs r.2 (r.1::idxs) ∧ r.1≠kNoAICHHash ∧ r.2.aichHashes[r.1.toNat]? = some hash ∧
      Extends a r.2 := by
  unfold AICHHashes.addRemoveAICHHash
  cases hfound : a.aichHashes.idxOf? hash with
  | some i =>
    have hget := idxOf?_get hfound
    have hi : i<a.aichHashes.length := (List.getElem?_eq_some_iff.mp hget).1
    have hroom' := h.room
    have hvalue : (UInt16.ofNat i).toNat=i := UInt16.toNat_ofNat_of_lt' (by
      have hsize16 : UInt16.size=65536 := rfl
      omega)
    dsimp only
    refine ⟨h.modify (List.forall_mem_cons.mpr ⟨Or.inr (by rw [hvalue]; exact hi),h.valid⟩)
      (fun n hn => ?_) (fun j hj => ?_),ofNat_ne_none (by omega),by rw [hvalue]; exact hget,
      List.prefix_refl _⟩
    · have hle := @pointing_le idxs i
      rw [if_pos rfl,toNat_add_one (by omega),pointing_cons,hvalue,if_pos rfl,hn]
    · rw [pointing_cons,hvalue,if_neg (Ne.symm hj),Nat.add_zero]
  | none =>
    have hnew : hash∉a.aichHashes := List.idxOf?_eq_none_iff.mp hfound
    have hlt := hroom.resolve_left hnew
    have hvalue : (UInt16.ofNat a.aichHashes.length).toNat=a.aichHashes.length :=
      UInt16.toNat_ofNat_of_lt' (by
        have hsize16 : UInt16.size=65536 := rfl
        omega)
    have hlengths := h.lengths
    dsimp only
    rw [if_neg (by decide)]
    refine ⟨⟨?_,?_,?_,?_,?_,fun i hi => ?_⟩,ofNat_ne_none hlt,?_,List.prefix_append _ _⟩
    · exact List.nodup_append.mpr ⟨h.nodup,List.nodup_singleton _,
        fun x hx y hy hxy => hnew (by rw [List.mem_singleton.mp hy] at hxy; exact hxy ▸ hx)⟩
    · intro x hx
      rcases List.mem_append.mp hx with hx | hx
      · exact h.size x hx
      · rw [List.mem_singleton.mp hx]
        exact hsize
    · rw [List.length_append,List.length_singleton]
      omega
    · simpa using hlengths
    · refine List.forall_mem_cons.mpr ⟨Or.inr (by simp [hvalue]),fun idx hidx => ?_⟩
      refine (h.valid idx hidx).imp_right fun hidx => ?_
      rw [List.length_append]
      omega
    · rw [List.length_append,List.length_singleton] at hi
      rw [pointing_cons,hvalue]
      by_cases hlast : i=a.aichHashes.length
      · have hzero : pointing idxs i=0 := by
          refine List.countP_eq_zero.mpr fun idx hidx => ?_
          have hne : idx.toNat≠i := by
            rcases h.valid idx hidx with rfl | hlow
            · have hnone : kNoAICHHash.toNat=0xFFFF := rfl
              omega
            · omega
          simpa using hne
        rw [if_pos hlast.symm,hzero,hlast,← hlengths,List.getElem?_append_right (Nat.le_refl _)]
        simp
      · have hold := h.counts i (by omega)
        rw [if_neg (Ne.symm hlast),Nat.add_zero,← hold,
          List.getElem?_append_left (by omega)]
    · rw [hvalue,List.getElem?_append_right (Nat.le_refl _)]
      simp

theorem bytes_ne_nil (hash : AICHHash) : hash.bytes≠[] := by
  intro hnil
  have hsize := hash.size
  rw [hnil] at hsize
  exact absurd hsize (by decide)

theorem Refs.join (h : Refs a idxs) (reported : Option AICHHash)
    (hroom : ∀ hash,reported=some hash →
      hash.bytes∈a.aichHashes ∨ a.aichHashes.length<0xFFFF) (hfew : idxs.length<255) :
    let newHash := (reported.map (·.bytes)).getD []
    let r := if newHash=[] then (kNoAICHHash, a) else a.addRemoveAICHHash newHash true
    Refs r.2 (r.1::idxs) ∧ Reports r.2 r.1 reported ∧ Extends a r.2 := by
  cases reported with
  | none => exact ⟨h.cons_none,rfl,List.prefix_refl _⟩
  | some hash =>
    dsimp only [Option.map_some,Option.getD_some]
    rw [if_neg (bytes_ne_nil hash)]
    obtain ⟨hrefs,hne,hget,hext⟩ := h.acquire hash.size (hroom hash rfl) hfew
    exact ⟨hrefs,⟨hne,hget⟩,hext⟩

theorem Refs.report (h : Refs a (idx::idxs)) (reported : Option AICHHash)
    (hroom : ∀ hash,reported=some hash →
      hash.bytes∈a.aichHashes ∨ a.aichHashes.length<0xFFFF) (hfew : idxs.length<255) :
    let r := a.report idx ((reported.map (·.bytes)).getD [])
    Refs r.2 (r.1::idxs) ∧ Reports r.2 r.1 reported ∧ Extends a r.2 := by
  obtain ⟨hreleased,hsame⟩ := h.release
  unfold AICHHashes.report
  cases reported with
  | none =>
    rw [if_neg (by simp)]
    split_ifs with hnone
    · exact ⟨h,hnone,List.prefix_refl _⟩
    · have hidx := (h.valid idx List.mem_cons_self).resolve_left hnone
      unfold AICHHashes.release at hreleased hsame
      rw [if_neg hnone,List.getElem?_eq_getElem hidx] at hreleased hsame
      rw [List.getElem?_eq_getElem hidx]
      exact ⟨hreleased.cons_none,rfl,Extends.of_eq hsame⟩
  | some hash =>
    dsimp only [Option.map_some,Option.getD_some]
    rw [if_pos (bytes_ne_nil hash)]
    split_ifs with hnone
    · subst hnone
      obtain ⟨hrefs,hne,hget,hext⟩ := h.tail_none.acquire hash.size (hroom hash rfl) hfew
      exact ⟨hrefs,⟨hne,hget⟩,hext⟩
    · have hidx := (h.valid idx List.mem_cons_self).resolve_left hnone
      have hget := List.getElem?_eq_getElem hidx
      rw [hget]
      dsimp only
      split_ifs with hdiffers
      · unfold AICHHashes.release at hreleased hsame
        rw [if_neg hnone,hget] at hreleased hsame
        dsimp only at hreleased hsame
        obtain ⟨hrefs,hne,hget',hext⟩ := hreleased.acquire hash.size
          (by rw [hsame]; exact hroom hash rfl) hfew
        refine ⟨hrefs,⟨hne,hget'⟩,?_⟩
        unfold Extends at hext ⊢
        rwa [hsame] at hext
      · rw [not_not.mp hdiffers] at hget
        exact ⟨h,⟨hnone,hget⟩,List.prefix_refl _⟩

end Refs

section FileNames

variable {names : List FileNameEntry}

theorem leastPopular_mem (h : names≠[]) :
    ∃ least∈names, leastPopular names=some least := by
  have hfold : ∀ (xs : List FileNameEntry) (least : FileNameEntry),
      ∃ l∈least::xs, leastPopular (least::xs)=some l := by
    intro xs
    induction xs with
    | nil => exact fun least => ⟨least,List.mem_cons_self,rfl⟩
    | cons x xs ih =>
      intro least
      rw [leastPopular,List.foldl_cons,List.foldl_cons]
      dsimp only
      split_ifs
      · obtain ⟨l,hl,heq⟩ := ih x
        exact ⟨l,List.mem_cons_of_mem _ hl,heq⟩
      · obtain ⟨l,hl,heq⟩ := ih least
        refine ⟨l,?_,heq⟩
        rcases List.mem_cons.mp hl with rfl | hl
        · exact List.mem_cons_self
        · exact List.mem_cons_of_mem _ (List.mem_cons_of_mem _ hl)
  cases names with
  | nil => exact absurd rfl h
  | cons name names => exact hfold names name

theorem addFileNameFrom_length {name : FileNameEntry} {force : Bool} {rounds : Nat}
    (h : names.length≤KADEMLIAMAXFILENAMESPERKEY+rounds-1) (hle : rounds≤1)
    (hfew : names.length≤KADEMLIAMAXFILENAMESPERKEY) :
    (addFileNameFrom name force rounds names).length≤KADEMLIAMAXFILENAMESPERKEY := by
  have hmax : KADEMLIAMAXFILENAMESPERKEY=32 := rfl
  cases rounds with
  | zero =>
    rw [addFileNameFrom,List.length_append,List.length_singleton]
    omega
  | succ rounds =>
    obtain rfl : rounds=0 := by omega
    by_cases hempty : names=[]
    · subst hempty
      simp [addFileNameFrom,leastPopular,hmax]
    · obtain ⟨least,hmem,hleast⟩ := leastPopular_mem hempty
      rw [addFileNameFrom,hleast]
      dsimp only
      split_ifs
      · exact hfew
      · have herase := List.length_eraseP_of_mem (p := fun n : FileNameEntry =>
          decide (n.popularityIndex=least.popularityIndex)) hmem (by simp)
        rw [addFileNameFrom,List.length_append,List.length_singleton,eraseLeast,herase]
        omega

theorem addFileNameCapped_length {name : FileNameEntry} {force : Bool}
    (h : names.length≤KADEMLIAMAXFILENAMESPERKEY) :
    (addFileNameCapped names name force).length≤KADEMLIAMAXFILENAMESPERKEY := by
  exact addFileNameFrom_length (by omega) (by omega) h

theorem mergeFileNames_length (lower : QString → QString) (fastRefresh : Bool)
    (new : List FileNameEntry) {old : List FileNameEntry}
    (h : old.length≤KADEMLIAMAXFILENAMESPERKEY) :
    (mergeFileNames lower fastRefresh new old).length≤KADEMLIAMAXFILENAMESPERKEY := by
  have hmap : ∀ f : FileNameEntry → FileNameEntry,
      (old.map f).length≤KADEMLIAMAXFILENAMESPERKEY := by
    intro f
    rw [List.length_map]
    exact h
  unfold mergeFileNames
  dsimp only
  generalize (!old.any _ && _)=missing
  cases missing with
  | true =>
    rw [if_pos rfl]
    exact addFileNameCapped_length (hmap _)
  | false =>
    exact hmap _

end FileNames

/-- The table of a fresh entry. -/
def freshHashes : Option AICHHash → AICHHashes
  | none => ⟨[],[]⟩
  | some hash => ⟨[hash.bytes],[1]⟩

section Published

variable (lower : QString → QString)

theorem addTag_fileNames (e : Entry) (tag : Tag) : (e.addTag tag).2.fileNames=e.fileNames ∧
    (e.addTag tag).2.address=e.address := by
  unfold Entry.addTag
  dsimp only
  split_ifs <;> exact ⟨rfl,rfl⟩

theorem offerSize_fileNames (e : Entry) (tag : Tag) :
    (e.offerSize tag).fileNames=e.fileNames ∧ (e.offerSize tag).address=e.address := by
  unfold Entry.offerSize
  split_ifs <;> exact ⟨rfl,rfl⟩

/-- No name, or the one that came with the publish. -/
def OneName (names : List FileNameEntry) : Prop :=
  names=[] ∨ ∃ name, name≠[] ∧ names=[⟨name,1⟩]

theorem offerFileName_fileNames {e : Entry} (name : QString) (h : OneName e.fileNames) :
    OneName (e.offerFileName lower name).fileNames ∧
      (e.offerFileName lower name).address=e.address := by
  unfold Entry.offerFileName
  split_ifs with hempty
  · refine ⟨?_,rfl⟩
    rcases h with h | ⟨first,hfirst,h⟩
    · rw [h,setFileName,List.any_nil,if_neg Bool.false_ne_true]
      split_ifs with hname
      · exact Or.inl rfl
      · exact Or.inr ⟨name,hname,rfl⟩
    · rw [h] at hempty
      exact absurd hempty (by simpa [getCommonFileName] using hfirst)
  · exact ⟨h,rfl⟩

theorem publishKeyTag_fresh {e : KeyEntry} (tag : Tag) (h : OneName e.fileNames) :
    OneName (publishKeyTag lower e tag).fileNames ∧
      (publishKeyTag lower e tag).address=e.address ∧
      (publishKeyTag lower e tag).publishingIPs=e.publishingIPs := by
  rcases publishKeyTag_cases lower e tag with
    ⟨hash,-,heq⟩ | ⟨-,⟨name,heq⟩ | heq | heq | heq⟩ <;> rw [heq]
  · split_ifs <;> exact ⟨h,rfl,rfl⟩
  · obtain ⟨hname,haddress⟩ := offerFileName_fileNames lower name h
    exact ⟨hname,haddress,rfl⟩
  · obtain ⟨hname,haddress⟩ := offerSize_fileNames e.toEntry tag
    exact ⟨by dsimp only; rwa [hname],haddress,rfl⟩
  · exact ⟨h,rfl,rfl⟩
  · obtain ⟨hname,haddress⟩ := addTag_fileNames e.toEntry tag
    exact ⟨by dsimp only; rwa [hname],haddress,rfl⟩

theorem publishedKey_fresh (keyID sourceID : UInt128) (ip : UInt32) (tags : List Tag) :
    OneName (publishedKey lower keyID sourceID ip tags).fileNames ∧
      (publishedKey lower keyID sourceID ip tags).address=Address.fromHostOrder ip ∧
      (publishedKey lower keyID sourceID ip tags).publishingIPs=none := by
  let fresh (e : KeyEntry) : Prop := OneName e.fileNames ∧
    e.address=Address.fromHostOrder ip ∧ e.publishingIPs=none
  have hstep : ∀ (e : KeyEntry) (tag : Tag), fresh e → True → fresh (publishKeyTag lower e tag) := by
    intro e tag h _
    obtain ⟨hname,haddress,hips⟩ := publishKeyTag_fresh lower tag h.1
    exact ⟨hname,haddress.trans h.2.1,hips.trans h.2.2⟩
  exact run_invariant hstep ⟨Or.inl rfl,rfl,rfl⟩ (along_true (publishKeyTag lower) _ tags)

theorem publishKeyTag_hashes (e : KeyEntry) (tag : Tag) :
    (publishKeyTag lower e tag).toAICHHashes =
      if e.aichHashes=[] then
        match reportedHash [tag] with
        | none => e.toAICHHashes
        | some hash => (e.toAICHHashes.addRemoveAICHHash hash.bytes true).2
      else e.toAICHHashes := by
  rcases publishKeyTag_cases lower e tag with
    ⟨hash,hreport,heq⟩ | ⟨hreport,⟨name,heq⟩ | heq | heq | heq⟩ <;> rw [heq,hreport]
  · simp only [List.length_eq_zero_iff]
    split_ifs <;> rfl
  all_goals simp

theorem publishKeyTag_foldl_hashes {tags : List Tag} {e : KeyEntry}
    (h : e.toAICHHashes=⟨[],[]⟩ ∨ e.aichHashes≠[]) :
    (tags.foldl (publishKeyTag lower) e).toAICHHashes =
      if e.aichHashes=[] then freshHashes (reportedHash tags) else e.toAICHHashes := by
  induction tags generalizing e with
  | nil =>
    rcases h with h | h
    · rw [h,if_pos rfl]
      exact h
    · rw [if_neg h]
      rfl
  | cons tag tags ih =>
    have hstep := publishKeyTag_hashes lower e tag
    rw [List.foldl_cons]
    rcases h with h | h
    · have hempty : e.aichHashes=[] := by rw [h]
      have hcons : reportedHash (tag::tags)=(reportedHash [tag]).or (reportedHash tags) := by
        simp only [reportedHash,List.findSome?_cons,List.findSome?_nil]
        split <;> simp_all
      rw [if_pos hempty] at hstep ⊢
      cases hreport : reportedHash [tag] with
      | none =>
        rw [hreport] at hstep hcons
        rw [ih (Or.inl (hstep.trans h)),hstep,h,if_pos rfl,hcons,Option.none_or]
      | some hash =>
        rw [hreport,h] at hstep
        rw [hreport] at hcons
        have hfull : (publishKeyTag lower e tag).aichHashes≠[] := by
          rw [hstep]
          simp [AICHHashes.addRemoveAICHHash]
        rw [ih (Or.inr hfull),if_neg hfull,hstep,hcons]
        simp [AICHHashes.addRemoveAICHHash,freshHashes]
    · rw [if_neg h] at hstep ⊢
      have hfull : (publishKeyTag lower e tag).aichHashes≠[] := by rwa [hstep]
      rw [ih (Or.inr hfull),if_neg hfull,hstep]

theorem publishedKey_hashes (keyID sourceID : UInt128) (ip : UInt32) (tags : List Tag) :
    (publishedKey lower keyID sourceID ip tags).toAICHHashes=freshHashes (reportedHash tags) := by
  unfold publishedKey
  rw [publishKeyTag_foldl_hashes lower (Or.inl rfl)]
  rfl

end Published

end EmuleQt.Kademlia
