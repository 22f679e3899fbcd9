import EmuleQt.Kademlia.IndexCounters
import EmuleQt.Kademlia.PublishRequest
import EmuleQt.Kademlia.TagList

namespace EmuleQt.Kademlia

open Framework Utils

section Members

variable {α σ : Type} {index : List (Hash α)} {e : α}

theorem mem_storedEntries :
    e∈storedEntries index ↔
      ∃ hash∈index, ∃ source∈hash.sources, e∈source.entryList := by
  simp only [storedEntries,List.mem_flatMap]

theorem mem_storedEntries_update {keyID : UInt128} {sources : List (Source α)}
    (h : e∈storedEntries (upsert Hash.keyID keyID (fun _ => ⟨keyID,sources⟩) index)) :
    (∃ source∈sources, e∈source.entryList) ∨ e∈storedEntries index := by
  obtain ⟨hash,hhash,source,hsource,he⟩ := mem_storedEntries.mp h
  rcases mem_upsert hhash with rfl | hold
  · exact Or.inl ⟨source,hsource,he⟩
  · exact Or.inr (mem_storedEntries.mpr ⟨hash,hold,source,hsource,he⟩)

theorem mem_cleanIndex {visit : α → σ → Option α × σ} {s : σ}
    (h : e∈storedEntries (cleanIndex visit index s).1) :
    ∃ e'∈storedEntries index, ∃ t, (visit e' t).1=some e := by
  obtain ⟨hash,hhash,source,hsource,he⟩ := mem_storedEntries.mp h
  obtain ⟨hash',hhash',t,hvisit⟩ := mem_sweep hhash
  unfold cleanHash at hvisit
  dsimp only at hvisit
  split_ifs at hvisit
  obtain rfl := Option.some.inj hvisit
  obtain ⟨source',hsource',u,hvisit'⟩ := mem_sweep hsource
  unfold cleanSource at hvisit'
  dsimp only at hvisit'
  split_ifs at hvisit'
  obtain rfl := Option.some.inj hvisit'
  obtain ⟨e',he',v,hentry⟩ := mem_sweep he
  exact ⟨e',mem_storedEntries.mpr ⟨hash',hhash',source',hsource',he'⟩,v,hentry⟩

end Members

theorem mem_insertSource {policy : SourcePolicy} {perFileMax : Nat} {full : Bool}
    {sourceID : UInt128} {entry e : Entry} {sources out : List (Source Entry)}
    {counter counter' : Nat} {answer : Answer}
    (h : insertSource policy perFileMax full sourceID entry sources counter =
      (answer, out, counter')) (he : ∃ source∈out, e∈source.entryList) :
    e=entry ∨ ∃ source∈sources, e∈source.entryList := by
  obtain ⟨source,hsource,hmem⟩ := he
  have hnew : source=⟨sourceID,[entry]⟩ ∨ source∈sources := by
    rcases insertSource_cases h with
      ⟨before,own,after,rfl,-,-,-,rfl,-⟩ |
      ⟨-,⟨-,-,rfl,-⟩ | ⟨-,rfl,-⟩ | ⟨-,-,rfl,-⟩⟩
    · rcases List.mem_append.mp hsource with hs | hs
      · exact Or.inr (List.mem_append_left _ hs)
      · rcases List.mem_cons.mp hs with hs | hs
        · exact Or.inl hs
        · exact Or.inr (List.mem_append_right _ (List.mem_cons_of_mem own hs))
    · exact (List.mem_cons.mp hsource).imp_right fun hs => List.dropLast_subset _ hs
    · exact Or.inr hsource
    · exact List.mem_cons.mp hsource
  rcases hnew with rfl | hold
  · exact Or.inl (List.mem_singleton.mp hmem)
  · exact Or.inr ⟨source,hold,hmem⟩

/-- The buckets of a keyword hold what was in them and what the publish was merged to, with
nothing or with an entry that was in them. -/
theorem mem_insertKeyEntry {lower : QString → QString} {now new : Nat} {sourceID : UInt128}
    {entry : KeyEntry} {sources out : List (Source KeyEntry)} {g g' : Tracking}
    (h : insertKeyEntry lower now sourceID entry sources g=some (out, new, g')) :
    ∃ old : Option KeyEntry,
      (∀ o,old=some o → o.size=entry.size ∧ ∃ source∈sources, o∈source.entryList) ∧
      ∀ e,(∃ source∈out, e∈source.entryList) →
        e=(entry.mergeIPsAndFilenames lower now old g).1 ∨
          ∃ source∈sources, e∈source.entryList := by
  unfold insertKeyEntry at h
  cases hfound : lookupKey Source.sourceID sourceID sources with
  | none =>
    rw [hfound] at h
    obtain ⟨rfl,-,-⟩ := Option.some.inj h
    refine ⟨none,by simp,fun e he => ?_⟩
    obtain ⟨source,hsource,hmem⟩ := he
    rcases mem_upsert hsource with rfl | hold
    · exact Or.inl (List.mem_singleton.mp hmem)
    · exact Or.inr ⟨source,hold,hmem⟩
  | some found =>
    rw [hfound] at h
    dsimp only at h
    have hnot : ¬(!found.entryList.isEmpty &&
        decide (sources.length>KADEMLIAMAXINDEX-5000))=true := by
      intro hhot
      rw [if_pos hhot] at h
      cases h
    rw [if_neg hnot] at h
    obtain ⟨rfl,-,-⟩ := Option.some.inj h
    have hbucket := (lookupKey_mem hfound).1
    refine ⟨found.entryList.find? fun e => decide (e.size=entry.size),fun o ho => ?_,
      fun e he => ?_⟩
    · exact ⟨by simpa using List.find?_some ho,found,hbucket,List.mem_of_find?_eq_some ho⟩
    · obtain ⟨source,hsource,hmem⟩ := he
      rcases mem_upsert hsource with rfl | hold
      · rcases List.mem_append.mp hmem with hrest | hmerged
        · exact Or.inr ⟨found,hbucket,List.mem_of_mem_eraseP hrest⟩
        · exact Or.inl (List.mem_singleton.mp hmerged)
      · exact Or.inr ⟨source,hold,hmem⟩

namespace Indexed

/-- All that is stored for keywords is good, and so is all that is stored for files. -/
structure Everywhere (goodKey : KeyEntry → Prop) (good : Entry → Prop) (s : Indexed) : Prop where
  keywords : ∀ e ∈ storedEntries s.keywords, goodKey e
  sources : ∀ e ∈ storedEntries s.sources, good e
  notes : ∀ e ∈ storedEntries s.notes, good e

variable {goodKey : KeyEntry → Prop} {good : Entry → Prop} {s : Indexed}

theorem everywhere_create (now : Nat) (dataLoaded : Bool) :
    Everywhere goodKey good (create now dataLoaded) :=
  ⟨by simp [create,storedEntries],by simp [create,storedEntries],
    by simp [create,storedEntries]⟩

section Clean

variable (hclean : ∀ now e g, goodKey e → goodKey (e.cleanUpTrackedPublishers now g).1)
include hclean

theorem Everywhere.cleanLocked (h : Everywhere goodKey good s) (now : Nat) :
    Everywhere goodKey good (cleanLocked now s) := by
  have hentry : ∀ {index : List (Hash Entry)} {counter : Nat}, (∀ e∈storedEntries index,good e) →
      ∀ e∈storedEntries (cleanIndex (visitEntry now) index counter).1, good e := by
    intro index counter hindex e he
    obtain ⟨e',he',t,hvisit⟩ := mem_cleanIndex he
    unfold visitEntry at hvisit
    split_ifs at hvisit
    exact Option.some.inj hvisit ▸ hindex e' he'
  unfold Indexed.cleanLocked
  split_ifs
  · exact h
  · refine ⟨fun e he => ?_,hentry h.sources,hentry h.notes⟩
    obtain ⟨e',he',t,hvisit⟩ := mem_cleanIndex he
    unfold visitKeyEntry at hvisit
    split_ifs at hvisit
    exact Option.some.inj hvisit ▸ hclean now e' t.2 (h.keywords e' he')

theorem Everywhere.clean (h : Everywhere goodKey good s) (now : Nat) (force : Bool) :
    Everywhere goodKey good (clean now force s) := by
  unfold Indexed.clean
  split_ifs
  · exact h
  · refine Everywhere.cleanLocked hclean ?_ now
    exact ⟨h.keywords,h.sources,h.notes⟩
  · exact h.cleanLocked hclean now

theorem Everywhere.addSourceEntry (h : Everywhere goodKey good s) (k : SourceKind) (now : Nat)
    (keyID sourceID : UInt128) {entry : Entry} {fromFile : Bool}
    (hentry : good (stampSource k now fromFile entry)) :
    Everywhere goodKey good (addSourceEntry k now keyID sourceID entry fromFile s).2 := by
  have hset : ∀ {t : Indexed} {sources : List (Source Entry)} {counter : Nat},
      Everywhere goodKey good t →
      (∀ e,(∃ source∈sources, e∈source.entryList) →
        e=stampSource k now fromFile entry ∨ e∈storedEntries (k.index t)) →
      Everywhere goodKey good (k.set (upsert Hash.keyID keyID (fun _ => ⟨keyID,sources⟩)
        (k.index t)) counter t) := by
    intro t sources counter ht hsources
    have hindex : ∀ e∈storedEntries (k.index t), good e := by
      cases k
      · exact ht.sources
      · exact ht.notes
    have hupdated : ∀ e∈storedEntries (upsert Hash.keyID keyID (fun _ => ⟨keyID,sources⟩)
        (k.index t)), good e := by
      intro e he
      rcases mem_storedEntries_update he with hnew | hold
      · rcases hsources e hnew with rfl | hold
        · exact hentry
        · exact hindex e hold
      · exact hindex e hold
    cases k
    · exact ⟨ht.keywords,hupdated,ht.notes⟩
    · exact ⟨ht.keywords,ht.sources,hupdated⟩
  have hcleaned : Everywhere goodKey good (forcedClean k now fromFile s) := by
    unfold forcedClean
    split_ifs
    · refine Everywhere.cleanLocked hclean ?_ now
      exact ⟨h.keywords,h.sources,h.notes⟩
    · exact h
  unfold Indexed.addSourceEntry
  dsimp only
  split_ifs
  · exact h
  · unfold storeSource
    cases hfound : lookupKey Hash.keyID keyID (k.index (forcedClean k now fromFile s)) with
    | none =>
      dsimp only
      split_ifs
      · exact hcleaned
      · refine hset hcleaned fun e he => Or.inl ?_
        obtain ⟨source,hsource,hmem⟩ := he
        obtain rfl := List.mem_singleton.mp hsource
        exact List.mem_singleton.mp hmem
    | some hash =>
      dsimp only
      generalize hinsert : insertSource k.policy k.perFileMax _ sourceID _ hash.sources _ = r
      refine hset hcleaned fun e he => (mem_insertSource hinsert he).imp_right ?_
      rintro ⟨source,hsource,hmem⟩
      exact mem_storedEntries.mpr ⟨hash,(lookupKey_mem hfound).1,source,hsource,hmem⟩

end Clean

theorem Everywhere.addKeywordLocked (h : Everywhere goodKey good s) {lower : QString → QString}
    {now : Nat} {keyID sourceID : UInt128} {entry : KeyEntry} {fromFile : Bool}
    (hmerge : ∀ old g,unservable now (stampKeyEntry now fromFile entry)=false →
      (∀ o,old=some o → o.size=(stampKeyEntry now fromFile entry).size ∧ goodKey o) →
      goodKey ((stampKeyEntry now fromFile entry).mergeIPsAndFilenames lower now old g).1) :
    Everywhere goodKey good (addKeywordLocked lower now keyID sourceID entry fromFile s).2 := by
  unfold Indexed.addKeywordLocked
  by_cases hfull : s.totalIndexKeyword>KADEMLIAMAXENTRIES
  · rw [if_pos hfull]
    exact h
  rw [if_neg hfull]
  dsimp only
  by_cases hbad : unservable now (stampKeyEntry now fromFile entry)=true
  · rw [if_pos hbad]
    exact h
  rw [if_neg hbad]
  split_ifs
  · exact h
  cases hinsert : insertKeyEntry lower now sourceID (stampKeyEntry now fromFile entry)
      (((lookupKey Hash.keyID keyID s.keywords).map fun keyHash => keyHash.sources).getD [])
      s.globalPublishIPs with
  | none => exact h
  | some r =>
    have hstored : ∀ e,(∃ source∈((lookupKey Hash.keyID keyID s.keywords).map fun keyHash =>
        keyHash.sources).getD [], e∈source.entryList) → e∈storedEntries s.keywords := by
      rintro e ⟨source,hsource,hmem⟩
      cases hfound : lookupKey Hash.keyID keyID s.keywords with
      | none => simp [hfound] at hsource
      | some hash =>
        rw [hfound] at hsource
        exact mem_storedEntries.mpr ⟨hash,(lookupKey_mem hfound).1,source,hsource,hmem⟩
    obtain ⟨old,hold,hout⟩ := mem_insertKeyEntry hinsert
    refine ⟨fun e he => ?_,h.sources,h.notes⟩
    rcases mem_storedEntries_update he with hnew | hkept
    · rcases hout e hnew with rfl | hkept
      · refine hmerge old _ (by simpa using hbad) fun o ho => ?_
        exact ⟨(hold o ho).1,h.keywords o (hstored o (hold o ho).2)⟩
      · exact h.keywords e (hstored e hkept)
    · exact h.keywords e hkept

end Indexed

open Crypto Framework Math Net Protocol Utils

section Read

variable {data rest : List UInt8}

theorem readUInt_lt {w v : Nat} (h : Reader.readUInt w data = .ok (v, rest)) : v<256^w := by
  obtain ⟨rfl,-,hlength⟩ := Reader.readUInt_ok h
  have hlt := leValue_lt (data.take w)
  rwa [List.length_take,Nat.min_eq_left hlength] at hlt

theorem read_length {count : Nat} {bytes : List UInt8}
    (h : Reader.read count data = .ok (bytes, rest)) : bytes.length=count := by
  obtain ⟨rfl,-,hlength⟩ := Reader.read_ok h
  rw [List.length_take,Nat.min_eq_left hlength]

theorem readBsob_length {bsob : List UInt8} (h : readBsob data = .ok (bsob, rest)) :
    bsob.length<2^8 := by
  obtain ⟨len,data',hlen,h⟩ := Reader.of_bind_ok h
  rw [read_length h]
  exact readUInt_lt hlen

theorem readKadTagValue_wired {type : Nat} {v : TagValue}
    (h : readKadTagValue type data = .ok (v, rest)) : WiredValue v := by
  unfold readKadTagValue at h
  split_ifs at h
  all_goals first
    | cases h
    | obtain ⟨val,data',hval,h⟩ := Reader.of_bind_ok h
      obtain ⟨rfl,-⟩ := Prod.mk.inj (Except.ok.inj h)
      first
        | trivial
        | exact readBsob_length hval

theorem readKadTag_stored {tag : Tag} (h : readKadTag data = .ok (tag, rest)) : Stored tag := by
  obtain ⟨type,data1,-,h⟩ := Reader.of_bind_ok h
  obtain ⟨nameLen,data2,hnameLen,h⟩ := Reader.of_bind_ok h
  obtain ⟨name,data3,hname,h⟩ := Reader.of_bind_ok h
  obtain ⟨value,data4,hvalue,h⟩ := Reader.of_bind_ok h
  obtain ⟨rfl,-⟩ := Prod.mk.inj (Except.ok.inj h)
  have hwired := readKadTagValue_wired hvalue
  have hlength : name.length<2^16 := by
    rw [read_length hname]
    exact readUInt_lt hnameLen
  match name, hlength with
  | [], _ => exact ⟨⟨by simp [kadTagOf,kadTagName,Tag.ofName],hwired⟩,
      by simp [kadTagOf,Tag.ofName],Or.inl rfl⟩
  | [id], _ =>
    refine ⟨⟨?_,hwired⟩,by simp [kadTagOf,Tag.ofId],Or.inl rfl⟩
    simp only [kadTagOf,kadTagName,Tag.ofId]
    split_ifs <;> simp
  | b::c::name, hlength =>
    exact ⟨⟨by simpa [kadTagOf,kadTagName,Tag.ofName] using hlength,hwired⟩,
      by simp [kadTagOf,Tag.ofName],Or.inr rfl⟩

theorem readKadTags_stored {count : Nat} {tags : List Tag}
    (h : readKadTags count data = .ok (tags, rest)) : ∀ t∈tags,Stored t := by
  induction count generalizing data rest tags with
  | zero =>
    obtain ⟨rfl,-⟩ := Prod.mk.inj (Except.ok.inj h)
    simp
  | succ count ih =>
    obtain ⟨tag,data1,htag,h⟩ := Reader.of_bind_ok h
    obtain ⟨others,data2,hothers,h⟩ := Reader.of_bind_ok h
    obtain ⟨rfl,-⟩ := Prod.mk.inj (Except.ok.inj h)
    exact List.forall_mem_cons.mpr ⟨readKadTag_stored htag,ih hothers⟩

theorem readKadTagList_stored {tags : List Tag} (h : readKadTagList data = .ok (tags, rest)) :
    ∀ t∈tags,Stored t := by
  obtain ⟨count,data1,-,h⟩ := Reader.of_bind_ok h
  exact readKadTags_stored h

end Read

theorem addTag_stored {e : Entry} {tag : Tag} (h : ∀ t∈e.tags,Stored t) (htag : Stored tag) :
    ∀ t∈(e.addTag tag).2.tags, Stored t := by
  unfold Entry.addTag
  dsimp only
  split_ifs
  · exact h
  · exact h
  · exact List.forall_mem_append.mpr ⟨h,List.forall_mem_singleton.mpr htag⟩

theorem stored_ofId (id : UInt8) {v : TagValue} (h : WiredValue v) : Stored (.ofId id v) := by
  refine ⟨⟨?_,h⟩,by simp [Tag.ofId],Or.inl rfl⟩
  simp only [kadTagName,Tag.ofId]
  split_ifs <;> simp

section Published

variable {lower : QString → QString} {tags : List Tag}

theorem offerFileName_tags (name : QString) (e : Entry) :
    (e.offerFileName lower name).tags=e.tags := by
  unfold Entry.offerFileName
  split_ifs <;> rfl

theorem offerSize_tags (tag : Tag) (e : Entry) : (e.offerSize tag).tags=e.tags := by
  unfold Entry.offerSize
  split_ifs <;> rfl

/-- Tags that can be written, and hashes of the right size. -/
def GoodKey (e : KeyEntry) : Prop :=
  (∀ t∈e.tags, Stored t) ∧ ∀ hash∈e.aichHashes, hash.length=kAICHHashSize

/-- Tags that can be written. -/
def Good (e : Entry) : Prop := ∀ t ∈ e.tags, Stored t

theorem addRemoveAICHHash_mem {a : AICHHashes} {hash : List UInt8} {add : Bool} {h : List UInt8}
    (hmem : h∈(a.addRemoveAICHHash hash add).2.aichHashes) : h=hash ∨ h∈a.aichHashes := by
  unfold AICHHashes.addRemoveAICHHash at hmem
  cases hfound : a.aichHashes.idxOf? hash with
  | some i =>
    rw [hfound] at hmem
    exact Or.inr hmem
  | none =>
    rw [hfound] at hmem
    dsimp only at hmem
    split_ifs at hmem
    · exact Or.inr hmem
    · rcases List.mem_append.mp hmem with hmem | hmem
      · exact Or.inr hmem
      · exact Or.inl (List.mem_singleton.mp hmem)

theorem publishKeyTag_good {e : KeyEntry} {tag : Tag} (h : GoodKey e) (htag : Stored tag) :
    GoodKey (publishKeyTag lower e tag) := by
  obtain ⟨htags,hhashes⟩ := h
  rcases publishKeyTag_cases lower e tag with
    ⟨hash,-,heq⟩ | ⟨-,⟨name,heq⟩ | heq | heq | heq⟩ <;> rw [heq]
  · split_ifs
    · refine ⟨htags,fun x hx => ?_⟩
      rcases addRemoveAICHHash_mem hx with rfl | hx
      · exact hash.size
      · exact hhashes x hx
    · exact ⟨htags,hhashes⟩
  · exact ⟨by dsimp only; rwa [offerFileName_tags],hhashes⟩
  · exact ⟨by dsimp only; rwa [offerSize_tags],hhashes⟩
  · exact ⟨htags,hhashes⟩
  · exact ⟨addTag_stored htags htag,hhashes⟩

theorem publishedKey_good (keyID sourceID : UInt128) (ip : UInt32) (h : ∀ t∈tags,Stored t) :
    GoodKey (publishedKey lower keyID sourceID ip tags) := by
  unfold publishedKey
  refine List.foldlRecOn (motive := GoodKey) tags _ ?_ fun e he t ht =>
    publishKeyTag_good he (h t ht)
  exact ⟨by simp [Entry.create],by simp [KeyEntry.create]⟩

variable {refused : UInt32 → Bool}

theorem publishSourceTag_good {s s' : Entry × Bool} {tag : Tag} (h : Good s.1) (htag : Stored tag)
    (hs : publishSourceTag refused s tag=some s') :
    Good s'.1 := by
  rcases publishSourceTag_cases hs with
    ⟨he,-⟩ | ⟨-,-,-,he⟩ | ⟨-,-,-,v,-,he⟩ | ⟨-,-,-,v,-,-,he⟩ | ⟨-,-,he | he⟩ |
    ⟨-,-,he⟩ | ⟨-,-,-,-,-,-,he⟩ <;> rw [he]
  · exact h
  · exact addTag_stored (addTag_stored h (stored_ofId FT_SOURCEIP trivial)) htag
  · exact addTag_stored h htag
  · exact addTag_stored h htag
  · exact h
  · exact addTag_stored h htag
  · rw [Good,offerSize_tags]
    exact h
  · exact addTag_stored h htag

theorem foldlM_good {s s' : Entry × Bool} (hs : Good s.1) (h : ∀ t∈tags,Stored t)
    (hrun : tags.foldlM (publishSourceTag refused) s=some s') :
    Good s'.1 := by
  induction tags generalizing s with
  | nil =>
    obtain rfl := Option.some.inj hrun
    exact hs
  | cons tag tags ih =>
    obtain ⟨htag,hrest⟩ := List.forall_mem_cons.mp h
    rw [List.foldlM_cons] at hrun
    obtain ⟨s1,hfirst,hrun⟩ := Option.bind_eq_some_iff.mp hrun
    exact ih (publishSourceTag_good hs htag hfirst) hrest hrun

theorem publishedSource_good {now : Nat} {keyID sourceID : UInt128} {ip : UInt32} {udpPort : UInt16}
    {e : Entry} (h : ∀ t∈tags,Stored t)
    (he : publishedSource refused now keyID sourceID ip udpPort tags=some e) : Good e := by
  unfold publishedSource at he
  obtain ⟨⟨e',addUDPPortTag⟩,hrun,rfl⟩ := Option.map_eq_some_iff.mp he
  have hgood := foldlM_good (by simp [Good,Entry.create]) h hrun
  dsimp only
  split_ifs
  · exact addTag_stored hgood (stored_ofId FT_SOURCEUPORT trivial)
  · exact hgood

theorem publishNoteTag_good {e : Entry} {tag : Tag} (h : Good e) (htag : Stored tag) :
    Good (publishNoteTag lower e tag) := by
  unfold publishNoteTag
  cases fileNameTag? tag with
  | some name =>
    rw [Good,offerFileName_tags]
    exact h
  | none =>
    dsimp only
    by_cases hsize : tag.nameId=FT_FILESIZE
    · rw [if_pos hsize,Good,offerSize_tags]
      exact h
    · rw [if_neg hsize]
      cases tag.value with
      | string s =>
        dsimp only
        split_ifs
        · exact addTag_stored h (stored_ofId FT_DESCRIPTION trivial)
        · exact h
      | uint32 v =>
        dsimp only
        split_ifs
        · exact addTag_stored h htag
        · exact h
      | _ => exact h

theorem publishedNote_good (keyID sourceID : UInt128) (ip : UInt32) (udpPort : UInt16)
    (h : ∀ t∈tags,Stored t) : Good (publishedNote lower keyID sourceID ip udpPort tags) := by
  unfold publishedNote
  refine List.foldlRecOn (motive := Good) tags _ ?_ fun e he t ht => publishNoteTag_good he (h t ht)
  simp [Good,Entry.create]

end Published

section Merge

variable {a : AICHHashes} {h newHash : List UInt8}

theorem report_mem {idx : UInt16} (hmem : h∈(a.report idx newHash).2.aichHashes) :
    (newHash≠[] ∧ h=newHash) ∨ h∈a.aichHashes := by
  unfold AICHHashes.report at hmem
  split_ifs at hmem with hnew hnone hnone
  · exact (addRemoveAICHHash_mem hmem).imp_left fun heq => ⟨hnew,heq⟩
  · cases hget : a.aichHashes[idx.toNat]? with
    | none =>
      rw [hget] at hmem
      exact Or.inr hmem
    | some hash =>
      rw [hget] at hmem
      dsimp only at hmem
      split_ifs at hmem
      · rcases addRemoveAICHHash_mem hmem with heq | hold
        · exact Or.inl ⟨hnew,heq⟩
        · rw [addRemoveAICHHash_false] at hold
          exact Or.inr hold
      · exact Or.inr hmem
  · exact Or.inr hmem
  · cases hget : a.aichHashes[idx.toNat]? with
    | none =>
      rw [hget] at hmem
      exact Or.inr hmem
    | some hash =>
      rw [hget] at hmem
      rw [addRemoveAICHHash_false] at hmem
      exact Or.inr hmem

theorem recordPublisher_mem {e : KeyEntry} {ips : List PublishingIP} {now : Nat} {g : Tracking}
    (hmem : h∈(e.recordPublisher ips newHash now g).1.aichHashes) :
    (newHash≠[] ∧ h=newHash) ∨ h∈e.aichHashes := by
  unfold KeyEntry.recordPublisher at hmem
  dsimp only at hmem
  generalize hr : (if newHash=[] then (kNoAICHHash, e.toAICHHashes)
    else e.toAICHHashes.addRemoveAICHHash newHash true)=r at hmem
  have hadded : h∈r.2.aichHashes → (newHash≠[] ∧ h=newHash) ∨ h∈e.aichHashes := by
    intro hx
    rw [← hr] at hx
    split_ifs at hx with hnone
    · exact Or.inr hx
    · exact (addRemoveAICHHash_mem hx).imp_left fun heq => ⟨hnone,heq⟩
  split at hmem
  · split_ifs at hmem
    · rw [release_hashes] at hmem
      exact hadded hmem
    · exact hadded hmem
  · exact hadded hmem

variable (lower : QString → QString) (now : Nat) (e : KeyEntry) (old : Option KeyEntry)
  (g : Tracking)

theorem mergeIPsAndFilenames_toEntry :
    (e.mergeIPsAndFilenames lower now old g).1.toEntry =
      { e.toEntry with fileNames := (e.mergeIPsAndFilenames lower now old g).1.fileNames } := by
  unfold KeyEntry.mergeIPsAndFilenames
  split_ifs
  · rfl
  · dsimp only
    cases hips : old.bind (·.publishingIPs) with
    | none =>
      rw [recordPublisher_toEntry]
    | some ips =>
      dsimp only
      cases ips.find? fun p => decide (p.ip=e.address) with
      | some cur => rfl
      | none =>
        rw [recordPublisher_toEntry]

variable {lower now e old g}

theorem mergeIPsAndFilenames_mem
    (hmem : h∈(e.mergeIPsAndFilenames lower now old g).1.aichHashes) :
    h∈e.aichHashes ∨ ∃ o, old=some o ∧ h∈o.aichHashes := by
  have hhead : e.aichHashes.headD []≠[] ∧ h=e.aichHashes.headD [] → h∈e.aichHashes := by
    rintro ⟨hne,rfl⟩
    cases hhashes : e.aichHashes with
    | nil => simp [hhashes] at hne
    | cons first rest => exact List.mem_cons_self
  unfold KeyEntry.mergeIPsAndFilenames at hmem
  split_ifs at hmem
  · exact Or.inl hmem
  · dsimp only at hmem
    cases old with
    | none =>
      rcases recordPublisher_mem hmem with hnew | hold
      · exact Or.inl (hhead hnew)
      · cases hold
    | some o =>
      dsimp only [Option.bind_some] at hmem
      cases hips : o.publishingIPs with
      | none =>
        rw [hips] at hmem
        rcases recordPublisher_mem hmem with hnew | hold
        · exact Or.inl (hhead hnew)
        · cases hold
      | some ips =>
        rw [hips] at hmem
        dsimp only at hmem
        cases hfind : ips.find? fun p => decide (p.ip=e.address) with
        | some cur =>
          rw [hfind] at hmem
          rcases report_mem hmem with hnew | hold
          · exact Or.inl (hhead hnew)
          · exact Or.inr ⟨o,rfl,hold⟩
        | none =>
          rw [hfind] at hmem
          rcases recordPublisher_mem hmem with hnew | hold
          · exact Or.inl (hhead hnew)
          · exact Or.inr ⟨o,rfl,hold⟩

theorem mergeIPsAndFilenames_good (he : GoodKey e) (hold : ∀ o,old=some o → GoodKey o) :
    GoodKey (e.mergeIPsAndFilenames lower now old g).1 := by
  refine ⟨?_,fun hash hmem => ?_⟩
  · rw [mergeIPsAndFilenames_toEntry]
    exact he.1
  · rcases mergeIPsAndFilenames_mem hmem with hmem | ⟨o,ho,hmem⟩
    · exact he.2 hash hmem
    · exact (hold o ho).2 hash hmem

theorem sweep_hashes {ips : List PublishingIP} {s : AICHHashes × Tracking} :
    (sweep (KeyEntry.visitPublisher now) ips s).2.1.aichHashes=s.1.aichHashes := by
  induction ips generalizing s with
  | nil => rfl
  | cons p ips ih =>
    rw [sweep]
    rw [ih]
    unfold KeyEntry.visitPublisher
    split_ifs
    · exact release_hashes s.1 p.aichHashIdx
    · rfl

theorem cleanUpTrackedPublishers_good (he : GoodKey e) :
    GoodKey (e.cleanUpTrackedPublishers now g).1 := by
  unfold KeyEntry.cleanUpTrackedPublishers
  cases e.publishingIPs with
  | none => exact he
  | some ips =>
    refine ⟨he.1,?_⟩
    rw [sweep_hashes]
    exact he.2

end Merge

end EmuleQt.Kademlia
