import EmuleQt.Kademlia.PublishedTags

namespace EmuleQt.Kademlia

open Crypto Framework Math Net Protocol Utils

/-- A publish packet as one of the handlers gets it, or the cleaning. -/
inductive PublishOp
  | keyReq (listener : Listener) (now : Nat) (ip : UInt32) (data : List UInt8)
  | sourceReq (listener : Listener) (now : Nat) (ip : UInt32) (udpPort : UInt16)
      (data : List UInt8)
  | notesReq (listener : Listener) (now : Nat) (ip : UInt32) (udpPort : UInt16)
      (data : List UInt8)
  | clean (now : Nat) (force : Bool)

def PublishOp.step (s : Indexed) : PublishOp → Indexed
  | .keyReq listener now ip data => listener.process_KADEMLIA2_PUBLISH_KEY_REQ now ip data s
  | .sourceReq listener now ip udpPort data =>
    listener.process_KADEMLIA2_PUBLISH_SOURCE_REQ now ip udpPort data s
  | .notesReq listener now ip udpPort data =>
    listener.process_KADEMLIA2_PUBLISH_NOTES_REQ now ip udpPort data s
  | .clean now force => s.clean now force

section Step

variable {s : Indexed}

theorem readSourceTags_stored {data rest : List UInt8} {p : UInt128 × List Tag}
    (h : Listener.readSourceTags data = .ok (p, rest)) : ∀ t∈p.2,Stored t := by
  obtain ⟨sourceID,data1,-,h⟩ := Reader.of_bind_ok h
  obtain ⟨tags,data2,htags,h⟩ := Reader.of_bind_ok h
  obtain ⟨rfl,-⟩ := Prod.mk.inj (Except.ok.inj h)
  exact readKadTagList_stored htags

theorem readKeyPublishes_stored {count : Nat} {data : List UInt8} :
    ∀ p∈Listener.readKeyPublishes count data, ∀ t∈p.2,Stored t := by
  induction count generalizing data with
  | zero => simp [Listener.readKeyPublishes]
  | succ count ih =>
    rw [Listener.readKeyPublishes]
    split_ifs
    · simp
    · cases hread : Listener.readSourceTags data with
      | error e => simp
      | ok r => exact List.forall_mem_cons.mpr ⟨readSourceTags_stored hread,ih⟩

theorem readPublish_stored {data : List UInt8} {keyID sourceID : UInt128} {tags : List Tag}
    (h : Listener.readPublish data=some (keyID, sourceID, tags)) : ∀ t∈tags,Stored t := by
  unfold Listener.readPublish at h
  split_ifs at h
  cases hkey : Digest.read 16 data with
  | error e => simp [hkey] at h
  | ok r =>
    rw [hkey] at h
    dsimp only at h
    cases hread : Listener.readSourceTags r.2 with
    | error e => simp [hread] at h
    | ok p =>
      rw [hread] at h
      obtain ⟨-,-,rfl⟩ := Option.some.inj h
      exact readSourceTags_stored hread

theorem addKeyword_good (h : s.Everywhere GoodKey Good) {lower : QString → QString} {now : Nat}
    {keyID sourceID : UInt128} {entry : KeyEntry} (hentry : GoodKey entry) :
    (s.addKeyword lower now keyID sourceID entry).2.Everywhere GoodKey Good := by
  unfold Indexed.addKeyword
  split_ifs
  · exact h
  · exact h.addKeywordLocked fun old g _ hold =>
      mergeIPsAndFilenames_good hentry fun o ho => (hold o ho).2

theorem PublishOp.step_good (h : s.Everywhere GoodKey Good) (op : PublishOp) :
    (step s op).Everywhere GoodKey Good := by
  have hclean : ∀ now e g,GoodKey e → GoodKey (e.cleanUpTrackedPublishers now g).1 :=
    fun now e g he => cleanUpTrackedPublishers_good he
  cases op with
  | keyReq listener now ip data =>
    unfold step Listener.process_KADEMLIA2_PUBLISH_KEY_REQ
    dsimp only
    split_ifs
    · exact h
    · cases Digest.read 16 data with
      | error e => exact h
      | ok r =>
        dsimp only
        split_ifs
        · exact h
        · cases Reader.readUInt16 r.2 with
          | error e => exact h
          | ok q =>
            refine List.foldlRecOn (motive := Indexed.Everywhere GoodKey Good) _ _ h
              fun s hs p hp => ?_
            exact addKeyword_good hs (publishedKey_good _ _ _ (readKeyPublishes_stored p hp))
  | sourceReq listener now ip udpPort data =>
    unfold step Listener.process_KADEMLIA2_PUBLISH_SOURCE_REQ
    dsimp only
    cases hread : Listener.readPublish data with
    | none => exact h
    | some p =>
      obtain ⟨keyID,sourceID,tags⟩ := p
      dsimp only
      split_ifs
      · exact h
      · cases hentry : publishedSource listener.refused now keyID sourceID ip udpPort tags with
        | none => exact h
        | some e =>
          have hgood := publishedSource_good (readPublish_stored hread) hentry
          dsimp only
          split_ifs
          · unfold Indexed.addSources
            split_ifs
            · exact h
            · exact h.addSourceEntry hclean .source now keyID sourceID hgood
          · exact h
  | notesReq listener now ip udpPort data =>
    unfold step Listener.process_KADEMLIA2_PUBLISH_NOTES_REQ
    dsimp only
    cases hread : Listener.readPublish data with
    | none => exact h
    | some p =>
      obtain ⟨keyID,sourceID,tags⟩ := p
      dsimp only
      split_ifs
      · exact h
      · unfold Indexed.addNotes
        split_ifs
        · exact h
        · exact h.addSourceEntry hclean .note now keyID sourceID
            (publishedNote_good keyID sourceID ip udpPort (readPublish_stored hread))
  | clean now force => exact h.clean hclean now force

end Step

/-- The count of a list with so many tags behind it has room in its byte, and every text in it can
be read again. -/
def Listable (e : Entry) (behind : Nat) : Prop := e.getTagCount+behind≤255 ∧ e.TextsReadable

/-- Of every entry that publishes have led to, each of its lists is read as the entry has it, and
nothing behind it is touched, exactly when the list is listable. -/
theorem tagLists_correct (now : Nat) (ops : List PublishOp) :
    let s := run PublishOp.step (Indexed.create now true) ops
    (∀ e∈storedEntries s.keywords,
      ((∀ rest,readKadTagList (e.writeTagList++rest) = .ok (e.readTags, rest)) ↔
        Listable e.toEntry 0) ∧
      ∀ trust,(∀ rest,readKadTagList (e.writeTagListWithPublishInfo trust++rest) =
          .ok (e.readTags++e.readPublishInfo trust, rest)) ↔
        Listable e.toEntry (1+if e.aichHashes≠[] then 1 else 0)) ∧
    ∀ e,e∈storedEntries s.sources ∨ e∈storedEntries s.notes →
      ((∀ rest,readKadTagList (e.writeTagList++rest) = .ok (e.readTags, rest)) ↔
        Listable e 0) := by
  have hstep : ∀ (s : Indexed) (op : PublishOp), s.Everywhere GoodKey Good → True →
      (PublishOp.step s op).Everywhere GoodKey Good := fun s op h _ => PublishOp.step_good h op
  have hgood := run_invariant hstep (Indexed.everywhere_create now true)
    (along_true PublishOp.step _ ops)
  refine ⟨fun e he => ?_,fun e he => ?_⟩
  · obtain ⟨htags,hhashes⟩ := hgood.keywords e he
    refine ⟨readKadTagList_writeTagList htags,fun trust => ?_⟩
    rw [Listable,← Nat.add_assoc]
    exact readKadTagList_withPublishInfo trust htags hhashes
  · rcases he with he | he
    · exact readKadTagList_writeTagList (hgood.sources e he)
    · exact readKadTagList_writeTagList (hgood.notes e he)

section Crowded

/-- As many tags as a count of one byte can announce. -/
def crowdedTags : List Tag :=
  .ofId FT_SOURCETYPE (.uint32 1) :: .ofId FT_SOURCEPORT (.uint32 4662) ::
    List.replicate 253 (.ofId 0x55 (.uint32 0))

/-- A node of the ID zero that anybody may publish to. -/
def openListener : Listener := ⟨id,false,some (.zero 16),fun _ => false⟩

def crowdedPublish : PublishOp :=
  .sourceReq openListener 0 0x01020304 4672
    ((Digest.zero 16).bytes++((Digest.zero 16).bytes++writeKadTagList crowdedTags))

theorem crowdedTags_length : crowdedTags.length=255 := by
  rw [crowdedTags,List.length_cons,List.length_cons,List.length_replicate]

theorem crowdedTags_plain :
    ∀ t∈crowdedTags,Wired t ∧ wireTag t=t ∧ ∀ s,t.value ≠ .string s := by
  have hint : ∀ (id : UInt8) (v : UInt32), id>0 → Wired (.ofId id (.uint32 v)) ∧
      wireTag (.ofId id (.uint32 v)) = .ofId id (.uint32 v) ∧
      ∀ s,(Tag.ofId id (.uint32 v)).value ≠ .string s := by
    intro id v hid
    have hname : kadTagName (.ofId id (.uint32 v))=[id] := if_pos ⟨rfl,hid⟩
    refine ⟨⟨by simp [hname],trivial⟩,?_,by simp [Tag.ofId]⟩
    rw [wireTag,hname]
    rfl
  refine List.forall_mem_cons.mpr ⟨hint _ _ (by decide),
    List.forall_mem_cons.mpr ⟨hint _ _ (by decide),fun t ht => ?_⟩⟩
  rw [List.eq_of_mem_replicate ht]
  exact hint _ _ (by decide)

theorem readPublish_crowded :
    Listener.readPublish ((Digest.zero 16).bytes++((Digest.zero 16).bytes ++
      writeKadTagList crowdedTags))=some (.zero 16, .zero 16, crowdedTags) := by
  have hwire : crowdedTags.map wireTag=crowdedTags :=
    (List.map_congr_left fun t ht => (crowdedTags_plain t ht).2.1).trans (List.map_id _)
  have hlist := (readKadTagList_write (fun t ht => (crowdedTags_plain t ht).1) []).mpr
    ⟨by rw [crowdedTags_length]; decide,fun t ht s hs => absurd hs ((crowdedTags_plain t ht).2.2 s)⟩
  rw [hwire,List.append_nil] at hlist
  have htags : Listener.readSourceTags ((Digest.zero 16).bytes++writeKadTagList crowdedTags) =
      .ok ((.zero 16, crowdedTags), []) := by
    unfold Listener.readSourceTags
    rw [Reader.bind_ok (Digest.read_append _ _),Reader.bind_ok hlist]
    rfl
  have hlength : ((Digest.zero 16).bytes++((Digest.zero 16).bytes ++
      writeKadTagList crowdedTags)).length≥32 := by
    rw [List.length_append,List.length_append,(Digest.zero 16).size]
    omega
  unfold Listener.readPublish
  rw [if_neg (by omega),Digest.read_append]
  dsimp only
  rw [htags]

/-- The entry without the UDP port, with some of the tags. -/
def crowdedEntry (n : Nat) : Entry :=
  { Entry.create with
    udpPort := 4672
    tcpPort := 4662
    address := .ipv4 0x01020304
    lifetime := KADEMLIAREPUBLISHTIMES
    source := true
    tags := .ofId FT_SOURCEIP (.uint32 0x01020304) :: .ofId FT_SOURCETYPE (.uint32 1) ::
      .ofId FT_SOURCEPORT (.uint32 4662)::List.replicate n (.ofId 0x55 (.uint32 0)) }

theorem publishSourceTag_crowded (n : Nat) :
    publishSourceTag openListener.refused (crowdedEntry n, true) (.ofId 0x55 (.uint32 0)) =
      some (crowdedEntry (n+1), true) := by
  unfold publishSourceTag
  simp [Tag.ofId,FT_SOURCETYPE,FT_SOURCEPORT,FT_SOURCEUPORT,FT_SERVERIP,FT_FILESIZE,
    FT_SOURCEIP,Entry.addTag,Entry.tagLookupKey,TAG_PUBLISHINFO,TAG_KADAICHHASHRESULT,
    crowdedEntry,List.replicate_succ']

theorem foldlM_crowded (n m : Nat) :
    (List.replicate n (Tag.ofId 0x55 (.uint32 0))).foldlM (publishSourceTag openListener.refused)
      (crowdedEntry m, true)=some (crowdedEntry (m+n), true) := by
  induction n generalizing m with
  | zero => rfl
  | succ n ih =>
    rw [List.replicate_succ,List.foldlM_cons,publishSourceTag_crowded]
    exact (ih (m+1)).trans (by rw [Nat.add_right_comm,Nat.add_assoc])

/-- The entry that is stored. -/
def crowdedStored : Entry := { crowdedEntry 253 with
  tags := (crowdedEntry 253).tags++[.ofId FT_SOURCEUPORT (.uint32 4672)] }

/-- The entry before its tags. -/
def crowdedBlank : Entry :=
  { Entry.create with
    udpPort := 4672
    address := .ipv4 0x01020304
    lifetime := KADEMLIAREPUBLISHTIMES }

theorem publishedSource_crowded :
    publishedSource openListener.refused 0 (.zero 16) (.zero 16) 0x01020304 4672 crowdedTags =
      some crowdedStored := by
  have hfirst : [Tag.ofId FT_SOURCETYPE (.uint32 1),Tag.ofId FT_SOURCEPORT (.uint32 4662)].foldlM
      (publishSourceTag openListener.refused) (crowdedBlank, true) =
        some (crowdedEntry 0, true) := by decide
  have hsplit : crowdedTags=[Tag.ofId FT_SOURCETYPE (.uint32 1),
      Tag.ofId FT_SOURCEPORT (.uint32 4662)]++List.replicate 253 (.ofId 0x55 (.uint32 0)) := by
    rw [List.cons_append,List.cons_append,List.nil_append,crowdedTags]
  have hrun : crowdedTags.foldlM (publishSourceTag openListener.refused) (crowdedBlank, true) =
      some (crowdedEntry 253, true) := by
    have hmore := foldlM_crowded 253 0
    rw [hsplit,List.foldlM_append,hfirst,Option.bind_eq_bind,Option.bind_some,hmore]
  have hadd : ((crowdedEntry 253).addTag (.ofId FT_SOURCEUPORT (.uint32 4672))).2 =
      crowdedStored := by
    simp [Entry.addTag,Entry.tagLookupKey,Tag.ofId,FT_SOURCEUPORT,FT_SOURCEIP,
      TAG_PUBLISHINFO,TAG_KADAICHHASHRESULT,crowdedStored]
  unfold publishedSource
  change (crowdedTags.foldlM (publishSourceTag openListener.refused) (crowdedBlank, true)).map _ = _
  rw [hrun]
  exact congrArg some hadd

/-- A full count and the tags we add to it: what is written cannot be read. -/
theorem tagLists_crowded :
    ∃ e ∈ storedEntries (run PublishOp.step (Indexed.create 0 true) [crowdedPublish]).sources,
      ¬∀ rest, readKadTagList (e.writeTagList ++ rest) = .ok (e.readTags, rest) := by
  have hcount : crowdedStored.getTagCount=257 := by
    have hlength : crowdedStored.tags.length=257 := by
      unfold crowdedStored crowdedEntry
      rw [List.length_append,List.length_cons,List.length_cons,List.length_cons,
        List.length_replicate]
      rfl
    rw [Entry.getTagCount,hlength]
    rfl
  have haccept : openListener.shouldAcceptPublish (.zero 16) 0x01020304=true := by decide
  have hpublishable : kSourcePolicy.isPublishable 0 crowdedStored=true := by
    simp [kSourcePolicy,hcount]
    decide
  have hstored : (run PublishOp.step (Indexed.create 0 true) [crowdedPublish]).sources =
      [⟨.zero 16,[⟨.zero 16,[crowdedStored]⟩]⟩] := by
    rw [run_cons,run_nil]
    unfold PublishOp.step crowdedPublish Listener.process_KADEMLIA2_PUBLISH_SOURCE_REQ
    dsimp only
    rw [readPublish_crowded]
    dsimp only
    rw [haccept,if_neg (by decide),publishedSource_crowded]
    dsimp only
    have hsource : crowdedStored.source=true := rfl
    have hstamp : Indexed.stampSource .source 0 false crowdedStored=crowdedStored := rfl
    rw [if_pos hsource]
    unfold Indexed.addSources Indexed.addSourceEntry
    rw [if_neg (by decide),hstamp]
    dsimp only
    rw [if_neg (by rw [SourceKind.policy,hpublishable]; decide)]
    rfl
  have hmem : crowdedStored ∈
      storedEntries (run PublishOp.step (Indexed.create 0 true) [crowdedPublish]).sources := by
    rw [hstored]
    exact List.mem_singleton_self _
  refine ⟨crowdedStored,hmem,fun hall => ?_⟩
  have hlistable := ((tagLists_correct 0 [crowdedPublish]).2 _ (Or.inl hmem)).mp hall
  have hfits := hlistable.1
  rw [hcount] at hfits
  omega

end Crowded

end EmuleQt.Kademlia
