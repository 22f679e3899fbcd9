import EmuleQt.Kademlia.SourceSlots

namespace EmuleQt.Kademlia

open Framework Net Utils

section Weigh

variable {α : Type}

/-- What the entries of a bucket, of a key and of an index weigh. -/
def Source.weigh (weight : α → Nat) (source : Source α) : Nat := (source.entryList.map weight).sum

def Hash.weigh (weight : α → Nat) (hash : Hash α) : Nat :=
  (hash.sources.map (Source.weigh weight)).sum

def weighIndex (weight : α → Nat) (index : List (Hash α)) : Nat :=
  (index.map (Hash.weigh weight)).sum

/-- No key without buckets and no bucket without entries. -/
def Tidy (index : List (Hash α)) : Prop :=
  ∀ hash ∈ index, hash.sources ≠ [] ∧ ∀ source ∈ hash.sources, source.entryList ≠ []

variable {σ : Type} {visit : α → σ → Option α × σ} {weight : α → Nat} {total : σ → Nat}

section Conserves

variable (hvisit : ∀ e s, weight e≤total s →
  total (visit e s).2+weight e=total s+((visit e s).1.toList.map weight).sum)
include hvisit

theorem cleanSource_conserves (source : Source α) (s : σ) (h : source.weigh weight≤total s) :
    total (cleanSource visit source s).2+source.weigh weight =
      total s+((cleanSource visit source s).1.toList.map (Source.weigh weight)).sum := by
  have hsweep := sweep_conserves hvisit h
  unfold cleanSource Source.weigh
  dsimp only
  rw [hsweep]
  by_cases hempty : (sweep visit source.entryList s).1.isEmpty=true
  · rw [if_pos hempty,List.isEmpty_iff.mp hempty]
    rfl
  · rw [if_neg hempty]
    simp

theorem cleanHash_conserves (hash : Hash α) (s : σ) (h : hash.weigh weight≤total s) :
    total (cleanHash visit hash s).2+hash.weigh weight =
      total s+((cleanHash visit hash s).1.toList.map (Hash.weigh weight)).sum := by
  have hsweep := sweep_conserves (cleanSource_conserves hvisit) h
  unfold cleanHash Hash.weigh
  dsimp only
  rw [hsweep]
  by_cases hempty : (sweep (cleanSource visit) hash.sources s).1.isEmpty=true
  · rw [if_pos hempty,List.isEmpty_iff.mp hempty]
    rfl
  · rw [if_neg hempty]
    simp

theorem cleanIndex_conserves {index : List (Hash α)} {s : σ}
    (h : weighIndex weight index≤total s) :
    total (cleanIndex visit index s).2+weighIndex weight index =
      total s+weighIndex weight (cleanIndex visit index s).1 :=
  sweep_conserves (cleanHash_conserves hvisit) h

end Conserves

theorem cleanIndex_tidy (index : List (Hash α)) (s : σ) : Tidy (cleanIndex visit index s).1 := by
  intro hash hmem
  obtain ⟨before,-,t,hvisit⟩ := mem_sweep hmem
  unfold cleanHash at hvisit
  dsimp only at hvisit
  split_ifs at hvisit with hempty
  obtain rfl := Option.some.inj hvisit
  refine ⟨by simpa using hempty,fun source hsource => ?_⟩
  obtain ⟨_,-,u,hsourceVisit⟩ := mem_sweep hsource
  unfold cleanSource at hsourceVisit
  dsimp only at hsourceVisit
  split_ifs at hsourceVisit with hnone
  obtain rfl := Option.some.inj hsourceVisit
  simpa using hnone

end Weigh

namespace KeyEntry

/-- The publisher records of an entry in a /24 block. -/
def publishersIn (k : UInt32) (e : KeyEntry) : Nat :=
  (e.publishingIPs.getD []).countP fun p => decide (subnet p.ip=k)

variable {g : Tracking} {k : UInt32} {e : KeyEntry}

theorem adjust_apply (ip : Address) (increase : Bool) :
    adjustGlobalPublishTracking g ip increase k =
      if subnet ip=k then if increase then g k+1 else g k-1 else g k := by
  unfold adjustGlobalPublishTracking
  by_cases h : subnet ip=k
  · rw [h,Function.update_self,if_pos rfl]
  · rw [Function.update_of_ne (Ne.symm h),if_neg h]

theorem destroy_apply : e.destroy g k=g k-e.publishersIn k := by
  unfold destroy publishersIn
  generalize e.publishingIPs.getD []=ips
  induction ips generalizing g with
  | nil => rfl
  | cons p ips ih =>
    rw [List.foldl_cons,ih,adjust_apply,List.countP_cons]
    by_cases h : subnet p.ip=k
    · simp only [h,if_true,decide_true,Bool.false_eq_true,if_false]
      omega
    · simp [h]

theorem track_apply : e.track g k=g k+e.publishersIn k := by
  unfold track publishersIn
  generalize e.publishingIPs.getD []=ips
  induction ips generalizing g with
  | nil => rfl
  | cons p ips ih =>
    rw [List.foldl_cons,ih,adjust_apply,List.countP_cons]
    by_cases h : subnet p.ip=k
    · simp only [h,if_true,decide_true]
      omega
    · simp [h]

theorem countP_eq_sum (ips : List PublishingIP) :
    ips.countP (fun p => decide (subnet p.ip=k)) =
      (ips.map fun p => if subnet p.ip=k then 1 else 0).sum := by
  induction ips with
  | nil => rfl
  | cons p ips ih =>
    rw [List.countP_cons,List.map_cons,List.sum_cons,ih]
    by_cases hp : subnet p.ip=k
    · simp [hp,Nat.add_comm]
    · simp [hp]

theorem visitPublisher_conserves (now : Nat) (p : PublishingIP) (s : AICHHashes × Tracking)
    (h : (if subnet p.ip=k then 1 else 0) ≤ s.2 k) :
    (visitPublisher now p s).2.2 k+(if subnet p.ip=k then 1 else 0) =
      s.2 k+((visitPublisher now p s).1.toList.map fun p =>
        if subnet p.ip=k then 1 else 0).sum := by
  unfold visitPublisher
  by_cases hexpired : p.expired now=true
  · have hadjust := @adjust_apply s.2 k p.ip false
    rw [if_neg Bool.false_ne_true] at hadjust
    rw [if_pos hexpired]
    dsimp only
    rw [hadjust]
    split_ifs at h ⊢
    · exact Nat.sub_add_cancel h
    · rfl
  · rw [if_neg hexpired]
    simp

theorem cleanUpTrackedPublishers_conserves (now : Nat) (h : e.publishersIn k≤g k) :
    (e.cleanUpTrackedPublishers now g).2 k+e.publishersIn k =
      g k+(e.cleanUpTrackedPublishers now g).1.publishersIn k := by
  unfold cleanUpTrackedPublishers
  cases hips : e.publishingIPs with
  | none => rfl
  | some ips =>
    rw [publishersIn,hips,Option.getD_some,countP_eq_sum] at h ⊢
    rw [publishersIn,Option.getD_some,countP_eq_sum]
    exact @sweep_conserves _ _ _ _ _ _ (fun s : AICHHashes × Tracking => s.2 k)
      (visitPublisher_conserves now) ips (e.toAICHHashes, g) h

/-- The records of a list of publishers in a /24 block. -/
def recordsIn (k : UInt32) (ips : List PublishingIP) : Nat :=
  ips.countP fun p => decide (subnet p.ip=k)

theorem recordsIn_append (xs ys : List PublishingIP) :
    recordsIn k (xs++ys)=recordsIn k xs+recordsIn k ys := List.countP_append

theorem recordPublisher_conserves (ips : List PublishingIP) (newHash : List UInt8) (now : Nat)
    (h : recordsIn k ips≤g k) :
    (e.recordPublisher ips newHash now g).2 k+recordsIn k ips =
      g k+(e.recordPublisher ips newHash now g).1.publishersIn k := by
  have hadd := @adjust_apply g k e.address true
  rw [if_pos rfl] at hadd
  have hnew : ∀ idx,recordsIn k [⟨now,e.address,idx⟩]=if subnet e.address=k then 1 else 0 :=
    fun idx => by unfold recordsIn; split_ifs with hk <;> simp [hk]
  unfold recordPublisher
  generalize (if newHash=[] then _ else _ : UInt16 × AICHHashes)=r
  obtain ⟨idx,aich⟩ := r
  have hlist := recordsIn_append (k := k) ips [⟨now,e.address,idx⟩]
  rw [hnew] at hlist
  cases hips : ips++[⟨now,e.address,idx⟩] with
  | nil => simp at hips
  | cons oldest rest =>
    have hrest : recordsIn k (oldest::rest)=recordsIn k rest +
        if subnet oldest.ip=k then 1 else 0 := by
      unfold recordsIn
      rw [List.countP_cons]
      simp
    rw [hips,hrest] at hlist
    dsimp only
    rw [hips]
    dsimp only
    split_ifs
    · have hsub := @adjust_apply (adjustGlobalPublishTracking g e.address true) k oldest.ip false
      rw [if_neg Bool.false_ne_true,hadd] at hsub
      unfold publishersIn
      dsimp only
      rw [hsub,Option.getD_some]
      unfold recordsIn at hlist h ⊢
      split_ifs at hlist ⊢ <;> omega
    · unfold publishersIn
      dsimp only
      rw [hadd,Option.getD_some]
      unfold recordsIn at hlist h hrest ⊢
      rw [hrest]
      split_ifs at hlist ⊢ <;> omega

theorem refreshPublisher_conserves {ips : List PublishingIP} {cur : PublishingIP}
    (hcur : (ips.find? fun p => decide (p.ip=e.address))=some cur) (newHash : List UInt8)
    (now : Nat) : (e.refreshPublisher ips cur newHash now).publishersIn k=recordsIn k ips := by
  have hsum := @eraseP_sum _ ips (fun p => decide (p.ip=e.address))
    fun p => if subnet p.ip=k then 1 else 0
  have hlist := recordsIn_append (k := k) (ips.eraseP fun p => decide (p.ip=e.address))
    [{ cur with
      lastPublish := now
      aichHashIdx := (e.toAICHHashes.report cur.aichHashIdx newHash).1 }]
  rw [hcur,Option.elim_some,← countP_eq_sum,← countP_eq_sum] at hsum
  refine Eq.trans hlist ?_
  unfold recordsIn
  rw [← hsum,List.countP_singleton]
  simp

/-- What the old entry leaves behind, once it is deleted. -/
def deleteOld (left : Option KeyEntry) (g : Tracking) : Tracking :=
  (left.map fun old => old.destroy g).getD g

theorem mergeIPsAndFilenames_conserves (lower : QString → QString) (now : Nat)
    {old : Option KeyEntry} (h : old.elim 0 (publishersIn k)≤g k) :
    let r := e.mergeIPsAndFilenames lower now old g
    deleteOld r.2.1 r.2.2 k+(old.elim 0 (publishersIn k)+e.publishersIn k) =
      g k+r.1.publishersIn k := by
  have hdelete : ∀ (o : Option KeyEntry) (g : Tracking),
      deleteOld o g k=g k-o.elim 0 (publishersIn k) := by
    rintro (_ | o) g
    · rfl
    · exact destroy_apply
  dsimp only
  rw [hdelete]
  unfold mergeIPsAndFilenames
  by_cases hmerged : e.publishingIPs.isSome=true
  · rw [if_pos hmerged]
    dsimp only
    omega
  · have hfresh : e.publishersIn k=0 := by
      rw [publishersIn,Option.not_isSome_iff_eq_none.mp hmerged]
      rfl
    rw [if_neg hmerged,hfresh]
    cases hips : old.bind (·.publishingIPs) with
    | none =>
      have hold : old.elim 0 (publishersIn k)=0 := by
        cases old with
        | none => rfl
        | some o =>
          have ho : o.publishingIPs=none := hips
          rw [Option.elim_some,publishersIn,ho]
          rfl
      have hrecord := @recordPublisher_conserves g k
        { e with aichHashes := [], aichHashPopularity := [] } [] (e.aichHashes.headD []) now
        (Nat.zero_le _)
      rw [hold] at h ⊢
      exact hrecord
    | some ips =>
      obtain ⟨o,rfl,ho⟩ := Option.bind_eq_some_iff.mp hips
      have hold : (some o).elim 0 (publishersIn k)=recordsIn k ips := by
        rw [Option.elim_some,publishersIn,ho]
        rfl
      rw [hold] at h ⊢
      dsimp only
      cases hcur : ips.find? fun p => decide (p.ip=e.address) with
      | some cur =>
        have hrefresh := @refreshPublisher_conserves k
          { e with toAICHHashes := o.toAICHHashes } ips cur hcur (e.aichHashes.headD []) now
        have hsum : g k-0+(recordsIn k ips+0)=g k+recordsIn k ips := by omega
        rw [← hrefresh] at hsum ⊢
        exact hsum
      | none =>
        have hrecord := @recordPublisher_conserves g k
          { e with
            toAICHHashes := o.toAICHHashes
            fileNames := mergeFileNames lower false e.fileNames o.fileNames }
          ips (e.aichHashes.headD []) now h
        exact hrecord

end KeyEntry

section InsertKeyEntry

variable {lower : QString → QString} {now new : Nat} {sourceID : UInt128} {entry : KeyEntry}
  {sources out : List (Source KeyEntry)} {g g' : Tracking}

/-- What the buckets of a key weigh. -/
def weighSources (weight : KeyEntry → Nat) (sources : List (Source KeyEntry)) : Nat :=
  (sources.map (Source.weigh weight)).sum

theorem weigh_replaced (weight : KeyEntry → Nat) (source : Source KeyEntry) (p : KeyEntry → Bool)
    (e : KeyEntry) :
    Source.weigh weight { source with entryList := source.entryList.eraseP p++[e] } +
      (source.entryList.find? p).elim 0 weight=source.weigh weight+weight e := by
  have hsum := @eraseP_sum _ source.entryList p weight
  unfold Source.weigh
  rw [List.map_append,List.sum_append,← hsum]
  simp only [List.map_cons,List.map_nil,List.sum_cons,List.sum_nil]
  omega

theorem insertKeyEntry_some
    (h : insertKeyEntry lower now sourceID entry sources g=some (out, new, g')) :
    ∃ (old : Option KeyEntry) (source : Source KeyEntry),
      let r := entry.mergeIPsAndFilenames lower now old g
      let found := lookupKey Source.sourceID sourceID sources
      g'=KeyEntry.deleteOld r.2.1 r.2.2 ∧
      new=(if old.isNone then 1 else 0) ∧
      out=upsert Source.sourceID sourceID (fun _ => source) sources ∧
      source.entryList≠[] ∧
      ∀ weight,old.elim 0 weight≤found.elim 0 (Source.weigh weight) ∧
        source.weigh weight+old.elim 0 weight =
          found.elim 0 (Source.weigh weight)+weight r.1 := by
  unfold insertKeyEntry at h
  cases hfound : lookupKey Source.sourceID sourceID sources with
  | none =>
    rw [hfound] at h
    have hleft : (entry.mergeIPsAndFilenames lower now none g).2.1=none := by
      unfold KeyEntry.mergeIPsAndFilenames
      split_ifs <;> rfl
    refine ⟨none,⟨sourceID,[(entry.mergeIPsAndFilenames lower now none g).1]⟩,?_⟩
    generalize entry.mergeIPsAndFilenames lower now none g=r at h hleft
    obtain ⟨merged,left,g1⟩ := r
    obtain rfl : left=none := hleft
    obtain ⟨rfl,rfl,rfl⟩ := Option.some.inj h
    exact ⟨rfl,rfl,rfl,by simp,fun weight => ⟨Nat.le_refl 0,by simp [Source.weigh]⟩⟩
  | some source =>
    rw [hfound] at h
    dsimp only at h
    have hnot : ¬(!source.entryList.isEmpty &&
        decide (sources.length>KADEMLIAMAXINDEX-5000))=true := by
      intro hhot
      rw [if_pos hhot] at h
      cases h
    rw [if_neg hnot] at h
    obtain ⟨rfl,rfl,rfl⟩ := Option.some.inj h
    refine ⟨source.entryList.find? fun e => decide (e.size=entry.size),_,rfl,rfl,rfl,
      by simp,fun weight => ⟨?_,weigh_replaced weight source _ _⟩⟩
    rw [Option.elim_some,Source.weigh,
      ← @eraseP_sum _ source.entryList (fun e => decide (e.size=entry.size)) weight]
    exact Nat.le_add_left _ _

theorem insertKeyEntry_conserves
    (h : insertKeyEntry lower now sourceID entry sources g=some (out, new, g')) :
    weighSources (fun _ => 1) out=weighSources (fun _ => 1) sources+new ∧
    ∀ k,weighSources (KeyEntry.publishersIn k) sources≤g k →
      g' k+(weighSources (KeyEntry.publishersIn k) sources+entry.publishersIn k) =
        g k+weighSources (KeyEntry.publishersIn k) out := by
  obtain ⟨old,source,rfl,rfl,rfl,-,hweigh⟩ := insertKeyEntry_some h
  have hupsert := fun weight => @upsert_sum _ _ _ Source.sourceID sourceID (fun _ => source)
    sources (Source.weigh weight)
  constructor
  · have hsum := hupsert fun _ => 1
    obtain ⟨-,hone⟩ := hweigh fun _ => 1
    unfold weighSources
    cases old <;> simp only [Option.elim_none,Option.elim_some,Option.isNone_none,
      Option.isNone_some,if_true,Bool.false_eq_true,if_false] at hone ⊢ <;> omega
  · intro k hle
    have hsum := hupsert (KeyEntry.publishersIn k)
    obtain ⟨hfound,hone⟩ := hweigh (KeyEntry.publishersIn k)
    have hold : old.elim 0 (KeyEntry.publishersIn k)≤g k :=
      hfound.trans ((lookupKey_le _).trans hle)
    have hmerge := @KeyEntry.mergeIPsAndFilenames_conserves g k entry lower now old hold
    unfold weighSources
    omega

end InsertKeyEntry

section StoredEntries

variable {α : Type}

/-- All entries of an index. -/
def storedEntries (index : List (Hash α)) : List α :=
  index.flatMap fun hash => hash.sources.flatMap fun source => source.entryList

theorem storedEntries_sum (weight : α → Nat) (index : List (Hash α)) :
    ((storedEntries index).map weight).sum=weighIndex weight index := by
  unfold storedEntries weighIndex
  induction index with
  | nil => rfl
  | cons hash index ih =>
    rw [List.flatMap_cons,List.map_append,List.sum_append,ih,List.map_cons,List.sum_cons]
    congr 1
    unfold Hash.weigh
    generalize hash.sources=sources
    induction sources with
    | nil => rfl
    | cons source sources ihs =>
      rw [List.flatMap_cons,List.map_append,List.sum_append,ihs,List.map_cons,List.sum_cons]
      rfl

theorem storedEntries_length (index : List (Hash α)) :
    (storedEntries index).length=weighIndex (fun _ => 1) index := by
  rw [← storedEntries_sum]
  simp

theorem weighIndex_update (weight : α → Nat) {index : List (Hash α)} {keyID : UInt128}
    {sources : List (Source α)} :
    weighIndex weight (upsert Hash.keyID keyID (fun _ => ⟨keyID,sources⟩) index) +
        (((lookupKey Hash.keyID keyID index).map fun hash => hash.sources).getD []
          |>.map (Source.weigh weight)).sum =
      weighIndex weight index+(sources.map (Source.weigh weight)).sum := by
  have hsum := @upsert_sum _ _ _ Hash.keyID keyID (fun _ => ⟨keyID,sources⟩) index
  unfold weighIndex
  rw [show (sources.map (Source.weigh weight)).sum=Hash.weigh weight ⟨keyID,sources⟩ from rfl,
    ← hsum]
  cases lookupKey Hash.keyID keyID index <;> rfl

theorem Tidy.update {index : List (Hash α)} (h : Tidy index) {keyID : UInt128}
    {sources : List (Source α)} (hne : sources≠[])
    (hsources : ∀ source∈sources,source.entryList≠[]) :
    Tidy (upsert Hash.keyID keyID (fun _ => ⟨keyID,sources⟩) index) := by
  intro hash hmem
  rcases mem_upsert hmem with rfl | hold
  · exact ⟨hne,hsources⟩
  · exact h hash hold

end StoredEntries

namespace Indexed

variable {s : Indexed} {k : SourceKind}

theorem weigh_one {α : Type} (source : Source α) :
    source.weigh (fun _ => 1)=source.entryList.length := by
  simp [Source.weigh]

theorem insertSource_conserves {policy : SourcePolicy} {perFileMax : Nat} {full : Bool}
    {sourceID : UInt128} {entry : Entry} {sources out : List (Source Entry)}
    {counter counter' : Nat} {answer : Answer} (hkey : sources≠[])
    (h : insertSource policy perFileMax full sourceID entry sources counter =
      (answer, out, counter'))
    (hle : (sources.map (Source.weigh fun _ => 1)).sum≤counter) :
    counter'+(sources.map (Source.weigh fun _ => 1)).sum =
      counter+(out.map (Source.weigh fun _ => 1)).sum := by
  rcases insertSource_cases h with
    ⟨before,own,after,rfl,-,-,-,rfl,rfl⟩ |
    ⟨-,⟨-,-,rfl,rfl⟩ | ⟨-,rfl,rfl⟩ | ⟨-,-,rfl,rfl⟩⟩
  · simp only [List.map_append,List.map_cons,List.sum_append,List.sum_cons,weigh_one,
      List.length_singleton] at hle ⊢
    omega
  · have hlast := List.dropLast_append_getLast hkey
    have hsum := congrArg (fun l => (l.map (Source.weigh fun _ : Entry => 1)).sum) hlast
    simp only [List.map_append,List.sum_append,List.map_cons,List.map_nil,List.sum_cons,
      List.sum_nil,weigh_one] at hsum
    rw [List.getLast?_eq_getLast_of_ne_nil hkey,Option.map_some,Option.getD_some,List.map_cons,
      List.sum_cons,weigh_one,List.length_singleton]
    omega
  · rfl
  · rw [List.map_cons,List.sum_cons,weigh_one,List.length_singleton]
    omega

theorem insertSource_tidy {policy : SourcePolicy} {perFileMax : Nat} {full : Bool}
    {sourceID : UInt128} {entry : Entry} {sources out : List (Source Entry)}
    {counter counter' : Nat} {answer : Answer} (hkey : sources≠[])
    (h : insertSource policy perFileMax full sourceID entry sources counter =
      (answer, out, counter'))
    (htidy : ∀ source∈sources,source.entryList≠[]) :
    out≠[] ∧ ∀ source∈out,source.entryList≠[] := by
  have hnew : (⟨sourceID,[entry]⟩ : Source Entry).entryList≠[] := by simp
  rcases insertSource_cases h with
    ⟨before,own,after,rfl,-,-,-,rfl,-⟩ | ⟨-,⟨-,-,rfl,-⟩ | ⟨-,rfl,-⟩ | ⟨-,-,rfl,-⟩⟩
  · refine ⟨by simp,fun source hs => ?_⟩
    rcases List.mem_append.mp hs with hs | hs
    · exact htidy source (List.mem_append_left _ hs)
    · rcases List.mem_cons.mp hs with rfl | hs
      · exact hnew
      · exact htidy source (List.mem_append_right _ (List.mem_cons_of_mem own hs))
  · exact ⟨by simp,List.forall_mem_cons.mpr
      ⟨hnew,fun source hs => htidy source ((List.dropLast_sublist sources).subset hs)⟩⟩
  · exact ⟨hkey,htidy⟩
  · exact ⟨by simp,List.forall_mem_cons.mpr ⟨hnew,htidy⟩⟩

/-- The counters say what is stored; `extra` publishers belong to an entry not yet in the index. -/
structure Counted (extra : Tracking) (s : Indexed) : Prop where
  keyword : s.totalIndexKeyword = weighIndex (fun _ => 1) s.keywords
  sources : ∀ k : SourceKind, k.counter s = weighIndex (fun _ => 1) (k.index s)
  tidyKeywords : Tidy s.keywords
  tidySources : ∀ k : SourceKind, Tidy (k.index s)
  publishers : ∀ block, s.globalPublishIPs block =
    weighIndex (KeyEntry.publishersIn block) s.keywords + extra block

variable {extra : Tracking}

theorem Counted.reschedule (h : Counted extra s) (nextClean nextForcedClean : Nat)
    (dataLoaded : Bool) :
    Counted extra { s with nextClean, nextForcedClean, dataLoaded } := by
  refine ⟨h.keyword,fun k => ?_,h.tidyKeywords,fun k => ?_,h.publishers⟩
  · cases k
    · exact h.sources .source
    · exact h.sources .note
  · cases k
    · exact h.tidySources .source
    · exact h.tidySources .note

theorem Counted.cleanLocked (h : Counted extra s) (now : Nat) :
    Counted extra (cleanLocked now s) := by
  unfold Indexed.cleanLocked
  split_ifs
  · exact h
  · have hkeyword := @cleanIndex_conserves _ _ (visitKeyEntry now) (fun _ => 1) Prod.fst
      (fun e t ht => by
        unfold visitKeyEntry
        split_ifs
        · exact Nat.sub_add_cancel ht
        · rfl) s.keywords (s.totalIndexKeyword, s.globalPublishIPs) h.keyword.ge
    have hpublishers := fun block => @cleanIndex_conserves _ _ (visitKeyEntry now)
      (KeyEntry.publishersIn block) (fun t : Nat × Tracking => t.2 block)
      (fun e t ht => by
        unfold visitKeyEntry
        split_ifs
        · dsimp only
          rw [KeyEntry.destroy_apply]
          exact Nat.sub_add_cancel ht
        · exact KeyEntry.cleanUpTrackedPublishers_conserves now ht) s.keywords
      (s.totalIndexKeyword, s.globalPublishIPs)
      ((Nat.le_add_right _ _).trans (h.publishers block).ge)
    have hentries := fun (index : List (Hash Entry)) (counter : Nat)
        (hcounter : counter=weighIndex (fun _ => 1) index) =>
      @cleanIndex_conserves _ _ (visitEntry now) (fun _ => 1) id
        (fun e t ht => by
          unfold visitEntry
          split_ifs
          · exact Nat.sub_add_cancel ht
          · rfl) index counter hcounter.ge
    refine ⟨?_,?_,cleanIndex_tidy _ _,?_,fun block => ?_⟩
    · refine Nat.add_right_cancel (hkeyword.trans ?_)
      rw [← h.keyword]
      exact Nat.add_comm _ _
    · rintro (_ | _)
      · refine Nat.add_right_cancel ((hentries s.sources _ (h.sources .source)).trans ?_)
        exact (Nat.add_comm _ _).trans (congrArg _ (h.sources .source))
      · refine Nat.add_right_cancel ((hentries s.notes _ (h.sources .note)).trans ?_)
        exact (Nat.add_comm _ _).trans (congrArg _ (h.sources .note))
    · rintro (_ | _) <;> exact cleanIndex_tidy _ _
    · refine Nat.add_right_cancel ((hpublishers block).trans ?_)
      dsimp only
      rw [h.publishers]
      omega

theorem counter_set_self (index : List (Hash Entry)) (counter : Nat) :
    k.counter (k.set index counter s)=counter := by
  cases k <;> rfl

theorem counter_set_ne {k' : SourceKind} (index : List (Hash Entry)) (counter : Nat) (h : k'≠k) :
    k'.counter (k.set index counter s)=k'.counter s := by
  cases k <;> cases k' <;> first | rfl | exact absurd rfl h

theorem Counted.set (h : Counted extra s) {index : List (Hash Entry)} {counter : Nat}
    (hcounter : counter=weighIndex (fun _ => 1) index) (htidy : Tidy index) :
    Counted extra (k.set index counter s) := by
  have hkeywords : (k.set index counter s).keywords=s.keywords ∧
      (k.set index counter s).totalIndexKeyword=s.totalIndexKeyword ∧
      (k.set index counter s).globalPublishIPs=s.globalPublishIPs := by
    cases k <;> exact ⟨rfl,rfl,rfl⟩
  obtain ⟨hkeys,htotal,hglobal⟩ := hkeywords
  refine ⟨by rw [htotal,hkeys]; exact h.keyword,fun k' => ?_,by rw [hkeys]; exact h.tidyKeywords,
    fun k' => ?_,by rw [hglobal,hkeys]; exact h.publishers⟩
  · by_cases hk : k'=k
    · subst hk
      rw [counter_set_self,index_set_self,hcounter]
    · rw [counter_set_ne _ _ hk,index_set_ne _ _ hk]
      exact h.sources k'
  · by_cases hk : k'=k
    · subst hk
      rw [index_set_self]
      exact htidy
    · rw [index_set_ne _ _ hk]
      exact h.tidySources k'

theorem Counted.storeSource (h : Counted extra s) (keyID sourceID : UInt128) (entry : Entry) :
    Counted extra (storeSource k keyID sourceID entry s).2 := by
  have hcounter := h.sources k
  unfold Indexed.storeSource
  cases hfound : lookupKey Hash.keyID keyID (k.index s) with
  | none =>
    dsimp only
    split_ifs
    · exact h
    · have hsum := @weighIndex_update _ (fun _ => 1) (k.index s) keyID [⟨sourceID,[entry]⟩]
      rw [hfound] at hsum
      refine h.set ?_ ((h.tidySources k).update (by simp) (by simp))
      simp only [Option.map_none,Option.getD_none,List.map_nil,List.sum_nil,List.map_cons,
        List.sum_cons,weigh_one,List.length_singleton] at hsum
      omega
  | some hash =>
    obtain ⟨hne,hfull⟩ := h.tidySources k hash (lookupKey_mem hfound).1
    dsimp only
    generalize hinsert : insertSource k.policy k.perFileMax _ sourceID entry hash.sources _ = r
    obtain ⟨answer,out,counter⟩ := r
    obtain ⟨hout,htidy⟩ := insertSource_tidy hne hinsert hfull
    have hsum := @weighIndex_update _ (fun _ => 1) (k.index s) keyID out
    have hle := @lookupKey_le _ _ _ Hash.keyID keyID (k.index s) (Hash.weigh fun _ => 1)
    rw [hfound] at hsum hle
    have hinserted := insertSource_conserves hne hinsert (by rw [hcounter]; exact hle)
    refine h.set ?_ ((h.tidySources k).update hout htidy)
    simp only [Option.map_some,Option.getD_some] at hsum
    dsimp only
    omega

theorem Counted.addSourceEntry (h : Counted extra s) (now : Nat) (keyID sourceID : UInt128)
    (entry : Entry) (fromFile : Bool) :
    Counted extra (addSourceEntry k now keyID sourceID entry fromFile s).2 := by
  unfold Indexed.addSourceEntry
  dsimp only
  split_ifs
  · exact h
  · refine Counted.storeSource ?_ keyID sourceID _
    unfold forcedClean
    split_ifs
    · exact (h.reschedule 0 (now+60) s.dataLoaded).cleanLocked now
    · exact h

theorem Counted.merged {lower : QString → QString} {now new : Nat}
    {keyID sourceID : UInt128} {entry : KeyEntry} {out : List (Source KeyEntry)} {g : Tracking}
    (h : Counted extra s) (hextra : ∀ block,entry.publishersIn block=extra block)
    (hinsert : insertKeyEntry lower now sourceID entry
      (((lookupKey Hash.keyID keyID s.keywords).map fun keyHash => keyHash.sources).getD [])
      s.globalPublishIPs=some (out, new, g)) :
    Counted (fun _ => 0) { s with
      keywords := upsert Hash.keyID keyID (fun _ => ⟨keyID,out⟩) s.keywords
      totalIndexKeyword := s.totalIndexKeyword+new
      globalPublishIPs := g } := by
  obtain ⟨hcount,hpublishers⟩ := insertKeyEntry_conserves hinsert
  obtain ⟨_,source,-,-,rfl,hsource,-⟩ := insertKeyEntry_some hinsert
  have hupdate := fun weight => @weighIndex_update _ weight s.keywords keyID
    (upsert Source.sourceID sourceID (fun _ => source)
      (((lookupKey Hash.keyID keyID s.keywords).map fun keyHash => keyHash.sources).getD []))
  have hle : ∀ weight,weighSources weight
      (((lookupKey Hash.keyID keyID s.keywords).map fun keyHash => keyHash.sources).getD []) ≤
        weighIndex weight s.keywords := by
    intro weight
    refine le_trans (le_of_eq ?_)
      (@lookupKey_le _ _ _ Hash.keyID keyID s.keywords (Hash.weigh weight))
    cases lookupKey Hash.keyID keyID s.keywords <;> rfl
  have htidy : ∀ b∈((lookupKey Hash.keyID keyID s.keywords).map fun keyHash =>
      keyHash.sources).getD [], b.entryList≠[] := by
    cases hfound : lookupKey Hash.keyID keyID s.keywords with
    | none => simp
    | some hash => exact (h.tidyKeywords hash (lookupKey_mem hfound).1).2
  refine ⟨?_,fun k => ?_,h.tidyKeywords.update ?_ fun b hb => ?_,fun k => ?_,fun block => ?_⟩
  · have hone := hupdate fun _ => 1
    have hkeyword := h.keyword
    unfold weighSources at hcount
    dsimp only
    omega
  · cases k
    · exact h.sources .source
    · exact h.sources .note
  · exact upsert_ne_nil
  · rcases mem_upsert hb with rfl | hold
    · exact hsource
    · exact htidy b hold
  · cases k
    · exact h.tidySources .source
    · exact h.tidySources .note
  · have hblock := hupdate (KeyEntry.publishersIn block)
    have hglobal := h.publishers block
    have hle := hle (KeyEntry.publishersIn block)
    have hsum := hpublishers block (by omega)
    rw [hextra] at hsum
    unfold weighSources at hsum
    dsimp only
    omega

theorem Counted.addKeywordLocked {lower : QString → QString} {now : Nat} {keyID sourceID : UInt128}
    {entry : KeyEntry} {fromFile : Bool}
    (h : Counted (fun block => entry.publishersIn block) s) :
    ((addKeywordLocked lower now keyID sourceID entry fromFile s).1.accepted=true →
      Counted (fun _ => 0) (addKeywordLocked lower now keyID sourceID entry fromFile s).2) ∧
    ((addKeywordLocked lower now keyID sourceID entry fromFile s).1.accepted=false →
      (addKeywordLocked lower now keyID sourceID entry fromFile s).2=s) := by
  unfold Indexed.addKeywordLocked
  have hstamp : ∀ block,(stampKeyEntry now fromFile entry).publishersIn block =
      entry.publishersIn block := by
    intro block
    unfold stampKeyEntry
    split_ifs <;> rfl
  by_cases hfull : s.totalIndexKeyword>KADEMLIAMAXENTRIES
  · rw [if_pos hfull]
    exact ⟨fun hno => absurd hno (by simp),fun _ => rfl⟩
  rw [if_neg hfull]
  dsimp only
  by_cases hbad : unservable now (stampKeyEntry now fromFile entry)=true
  · rw [if_pos hbad]
    exact ⟨fun hno => absurd hno (by simp),fun _ => rfl⟩
  rw [if_neg hbad]
  split_ifs
  · exact ⟨fun hno => absurd hno (by simp),fun _ => rfl⟩
  cases hinsert : insertKeyEntry lower now sourceID (stampKeyEntry now fromFile entry)
      (((lookupKey Hash.keyID keyID s.keywords).map fun keyHash => keyHash.sources).getD [])
      s.globalPublishIPs with
  | none => exact ⟨fun hno => absurd hno (by simp),fun _ => rfl⟩
  | some r =>
    refine ⟨fun _ => ?_,fun hno => absurd hno (by simp)⟩
    exact h.merged hstamp hinsert

variable {lower : QString → QString}

theorem Counted.retrack (h : Counted extra s) {g extra' : Tracking}
    (hg : ∀ block,g block+extra block=s.globalPublishIPs block+extra' block) :
    Counted extra' { s with globalPublishIPs := g } := by
  refine ⟨h.keyword,fun k => ?_,h.tidyKeywords,fun k => ?_,fun block => ?_⟩
  · cases k
    · exact h.sources .source
    · exact h.sources .note
  · cases k
    · exact h.tidySources .source
    · exact h.tidySources .note
  · have hblock := hg block
    rw [h.publishers] at hblock
    dsimp only
    omega

theorem Counted.loadKeyword (h : Counted (fun _ => 0) s) (now : Nat) (keyID sourceID : UInt128)
    (entry : KeyEntry) : Counted (fun _ => 0) (loadKeyword lower now keyID sourceID entry s) := by
  have htracked : Counted (fun block => entry.publishersIn block)
      { s with globalPublishIPs := entry.track s.globalPublishIPs } :=
    h.retrack fun block => KeyEntry.track_apply
  obtain ⟨haccepted,hrefused⟩ := @Counted.addKeywordLocked _ lower now keyID sourceID entry true
    htracked
  unfold Indexed.loadKeyword
  dsimp only
  split_ifs with hyes
  · exact haccepted hyes
  · rw [hrefused (by simpa using hyes)]
    refine htracked.retrack fun block => ?_
    have htrack := @KeyEntry.track_apply s.globalPublishIPs block entry
    dsimp only
    rw [KeyEntry.destroy_apply]
    omega

theorem Counted.addKeyword (h : Counted (fun _ => 0) s) (now : Nat) (keyID sourceID : UInt128)
    {entry : KeyEntry} (hfresh : entry.publishingIPs=none) :
    Counted (fun _ => 0) (addKeyword lower now keyID sourceID entry s).2 := by
  have hextra : (fun block => entry.publishersIn block)=fun _ => 0 := by
    funext block
    rw [KeyEntry.publishersIn,hfresh]
    rfl
  obtain ⟨haccepted,hrefused⟩ := @Counted.addKeywordLocked s lower now keyID sourceID entry false
    (by rwa [hextra])
  unfold Indexed.addKeyword
  split_ifs
  · exact h
  · by_cases hyes : (Indexed.addKeywordLocked lower now keyID sourceID entry false s).1.accepted
        = true
    · exact haccepted hyes
    · rw [hrefused (by simpa using hyes)]
      exact h

theorem Counted.clean (h : Counted extra s) (now : Nat) (force : Bool) :
    Counted extra (clean now force s) := by
  unfold Indexed.clean
  by_cases hloading : (!s.dataLoaded)=true
  · rw [if_pos hloading]
    exact h
  · rw [if_neg hloading]
    refine Counted.cleanLocked ?_ now
    split_ifs
    · exact h.reschedule 0 _ _
    · exact h

theorem Counted.step (h : Counted (fun _ => 0) s) (op : Op) :
    Counted (fun _ => 0) (step lower s op) := by
  cases op with
  | addKeyword now keyID sourceID entry => exact h.addKeyword now keyID sourceID rfl
  | addSources now keyID sourceID entry =>
    unfold Indexed.step addSources
    split_ifs
    · exact h
    · exact h.addSourceEntry now keyID sourceID entry false
  | addNotes now keyID sourceID entry =>
    unfold Indexed.step addNotes
    split_ifs
    · exact h
    · exact h.addSourceEntry now keyID sourceID entry false
  | loadKeyword now keyID sourceID entry => exact h.loadKeyword now keyID sourceID entry
  | loadSource now keyID sourceID entry => exact h.addSourceEntry now keyID sourceID entry true
  | finishLoad => exact h.reschedule _ _ true
  | clean now force => exact h.clean now force

theorem counted_create (now : Nat) (dataLoaded : Bool) :
    Counted (fun _ => 0) (create now dataLoaded) := by
  refine ⟨rfl,fun k => ?_,by simp [Tidy,create],fun k => ?_,fun _ => rfl⟩
  · cases k <;> rfl
  · cases k <;> simp [Tidy,create,SourceKind.index]

/-- Over every run the totals are the numbers of stored entries, nothing stored is empty, and the
tracking counts the publisher records of the stored keyword entries. -/
theorem counters_correct (lower : QString → QString) (now : Nat) (dataLoaded : Bool)
    (ops : List Op) :
    let s := run (step lower) (create now dataLoaded) ops
    s.totalIndexKeyword=(storedEntries s.keywords).length ∧
    s.totalIndexSource=(storedEntries s.sources).length ∧
    s.totalIndexNotes=(storedEntries s.notes).length ∧
    Tidy s.keywords ∧ Tidy s.sources ∧ Tidy s.notes ∧
    ∀ block,s.globalPublishIPs block =
      ((storedEntries s.keywords).map (KeyEntry.publishersIn block)).sum := by
  have hcounted : Counted (fun _ => 0) (run (step lower) (create now dataLoaded) ops) :=
    run_invariant (fun s op h _ => h.step op) (counted_create now dataLoaded)
      (along_true (step lower) _ ops)
  obtain ⟨hkeyword,hsources,htidy,htidySources,hpublishers⟩ := hcounted
  dsimp only
  simp only [storedEntries_length,storedEntries_sum]
  exact ⟨hkeyword,hsources .source,hsources .note,htidy,htidySources .source,
    htidySources .note,hpublishers⟩

end Indexed

end EmuleQt.Kademlia
