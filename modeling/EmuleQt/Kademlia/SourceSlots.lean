import EmuleQt.Framework.Run
import EmuleQt.Kademlia.Indexed

namespace EmuleQt.Kademlia

open Framework Utils

/-- No two buckets hold records of one publisher. -/
def DistinctPublishers (policy : SourcePolicy) (sources : List (Source Entry)) : Prop :=
  sources.Pairwise fun a b =>
    ∀ x∈a.entryList, ∀ y∈b.entryList, policy.isSamePublisher x y=false

/-- Each bucket holds one record. -/
def SingleRecords (sources : List (Source Entry)) : Prop :=
  ∀ source∈sources, ∃ e, source.entryList=[e]

theorem isSamePublisher_comm (k : SourceKind) (x y : Entry) :
    k.policy.isSamePublisher x y=k.policy.isSamePublisher y x := by
  cases k <;>
    simp only [SourceKind.policy,kSourcePolicy,kNotePolicy,eq_comm (a := x.address),
      eq_comm (a := x.tcpPort),eq_comm (a := x.udpPort),eq_comm (a := x.sourceID)]

section ReplaceOwn

variable {policy : SourcePolicy} {sourceID : UInt128} {entry : Entry}
  {sources : List (Source Entry)}

theorem replaceOwn_eq_none :
    replaceOwn policy sourceID entry sources=none ↔
      ∀ source∈sources,source.owned policy entry=false := by
  induction sources with
  | nil => simp [replaceOwn]
  | cons source sources ih =>
    rw [replaceOwn,List.forall_mem_cons]
    by_cases h : source.owned policy entry=true
    · simp [h]
    · rw [if_neg h,Option.map_eq_none_iff,ih]
      simp [h]

theorem replaceOwn_some {n : Nat} {out : List (Source Entry)}
    (h : replaceOwn policy sourceID entry sources=some (n, out)) :
    ∃ before own after, sources=before++own::after ∧ own.owned policy entry=true ∧
      (∀ source∈before,source.owned policy entry=false) ∧ n=own.entryList.length ∧
      out=before++⟨sourceID,[entry]⟩::after := by
  induction sources generalizing n out with
  | nil => cases h
  | cons source sources ih =>
    rw [replaceOwn] at h
    split_ifs at h with hown
    · obtain ⟨rfl,rfl⟩ := Prod.mk.inj (Option.some.inj h)
      exact ⟨[],source,sources,rfl,hown,by simp,rfl,rfl⟩
    · obtain ⟨⟨m,rest⟩,hrest,heq⟩ := Option.map_eq_some_iff.mp h
      obtain ⟨rfl,rfl⟩ := Prod.mk.inj heq
      obtain ⟨before,own,after,rfl,hisown,hbefore,hlen,rfl⟩ := ih hrest
      refine ⟨source::before,own,after,rfl,hisown,?_,hlen,rfl⟩
      exact List.forall_mem_cons.mpr ⟨by simpa using hown,hbefore⟩

theorem insertSource_cases {perFileMax : Nat} {full : Bool} {counter : Nat} {answer : Answer}
    {out : List (Source Entry)} {counter' : Nat}
    (h : insertSource policy perFileMax full sourceID entry sources counter =
      (answer, out, counter')) :
    (∃ before own after, sources=before++own::after ∧ own.owned policy entry=true ∧
      (∀ source∈before,source.owned policy entry=false) ∧ answer.accepted=true ∧
      out=before++⟨sourceID,[entry]⟩::after ∧
      counter'=counter-own.entryList.length+1) ∨
    ((∀ source∈sources,source.owned policy entry=false) ∧
      ((perFileMax ≤ sources.length ∧ answer.accepted=true ∧
          out=⟨sourceID,[entry]⟩::sources.dropLast ∧
          counter'=counter -
            (sources.getLast?.map fun oldest => oldest.entryList.length).getD 0+1) ∨
        (answer.accepted=false ∧ out=sources ∧ counter'=counter) ∨
        (sources.length<perFileMax ∧ answer.accepted=true ∧
          out=⟨sourceID,[entry]⟩::sources ∧ counter'=counter+1))) := by
  unfold insertSource at h
  cases hown : replaceOwn policy sourceID entry sources with
  | some found =>
    obtain ⟨n,out'⟩ := found
    rw [hown] at h
    obtain ⟨rfl,rfl,rfl⟩ := h
    obtain ⟨before,own,after,hsources,hisown,hbefore,rfl,hout⟩ := replaceOwn_some hown
    exact Or.inl ⟨before,own,after,hsources,hisown,hbefore,rfl,hout,rfl⟩
  | none =>
    rw [hown] at h
    refine Or.inr ⟨replaceOwn_eq_none.mp hown,?_⟩
    dsimp only at h
    split_ifs at h with hmax hfull <;> obtain ⟨rfl,rfl,rfl⟩ := h
    · exact Or.inl ⟨hmax,rfl,rfl,rfl⟩
    · exact Or.inr (Or.inl ⟨rfl,rfl,rfl⟩)
    · exact Or.inr (Or.inr ⟨Nat.not_le.mp hmax,rfl,rfl,rfl⟩)

end ReplaceOwn

theorem owned_eq_false {policy : SourcePolicy} {entry : Entry} {source : Source Entry}
    (h : ∃ e, source.entryList=[e]) :
    source.owned policy entry=false ↔
      ∀ x∈source.entryList,policy.isSamePublisher x entry=false := by
  obtain ⟨e,he⟩ := h
  unfold Source.owned
  rw [he]
  simp

theorem DistinctPublishers.sublist {policy : SourcePolicy} {xs ys : List (Source Entry)}
    (h : DistinctPublishers policy ys) (hsub : xs.Sublist ys) : DistinctPublishers policy xs :=
  List.Pairwise.sublist hsub h

/-- What is proved of the buckets of one key. -/
structure Slots (k : SourceKind) (sources : List (Source Entry)) : Prop where
  distinct : DistinctPublishers k.policy sources
  single : SingleRecords sources
  bounded : sources.length ≤ k.perFileMax

theorem Slots.sublist {k : SourceKind} {xs ys : List (Source Entry)} (h : Slots k ys)
    (hsub : xs.Sublist ys) : Slots k xs :=
  ⟨h.distinct.sublist hsub,fun source hs => h.single source (hsub.subset hs),
    hsub.length_le.trans h.bounded⟩

section Insert

variable {k : SourceKind} {sourceID : UInt128} {entry : Entry} {sources out : List (Source Entry)}

theorem distinct_cons (hsingle : SingleRecords sources) :
    DistinctPublishers k.policy (⟨sourceID,[entry]⟩::sources) ↔
      DistinctPublishers k.policy sources ∧
        ∀ source∈sources,source.owned k.policy entry=false := by
  unfold DistinctPublishers
  rw [List.pairwise_cons,and_comm]
  refine and_congr_right fun _ => forall₂_congr fun source hs => ?_
  rw [owned_eq_false (hsingle source hs)]
  simp only [List.mem_singleton,forall_eq,isSamePublisher_comm k entry]

theorem countP_owned_eq_zero {policy : SourcePolicy} :
    sources.countP (fun s => s.owned policy entry)=0 ↔
      ∀ source∈sources,source.owned policy entry=false := by
  simp only [List.countP_eq_zero,Bool.not_eq_true]

/-- After an accepted publish the publishers are still distinct exactly when no second bucket is
the publisher's. -/
theorem insertSource_slots {full : Bool} {counter counter' : Nat} {answer : Answer}
    (hslots : Slots k sources) (hkey : sources≠[])
    (h : insertSource k.policy k.perFileMax full sourceID entry sources counter =
      (answer, out, counter')) :
    (answer.accepted=false → out=sources) ∧
    (answer.accepted=true → SingleRecords out ∧ out.length≤k.perFileMax ∧
      (⟨sourceID,[entry]⟩ : Source Entry)∈out ∧
      (DistinctPublishers k.policy out ↔
        sources.countP (fun s => s.owned k.policy entry)≤1)) ∧
    (answer.accepted=false → sources.countP (fun s => s.owned k.policy entry)=0) := by
  obtain ⟨hdistinct,hsingle,hbounded⟩ := hslots
  rcases insertSource_cases h with
    ⟨before,own,after,rfl,hown,hbefore,haccepted,rfl,-⟩ |
    ⟨hnone,⟨hmax,haccepted,rfl,-⟩ | ⟨hrefused,rfl,-⟩ | ⟨hmax,haccepted,rfl,-⟩⟩
  · refine ⟨fun hno => by simp [haccepted] at hno,fun _ => ?_,
      fun hno => by simp [haccepted] at hno⟩
    have hsub : (before++after).Sublist (before++own::after) :=
      (List.Sublist.refl before).append (List.sublist_cons_self own after)
    have hsingle' : SingleRecords (before++after) := fun s hs => hsingle s (hsub.subset hs)
    have hcount : (before++own::after).countP (fun s => s.owned k.policy entry) =
        after.countP (fun s => s.owned k.policy entry)+1 := by
      rw [List.countP_append,List.countP_cons_of_pos hown,countP_owned_eq_zero.mpr hbefore,
        Nat.zero_add]
    refine ⟨?_,by simpa using hbounded,by simp,?_⟩
    · intro s hs
      rcases List.mem_append.mp hs with hs | hs
      · exact hsingle s (List.mem_append_left _ hs)
      · rcases List.mem_cons.mp hs with rfl | hs
        · exact ⟨entry,rfl⟩
        · exact hsingle s (List.mem_append_right _ (List.mem_cons_of_mem own hs))
    · have hperm : (before++⟨sourceID,[entry]⟩::after).Perm
          (⟨sourceID,[entry]⟩::(before++after)) := List.perm_middle
      have hsymm : ∀ {a b : Source Entry},
          (∀ x∈a.entryList,∀ y∈b.entryList,k.policy.isSamePublisher x y=false) →
            ∀ x∈b.entryList,∀ y∈a.entryList,k.policy.isSamePublisher x y=false :=
        fun hab x hx y hy => by rw [isSamePublisher_comm]; exact hab y hy x hx
      rw [DistinctPublishers,hperm.pairwise_iff hsymm,← DistinctPublishers,
        distinct_cons hsingle',hcount]
      constructor
      · rintro ⟨-,hafter⟩
        have hzero : after.countP (fun s => s.owned k.policy entry)=0 :=
          countP_owned_eq_zero.mpr fun s hs => hafter s (List.mem_append_right _ hs)
        omega
      · intro hle
        have hzero : after.countP (fun s => s.owned k.policy entry)=0 := by omega
        refine ⟨hdistinct.sublist hsub,fun s hs => ?_⟩
        rcases List.mem_append.mp hs with hs | hs
        · exact hbefore s hs
        · exact countP_owned_eq_zero.mp hzero s hs
  · refine ⟨fun hno => by simp [haccepted] at hno,fun _ => ?_,
      fun hno => by simp [haccepted] at hno⟩
    have hsub := List.dropLast_sublist sources
    have hsingle' : SingleRecords sources.dropLast := fun s hs => hsingle s (hsub.subset hs)
    have hpos := List.length_pos_iff.mpr hkey
    refine ⟨?_,?_,List.mem_cons_self,?_⟩
    · exact List.forall_mem_cons.mpr ⟨⟨entry,rfl⟩,hsingle'⟩
    · rw [List.length_cons,List.length_dropLast]
      omega
    · rw [distinct_cons hsingle',countP_owned_eq_zero.mpr hnone]
      exact iff_of_true ⟨hdistinct.sublist hsub,fun s hs => hnone s (hsub.subset hs)⟩
        (Nat.zero_le 1)
  · exact ⟨fun _ => rfl,fun hyes => by simp [hrefused] at hyes,
      fun _ => countP_owned_eq_zero.mpr hnone⟩
  · refine ⟨fun hno => by simp [haccepted] at hno,fun _ => ?_,
      fun hno => by simp [haccepted] at hno⟩
    refine ⟨List.forall_mem_cons.mpr ⟨⟨entry,rfl⟩,hsingle⟩,hmax,List.mem_cons_self,?_⟩
    rw [distinct_cons hsingle,countP_owned_eq_zero.mpr hnone]
    exact iff_of_true ⟨hdistinct,hnone⟩ (Nat.zero_le 1)

end Insert

namespace Indexed

variable {s : Indexed} {k k' : SourceKind}

theorem perFileMax_pos (k : SourceKind) : 1≤k.perFileMax := by
  cases k <;> decide

@[simp] theorem index_set_self (index : List (Hash Entry)) (counter : Nat) :
    k.index (k.set index counter s)=index := by
  cases k <;> rfl

theorem index_set_ne (index : List (Hash Entry)) (counter : Nat) (h : k'≠k) :
    k'.index (k.set index counter s)=k'.index s := by
  cases k <;> cases k' <;> first | rfl | exact absurd rfl h

/-- Each key of either index has buckets, and they are in order. -/
def InSlots (s : Indexed) : Prop :=
  ∀ k : SourceKind, ∀ hash∈k.index s, Slots k hash.sources ∧ hash.sources≠[]

/-- The buckets of a key. -/
def bucketsOf (k : SourceKind) (keyID : UInt128) (s : Indexed) : List (Source Entry) :=
  ((lookupKey Hash.keyID keyID (k.index s)).map fun hash => hash.sources).getD []

theorem InSlots.congr {t : Indexed} (h : InSlots s) (hsources : t.sources=s.sources)
    (hnotes : t.notes=s.notes) : InSlots t := by
  have hindex : ∀ k : SourceKind, k.index t=k.index s := by
    rintro (_ | _)
    · exact hsources
    · exact hnotes
  intro k hash hmem
  rw [hindex k] at hmem
  exact h k hash hmem

theorem cleanSource_single (now : Nat) {source : Source Entry}
    (h : ∃ e, source.entryList=[e]) (counter : Nat) :
    (cleanSource (visitEntry now) source counter).1=none ∨
      (cleanSource (visitEntry now) source counter).1=some source := by
  obtain ⟨sourceID,entries⟩ := source
  obtain ⟨e,rfl⟩ : ∃ e, entries=[e] := h
  have hsweep : (sweep (visitEntry now) [e] counter).1=(visitEntry now e counter).1.toList :=
    List.append_nil _
  have hvisit : (visitEntry now e counter).1=none ∨ (visitEntry now e counter).1=some e := by
    unfold visitEntry
    split_ifs <;> simp
  simp only [cleanSource,hsweep]
  rcases hvisit with hv | hv <;> simp [hv]

theorem cleanIndex_slots {now : Nat} {index : List (Hash Entry)} {counter : Nat}
    (h : ∀ hash∈index,Slots k hash.sources ∧ hash.sources≠[]) :
    ∀ hash∈(cleanIndex (visitEntry now) index counter).1,
      Slots k hash.sources ∧ hash.sources≠[] := by
  intro hash hmem
  obtain ⟨before,hbefore,t,hvisit⟩ := mem_sweep hmem
  obtain ⟨hslots,-⟩ := h before hbefore
  unfold cleanHash at hvisit
  dsimp only at hvisit
  split_ifs at hvisit with hempty
  obtain rfl := Option.some.inj hvisit
  refine ⟨hslots.sublist (sweep_sublist fun source hs _ => ?_),by simpa using hempty⟩
  exact cleanSource_single now (hslots.single source hs) _

theorem InSlots.cleanLocked (h : InSlots s) (now : Nat) : InSlots (cleanLocked now s) := by
  unfold Indexed.cleanLocked
  split_ifs
  · exact h
  · rintro (_ | _)
    · exact cleanIndex_slots (h .source)
    · exact cleanIndex_slots (h .note)

theorem InSlots.clean (h : InSlots s) (now : Nat) (force : Bool) : InSlots (clean now force s) := by
  unfold Indexed.clean
  split_ifs
  · exact h
  · refine InSlots.cleanLocked ?_ now
    exact h.congr rfl rfl
  · exact h.cleanLocked now

theorem InSlots.forcedClean (h : InSlots s) (now : Nat) (fromFile : Bool) :
    InSlots (forcedClean k now fromFile s) := by
  unfold Indexed.forcedClean
  split_ifs
  · refine InSlots.cleanLocked ?_ now
    exact h.congr rfl rfl
  · exact h

theorem InSlots.update (h : InSlots s) {keyID : UInt128} {sources : List (Source Entry)}
    (hslots : Slots k sources) (hne : sources≠[]) (counter : Nat) :
    InSlots (k.set (upsert Hash.keyID keyID (fun _ => ⟨keyID,sources⟩) (k.index s)) counter s) := by
  intro k' hash hmem
  by_cases hk : k'=k
  · subst hk
    rw [index_set_self] at hmem
    rcases mem_upsert hmem with rfl | hold
    · exact ⟨hslots,hne⟩
    · exact h k' hash hold
  · rw [index_set_ne _ _ hk] at hmem
    exact h k' hash hmem

theorem bucketsOf_update {keyID : UInt128} {sources : List (Source Entry)} (counter : Nat) :
    bucketsOf k keyID
      (k.set (upsert Hash.keyID keyID (fun _ => ⟨keyID,sources⟩) (k.index s)) counter s) =
        sources := by
  unfold bucketsOf
  rw [index_set_self,lookupKey_upsert_self rfl]
  rfl

theorem addKeywordLocked_sources (lower : QString → QString) (now : Nat) (keyID sourceID : UInt128)
    (entry : KeyEntry) (fromFile : Bool) :
    (addKeywordLocked lower now keyID sourceID entry fromFile s).2.sources=s.sources ∧
      (addKeywordLocked lower now keyID sourceID entry fromFile s).2.notes=s.notes := by
  unfold addKeywordLocked
  split_ifs
  · exact ⟨rfl,rfl⟩
  · dsimp only
    split_ifs
    · exact ⟨rfl,rfl⟩
    · exact ⟨rfl,rfl⟩
    · cases insertKeyEntry lower now sourceID (stampKeyEntry now fromFile entry) _
        s.globalPublishIPs <;> exact ⟨rfl,rfl⟩

namespace SourcePublish

variable (p : SourcePublish)

/-- At most one bucket that the publish meets is its publisher's. -/
def OneMatch (s : Indexed) : Prop :=
  p.publishable=true →
    (bucketsOf p.kind p.keyID (forcedClean p.kind p.now p.fromFile s)).countP
      (fun source => source.owned p.kind.policy p.stored)≤1

/-- An accepted publish is stored, in one of at most so many buckets of different publishers. -/
def Sound (s : Indexed) : Prop :=
  (p.add s).1.accepted = true →
    DistinctPublishers p.kind.policy (bucketsOf p.kind p.keyID (p.add s).2) ∧
    (bucketsOf p.kind p.keyID (p.add s).2).length ≤ p.kind.perFileMax ∧
    (⟨p.sourceID, [p.stored]⟩ : Source Entry) ∈ bucketsOf p.kind p.keyID (p.add s).2

end SourcePublish

theorem storeSource_correct {keyID sourceID : UInt128} {entry : Entry} (h : InSlots s) :
    ((storeSource k keyID sourceID entry s).1.accepted=true →
      (bucketsOf k keyID (storeSource k keyID sourceID entry s).2).length≤k.perFileMax ∧
      (⟨sourceID,[entry]⟩ : Source Entry) ∈
        bucketsOf k keyID (storeSource k keyID sourceID entry s).2 ∧
      (DistinctPublishers k.policy (bucketsOf k keyID (storeSource k keyID sourceID entry s).2) ↔
        (bucketsOf k keyID s).countP (fun source => source.owned k.policy entry)≤1)) ∧
    ((storeSource k keyID sourceID entry s).1.accepted=false →
      (bucketsOf k keyID s).countP (fun source => source.owned k.policy entry)≤1) ∧
    ((bucketsOf k keyID s).countP (fun source => source.owned k.policy entry)≤1 →
      InSlots (storeSource k keyID sourceID entry s).2) := by
  have hone : SingleRecords [(⟨sourceID,[entry]⟩ : Source Entry)] :=
    List.forall_mem_cons.mpr ⟨⟨entry,rfl⟩,by simp⟩
  have hdistinct : DistinctPublishers k.policy [(⟨sourceID,[entry]⟩ : Source Entry)] :=
    List.pairwise_singleton _ _
  unfold storeSource
  cases hfound : lookupKey Hash.keyID keyID (k.index s) with
  | none =>
    have hbuckets : bucketsOf k keyID s=[] := by rw [bucketsOf,hfound]; rfl
    rw [hbuckets]
    dsimp only
    split_ifs
    · exact ⟨fun hno => absurd hno (by simp),fun _ => Nat.zero_le 1,fun _ => h⟩
    · rw [bucketsOf_update]
      refine ⟨fun _ => ⟨perFileMax_pos k,List.mem_cons_self,?_⟩,fun _ => Nat.zero_le 1,
        fun _ => h.update ⟨hdistinct,hone,perFileMax_pos k⟩ (by simp) _⟩
      exact iff_of_true hdistinct (Nat.zero_le 1)
  | some hash =>
    have hbuckets : bucketsOf k keyID s=hash.sources := by rw [bucketsOf,hfound]; rfl
    obtain ⟨hslots,hne⟩ := h k hash (lookupKey_mem hfound).1
    rw [hbuckets]
    dsimp only
    generalize hinsert : insertSource k.policy k.perFileMax _ sourceID entry hash.sources _ = r
    obtain ⟨answer,out,counter⟩ := r
    obtain ⟨hrefused,haccepted,hnone⟩ := insertSource_slots hslots hne hinsert
    rw [bucketsOf_update]
    refine ⟨fun hyes => (haccepted hyes).2,fun hno => by rw [hnone hno]; exact Nat.zero_le 1,
      fun hle => ?_⟩
    by_cases hyes : answer.accepted=true
    · obtain ⟨hsingle,hlen,hmem,hiff⟩ := haccepted hyes
      exact h.update ⟨hiff.mpr hle,hsingle,hlen⟩ (List.ne_nil_of_mem hmem) counter
    · obtain rfl := hrefused (by simpa using hyes)
      exact h.update hslots hne counter

namespace SourcePublish

variable {p : SourcePublish}

theorem add_correct (h : InSlots s) :
    (p.Sound s ↔ p.OneMatch s) ∧ (p.OneMatch s → InSlots (p.add s).2) := by
  by_cases hpub : p.publishable=true
  · have hadd : p.add s=storeSource p.kind p.keyID p.sourceID p.stored
        (forcedClean p.kind p.now p.fromFile s) := by
      unfold add addSourceEntry
      exact if_neg (by rw [← stored,← publishable,hpub]; decide)
    obtain ⟨haccepted,hrefused,hslots⟩ :=
      @storeSource_correct _ p.kind p.keyID p.sourceID p.stored (h.forcedClean p.now p.fromFile)
    unfold Sound OneMatch
    rw [hadd]
    refine ⟨⟨fun hsound _ => ?_,fun hone hyes => ?_⟩,fun hone => hslots (hone hpub)⟩
    · by_cases hyes : (storeSource p.kind p.keyID p.sourceID p.stored
          (forcedClean p.kind p.now p.fromFile s)).1.accepted=true
      · exact (haccepted hyes).2.2.mp (hsound hyes).1
      · exact hrefused (by simpa using hyes)
    · obtain ⟨hlen,hmem,hiff⟩ := haccepted hyes
      exact ⟨hiff.mpr (hone hpub),hlen,hmem⟩
  · have hadd : p.add s=(⟨false,0⟩, s) := by
      unfold add addSourceEntry
      exact if_pos (by rw [← stored,← publishable]; simpa using hpub)
    unfold Sound OneMatch
    rw [hadd]
    exact ⟨iff_of_true (fun hno => absurd hno (by simp)) (fun hyes => absurd hyes hpub),fun _ => h⟩

end SourcePublish

variable {lower : QString → QString}

theorem loadKeyword_sources (now : Nat) (keyID sourceID : UInt128) (entry : KeyEntry) :
    (loadKeyword lower now keyID sourceID entry s).sources=s.sources ∧
      (loadKeyword lower now keyID sourceID entry s).notes=s.notes := by
  have hadd := @addKeywordLocked_sources { s with
    globalPublishIPs := entry.track s.globalPublishIPs } lower now keyID sourceID entry true
  unfold loadKeyword
  dsimp only
  split_ifs
  · exact hadd
  · exact hadd

theorem step_of_publish {op : Op} {p : SourcePublish} (h : op.sourcePublish s=some p) :
    step lower s op=(p.add s).2 := by
  cases op with
  | addSources now keyID sourceID entry =>
    rw [Op.sourcePublish] at h
    split_ifs at h with hloaded
    obtain rfl := Option.some.inj h
    simp [step,addSources,hloaded,SourcePublish.add]
  | addNotes now keyID sourceID entry =>
    rw [Op.sourcePublish] at h
    split_ifs at h with hloaded
    obtain rfl := Option.some.inj h
    simp [step,addNotes,hloaded,SourcePublish.add]
  | loadSource now keyID sourceID entry =>
    obtain rfl := Option.some.inj h
    rfl
  | _ => cases h

theorem step_of_other {op : Op} (hslots : InSlots s) (h : op.sourcePublish s=none) :
    InSlots (step lower s op) := by
  cases op with
  | addKeyword now keyID sourceID entry =>
    unfold step addKeyword
    split_ifs
    · exact hslots
    · have hadd := @addKeywordLocked_sources s lower now keyID sourceID
        { entry with publishingIPs := none } false
      exact hslots.congr hadd.1 hadd.2
  | addSources now keyID sourceID entry =>
    rw [Op.sourcePublish] at h
    split_ifs at h with hloaded
    simpa [step,addSources,hloaded] using hslots
  | addNotes now keyID sourceID entry =>
    rw [Op.sourcePublish] at h
    split_ifs at h with hloaded
    simpa [step,addNotes,hloaded] using hslots
  | loadKeyword now keyID sourceID entry =>
    obtain ⟨hsources,hnotes⟩ := @loadKeyword_sources s lower now keyID sourceID entry
    exact hslots.congr hsources hnotes
  | loadSource now keyID sourceID entry => cases h
  | finishLoad => exact hslots.congr rfl rfl
  | clean now force => exact hslots.clean now force

/-- The publishes of an operation meet a condition in the state they find. -/
def Publishes (ok : SourcePublish → Indexed → Prop) (s : Indexed) (op : Op) : Prop :=
  ∀ p, op.sourcePublish s = some p → ok p s

theorem publishes_correct {op : Op} (h : InSlots s) :
    (Publishes SourcePublish.Sound s op ↔ Publishes SourcePublish.OneMatch s op) ∧
      (Publishes SourcePublish.OneMatch s op → InSlots (step lower s op)) := by
  cases hp : op.sourcePublish s with
  | none =>
    have hvacuous : ∀ ok,Publishes ok s op := fun ok p hsome => by rw [hp] at hsome; cases hsome
    exact ⟨iff_of_true (hvacuous _) (hvacuous _),fun _ => step_of_other h hp⟩
  | some p =>
    have hpublish : ∀ ok,Publishes ok s op ↔ ok p s := fun ok =>
      ⟨fun hall => hall p hp,fun hok q hq => by
        rw [hp] at hq
        obtain rfl := Option.some.inj hq
        exact hok⟩
    obtain ⟨hiff,hkeep⟩ := @SourcePublish.add_correct s p h
    rw [hpublish,hpublish,step_of_publish hp]
    exact ⟨hiff,hkeep⟩

theorem inSlots_create (now : Nat) (dataLoaded : Bool) : InSlots (create now dataLoaded) := by
  rintro (_ | _) hash hmem <;> cases hmem

/-- Every accepted publish of a run leaves its key with the new record, within the maximum and
with one bucket a publisher, exactly when no publish meets two buckets of its own publisher. -/
theorem onePublisherOneSlot (lower : QString → QString) (now : Nat) (dataLoaded : Bool)
    (ops : List Op) :
    Along (step lower) (Publishes SourcePublish.Sound) (create now dataLoaded) ops ↔
      Along (step lower) (Publishes SourcePublish.OneMatch) (create now dataLoaded) ops := by
  have hslots := inSlots_create now dataLoaded
  generalize create now dataLoaded=s at hslots
  induction ops generalizing s with
  | nil => exact Iff.rfl
  | cons op ops ih =>
    obtain ⟨hiff,hkeep⟩ := @publishes_correct s lower op hslots
    unfold Along
    rw [hiff]
    exact and_congr_right fun hone => ih (step lower s op) (hkeep hone)

def sourceAt (tcpPort udpPort : UInt16) : Entry :=
  { Entry.create with
    address := .ipv4 0x01020304
    tcpPort, udpPort
    source := true
    tags := [.ofId FT_SOURCETYPE (.uint32 1)] }

/-- The third publish shares its TCP port with the first bucket and its UDP port with the second:
it replaces one of them, and one host holds two slots. -/
theorem onePublisherTwoSlots :
    ¬Along (step id) (Publishes SourcePublish.Sound) (create 0 true)
      [.addSources 0 (.zero 16) (.zero 16) (sourceAt 1 1),
        .addSources 0 (.zero 16) (.zero 16) (sourceAt 2 2),
        .addSources 0 (.zero 16) (.zero 16) (sourceAt 1 2)] := by
  intro h
  have hsound := h.2.2.1 ⟨.source,0,.zero 16,.zero 16,sourceAt 1 2,false⟩ rfl
  have hdistinct := (hsound (by decide)).1
  unfold DistinctPublishers at hdistinct
  revert hdistinct
  decide

end Indexed

end EmuleQt.Kademlia
