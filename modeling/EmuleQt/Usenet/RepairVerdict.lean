import EmuleQt.Usenet.NewsServer
import EmuleQt.Usenet.UsenetQueueItem
import EmuleQt.Math.BlockCover
import Mathlib.Algebra.BigOperators.Fin

namespace EmuleQt.Usenet

open Utils Utils.QString

/-- A file a recovery set names. -/
structure Par2SetFile where
  fileName : QString
  size : Int
  recoverable : Bool

inductive Verdict
  | Unknown
  | Repairable
  | Unrepairable
  deriving DecidableEq

/-- At least so many blocks are damaged, at most so many can be recovered. -/
structure UsenetRepairEstimate where
  verdict : Verdict
  damagedBlocks : Int
  recoveryBlocks : Int
  deriving DecidableEq

def bareName (name : QString) : QString := sanitizeName (QFileInfo.fileName name)

/-- What the articles of a file come to. -/
structure ArticleTally where
  notMissingBytes : Int
  pendingBytes : Int
  allResolved : Bool
  arrivedParts : List Int
  missingParts : List Int

namespace QueuedFile

def isDone (st : QueuedFile) (s : Nat) : Bool := st.done.getD s false

/-- Resolved, but on no server. -/
def isMissing (st : QueuedFile) (s : Nat) : Bool := st.isDone s && st.missing.getD s false

/-- One article; `none` where the document does not say how big it is. -/
def tallyArticle (st : QueuedFile) (t : ArticleTally) (e : NzbSegment × Nat) :
    Option ArticleTally :=
  if e.1.bytes≤0 then none
  else if st.isDone e.2=false then
    some { t with
      allResolved := false
      pendingBytes := t.pendingBytes+e.1.bytes
      notMissingBytes := t.notMissingBytes+e.1.bytes }
  else if st.isMissing e.2 then
    some { t with missingParts := t.missingParts++[e.1.number] }
  else
    some { t with
      arrivedParts := t.arrivedParts++[e.1.number]
      notMissingBytes := t.notMissingBytes+e.1.bytes }

def tally (st : QueuedFile) (info : NzbFileInfo) : Option ArticleTally :=
  info.segments.zipIdx.foldlM st.tallyArticle ⟨0, 0, true, [], []⟩

end QueuedFile

/-- A part number another article supplied is a duplicate, not a hole. -/
def ArticleTally.hole (t : ArticleTally) : Bool :=
  t.missingParts.any fun part => !t.arrivedParts.contains part

/-- What a resolved copy of a file is short, in blocks. -/
def shortBlocks (blockSize size decodedBytes : Int) : Int :=
  max 1 ((max 0 (size-decodedBytes)+blockSize-1)/blockSize)

/-- At most so many recovery blocks fit in a file. -/
def recoveryRoom (blockSize : Int) (info : NzbFileInfo) (st : QueuedFile) (t : ArticleTally) :
    Int :=
  max (max t.notMissingBytes (st.decodedBytes+t.pendingBytes)/blockSize)
    info.par2RecoveryBlocks

/-- What the loop over the files has found. -/
structure Findings where
  damage : List (QString × Int)
  recovery : Int

section Estimate

variable (item : UsenetQueueItem) (blockSize : Int) (setFiles : List Par2SetFile)

/-- The files a repair can restore, and the size of each. -/
def covered : List (QString × Int) :=
  setFiles.foldl (fun (h : List (QString × Int)) f =>
    if f.recoverable then hashInsert (bareName f.fileName) f.size h else h) []

/-- Every file the set mentions. -/
def listed : List QString := setFiles.map fun f => bareName f.fileName

def judgeFile (acc : Findings) (f : Nat) : Option Findings :=
  match item.nzb.files[f]?, item.files[f]? with
  | some info, some st =>
    if st.isSkipped then some acc
    else
      match st.tally info with
      | none => none
      | some t =>
        let name := bareName (item.bestFileName f)
        match hashValue? name (covered setFiles), info.isPar2 with
        | some source, false =>
          let blocks :=
            if t.allResolved ∧ t.hole=true then shortBlocks blockSize source st.decodedBytes
            else 0
          let best :=
            match hashValue? name acc.damage with
            | none => blocks
            | some seen => min seen blocks
          some { acc with damage := hashInsert name best acc.damage }
        | _, isPar2 =>
          if (listed setFiles).contains name ∧ isPar2=false then some acc
          else some { acc with recovery := acc.recovery+recoveryRoom blockSize info st t }
  | _, _ => some acc

def fileCount : Nat := min item.files.length item.nzb.files.length

def unknownEstimate : UsenetRepairEstimate := ⟨.Unknown,0,0⟩

def estimateRepair : UsenetRepairEstimate :=
  if blockSize ≤ 0 ∨ setFiles = [] then unknownEstimate
  else
    match (List.range (fileCount item)).foldlM (judgeFile item blockSize setFiles) ⟨[], 0⟩ with
    | none => unknownEstimate
    | some found =>
      if found.damage = [] then unknownEstimate
      else
        let damaged := (found.damage.map Prod.snd).sum
        ⟨if damaged > found.recovery then .Unrepairable else .Repairable, damaged, found.recovery⟩

end Estimate

open Framework Math Utils Utils.QString Finset

namespace QueuedFile

/-- Every article has arrived or is on no server. -/
def resolved (st : QueuedFile) (info : NzbFileInfo) : Bool :=
  info.segments.zipIdx.all fun e => st.isDone e.2

def arrived (st : QueuedFile) (s : Nat) : Bool := st.isDone s && !st.isMissing s

/-- A part is on no server, and nothing that arrived has its number. -/
def holed (st : QueuedFile) (info : NzbFileInfo) : Bool :=
  info.segments.zipIdx.any fun e => st.isMissing e.2 &&
    !info.segments.zipIdx.any fun a => st.arrived a.2 && decide (a.1.number=e.1.number)

/-- Skipped files can be fetched back, and what is pending may all arrive. -/
def mayBeWhole (st : QueuedFile) (info : NzbFileInfo) : Bool :=
  st.isSkipped || !st.resolved info || !st.holed info

/-- The bytes a file can come to: what is there and the stated sizes of what is pending, or the
stated sizes of all that is not missing. -/
def contentBytes (st : QueuedFile) (info : NzbFileInfo) : Int :=
  max ((info.segments.zipIdx.filter fun e => !st.isMissing e.2).map fun e => e.1.bytes).sum
    (st.decodedBytes +
      ((info.segments.zipIdx.filter fun e => !st.isDone e.2).map fun e => e.1.bytes).sum)

end QueuedFile

namespace Repair

variable (item : UsenetQueueItem) (blockSize : Int) (setFiles : List Par2SetFile)

def infoAt (f : Fin (fileCount item)) : NzbFileInfo :=
  item.nzb.files.get ⟨f,f.isLt.trans_le (Nat.min_le_right ..)⟩

def stateAt (f : Fin (fileCount item)) : QueuedFile :=
  item.files.get ⟨f,f.isLt.trans_le (Nat.min_le_left ..)⟩

/-- The files of the NZB that go by the name of a set file. -/
def copies (r : Par2SetFile) : Finset (Fin (fileCount item)) :=
  univ.filter fun f => bareName (item.bestFileName f) = bareName r.fileName ∧
    (infoAt item f).isPar2 = false

/-- The files that can hold recovery data. -/
def remaining : Finset (Fin (fileCount item)) :=
  univ.filter fun f => (stateAt item f).isSkipped = false ∧
    ((infoAt item f).isPar2 = true ∨ bareName (item.bestFileName f) ∉ listed setFiles)

def sources : Finset (Fin setFiles.length) := univ.filter fun r => (setFiles.get r).recoverable

def blocksOf (r : Par2SetFile) : Nat := blockCount r.size.toNat blockSize.toNat

def bytesOf (r : Par2SetFile) (f : Fin (fileCount item)) : Nat :=
  min (stateAt item f).decodedBytes.toNat (r.size.toNat - 1)

/-- What a repair may find: the blocks of the set files that are good in each copy, and the
recovery blocks in each of the other files. -/
structure Outcome where
  good : Fin setFiles.length → Fin (fileCount item) → Finset Nat
  blocks : Fin (fileCount item) → Nat

/-- An outcome that what is known of the articles allows. -/
structure Consistent (o : Outcome item setFiles) : Prop where
  within : ∀ r ∈ sources setFiles, ∀ f ∈ copies item (setFiles.get r),
    o.good r f ⊆ range (blocksOf blockSize (setFiles.get r))
  short : ∀ r ∈ sources setFiles, ∀ f ∈ copies item (setFiles.get r),
    (stateAt item f).mayBeWhole (infoAt item f) = false →
      weigh (setFiles.get r).size.toNat blockSize.toNat (o.good r f) ≤
        bytesOf item (setFiles.get r) f
  room : ∀ f ∈ remaining item setFiles,
    o.blocks f ≤ (infoAt item f).par2RecoveryBlocks.toNat ∨
      (o.blocks f : Int) * blockSize ≤ (stateAt item f).contentBytes (infoAt item f)

/-- The blocks of a set file that are good in no copy of it; a file that none is known to be a
copy of may go by another name. -/
def damaged (o : Outcome item setFiles) (r : Fin setFiles.length) : Nat :=
  if copies item (setFiles.get r) = ∅ then 0
  else ((range (blocksOf blockSize (setFiles.get r))).filter fun b =>
    ∀ f ∈ copies item (setFiles.get r), b ∉ o.good r f).card

/-- More is damaged than can be recovered, whatever a repair finds. -/
def Hopeless : Prop :=
  ∀ o : Outcome item setFiles, Consistent item blockSize setFiles o →
    ∑ f ∈ remaining item setFiles, o.blocks f <
      ∑ r ∈ sources setFiles, damaged item blockSize setFiles o r

/-- The blocks the copies of a set file cannot hold between them. -/
def leastDamage (r : Par2SetFile) : Nat :=
  if copies item r = ∅ ∨ ∃ f∈copies item r, (stateAt item f).mayBeWhole (infoAt item f)=true
  then 0
  else blocksOf blockSize r-reach r.size.toNat blockSize.toNat (copies item r) (bytesOf item r)

def roomOf (f : Fin (fileCount item)) : Nat :=
  max ((stateAt item f).contentBytes (infoAt item f) / blockSize).toNat
    (infoAt item f).par2RecoveryBlocks.toNat

variable {item blockSize setFiles}

theorem damaged_eq (o : Outcome item setFiles) {r : Fin setFiles.length}
    (hcopies : copies item (setFiles.get r) ≠ ∅)
    (hwithin : ∀ f∈copies item (setFiles.get r),
      o.good r f ⊆ range (blocksOf blockSize (setFiles.get r))) :
    damaged item blockSize setFiles o r =
      blocksOf blockSize (setFiles.get r) -
        ((copies item (setFiles.get r)).biUnion (o.good r)).card := by
  have hsets : ((range (blocksOf blockSize (setFiles.get r))).filter fun b =>
      ∀ f∈copies item (setFiles.get r), b∉o.good r f) =
        range (blocksOf blockSize (setFiles.get r)) \
          (copies item (setFiles.get r)).biUnion (o.good r) := by
    ext b
    simp
  rw [damaged,if_neg hcopies,hsets,card_sdiff_of_subset (biUnion_subset.mpr hwithin),card_range]

theorem leastDamage_le (hsize : 0<blockSize) {o : Outcome item setFiles}
    (ho : Consistent item blockSize setFiles o) {r : Fin setFiles.length}
    (hr : r∈sources setFiles) :
    leastDamage item blockSize (setFiles.get r)≤damaged item blockSize setFiles o r := by
  unfold leastDamage
  split_ifs with hfree
  · exact Nat.zero_le _
  · obtain ⟨hcopies,hholed⟩ := not_or.mp hfree
    have hshort : ∀ f∈copies item (setFiles.get r),
        weigh (setFiles.get r).size.toNat blockSize.toNat (o.good r f) ≤
          bytesOf item (setFiles.get r) f := fun f hf =>
      ho.short r hr f hf (Bool.eq_false_iff.mpr fun hwhole => hholed ⟨f,hf,hwhole⟩)
    rw [damaged_eq o hcopies (ho.within r hr)]
    exact Nat.sub_le_sub_left
      (card_biUnion_le_reach (Int.lt_toNat.mpr hsize) (ho.within r hr) hshort) _

theorem le_roomOf_iff (hsize : 0<blockSize) {f : Fin (fileCount item)} {k : Nat} :
    k≤roomOf item blockSize f ↔ k≤(infoAt item f).par2RecoveryBlocks.toNat ∨
      k=0 ∨ (k : Int)*blockSize≤(stateAt item f).contentBytes (infoAt item f) := by
  rw [← Int.le_ediv_iff_mul_le hsize,roomOf]
  omega

theorem exists_leastDamage (r : Par2SetFile) :
    ∃ good : Fin (fileCount item) → Finset Nat,
      (∀ f∈copies item r,good f ⊆ range (blocksOf blockSize r) ∧
        ((stateAt item f).mayBeWhole (infoAt item f)=false →
          weigh r.size.toNat blockSize.toNat (good f)≤bytesOf item r f)) ∧
      (copies item r ≠ ∅ → blocksOf blockSize r-((copies item r).biUnion good).card =
        leastDamage item blockSize r) := by
  by_cases hwhole : ∃ f∈copies item r, (stateAt item f).mayBeWhole (infoAt item f)=true
  · obtain ⟨f,hf,hfwhole⟩ := hwhole
    refine ⟨Function.update (fun _ => ∅) f (range (blocksOf blockSize r)),?_,?_⟩
    · intro g hg
      by_cases heq : g=f
      · subst heq
        rw [Function.update_self]
        exact ⟨Subset.refl _,fun hshort => absurd hfwhole (by simp [hshort])⟩
      · rw [Function.update_of_ne heq]
        exact ⟨empty_subset _,fun _ => by simp [weigh]⟩
    · intro _
      have hall : range (blocksOf blockSize r) ⊆ (copies item r).biUnion
          (Function.update (fun _ => ∅) f (range (blocksOf blockSize r))) := by
        refine Subset.trans ?_ (subset_biUnion_of_mem _ hf)
        rw [Function.update_self]
      have hcard := card_le_card hall
      rw [card_range] at hcard
      rw [leastDamage,if_pos (.inr ⟨f,hf,hfwhole⟩)]
      exact Nat.sub_eq_zero_of_le hcard
  · obtain ⟨good,hgood,hcard⟩ :=
      exists_reach r.size.toNat blockSize.toNat (copies item r) (bytesOf item r)
    refine ⟨good,fun f hf => ⟨(hgood f hf).1,fun _ => (hgood f hf).2⟩,?_⟩
    intro hcopies
    rw [leastDamage,if_neg (not_or.mpr ⟨hcopies,hwhole⟩),hcard,blocksOf]
    omega

/-- No repair can succeed where, and only where, the blocks that the copies of the set files cannot
hold between them outnumber the recovery blocks there is room for. -/
theorem hopeless_iff (hsize : 0<blockSize) :
    Hopeless item blockSize setFiles ↔
      ∑ f∈remaining item setFiles, roomOf item blockSize f <
        ∑ r∈sources setFiles, leastDamage item blockSize (setFiles.get r) := by
  constructor
  · intro h
    choose good hgood hbest using @exists_leastDamage item blockSize
    have hconsistent : Consistent item blockSize setFiles
        ⟨fun r => good (setFiles.get r),roomOf item blockSize⟩ := by
      refine ⟨fun r _ f hf => (hgood _ f hf).1,fun r _ f hf => (hgood _ f hf).2,?_⟩
      intro f hf
      rcases (le_roomOf_iff hsize).mp (Nat.le_refl (roomOf item blockSize f)) with
        hnamed | hzero | hfits
      · exact .inl hnamed
      · exact .inl (by dsimp only; omega)
      · exact .inr hfits
    refine (h _ hconsistent).trans_le (sum_le_sum fun r hr => ?_)
    by_cases hcopies : copies item (setFiles.get r) = ∅
    · rw [damaged,if_pos hcopies]
      exact Nat.zero_le _
    · rw [damaged_eq _ hcopies (hconsistent.within r hr)]
      exact (hbest _ hcopies).le
  · intro h o ho
    have hroom : ∑ f∈remaining item setFiles, o.blocks f ≤
        ∑ f∈remaining item setFiles, roomOf item blockSize f :=
      sum_le_sum fun f hf =>
        (le_roomOf_iff hsize).mpr ((ho.room f hf).imp_right .inr)
    exact hroom.trans_lt (h.trans_le (sum_le_sum fun r hr => leastDamage_le hsize ho hr))

end Repair

open Framework Math Utils Utils.QString Finset

variable {item : UsenetQueueItem} {blockSize : Int} {setFiles : List Par2SetFile}
  {st : QueuedFile} {info : NzbFileInfo} {t t' : ArticleTally} {acc acc' : Findings}

namespace QueuedFile

theorem isMissing_of_not_done {s : Nat} (h : st.isDone s=false) : st.isMissing s=false := by
  rw [isMissing,h,Bool.false_and]

theorem foldlM_tallyArticle (es : List (NzbSegment × Nat))
    (h : es.foldlM st.tallyArticle t=some t') :
    (∀ e∈es,0<e.1.bytes) ∧ t' =
      { notMissingBytes := t.notMissingBytes +
          ((es.filter fun e => !st.isMissing e.2).map fun e => e.1.bytes).sum
        pendingBytes := t.pendingBytes +
          ((es.filter fun e => !st.isDone e.2).map fun e => e.1.bytes).sum
        allResolved := t.allResolved && es.all fun e => st.isDone e.2
        arrivedParts := t.arrivedParts ++
          (es.filter fun e => st.arrived e.2).map fun e => e.1.number
        missingParts := t.missingParts ++
          (es.filter fun e => st.isMissing e.2).map fun e => e.1.number } := by
  induction es generalizing t with
  | nil =>
    cases h
    simp
  | cons e es ih =>
    rw [List.foldlM_cons] at h
    unfold tallyArticle at h
    split_ifs at h with hsize hdone hmissing
    · cases h
    · obtain ⟨hsizes,hall⟩ := ih h
      have hmissing := isMissing_of_not_done hdone
      refine ⟨List.forall_mem_cons.mpr ⟨by omega,hsizes⟩,?_⟩
      rw [hall]
      simp [hdone,hmissing,arrived,Int.add_assoc]
    · obtain ⟨hsizes,hall⟩ := ih h
      refine ⟨List.forall_mem_cons.mpr ⟨by omega,hsizes⟩,?_⟩
      rw [hall]
      simp [hdone,hmissing,arrived]
    · obtain ⟨hsizes,hall⟩ := ih h
      refine ⟨List.forall_mem_cons.mpr ⟨by omega,hsizes⟩,?_⟩
      rw [hall]
      simp [hdone,hmissing,arrived,Int.add_assoc]

/-- What the loop over the articles finds out of a file. -/
structure Tallied (st : QueuedFile) (info : NzbFileInfo) (t : ArticleTally) : Prop where
  resolved : t.allResolved=st.resolved info
  holed : t.hole=st.holed info
  content : max t.notMissingBytes (st.decodedBytes+t.pendingBytes)=st.contentBytes info
  nonneg : 0 ≤ st.contentBytes info

theorem tally_spec (h : st.tally info=some t) : Tallied st info t := by
  obtain ⟨hsizes,rfl⟩ := foldlM_tallyArticle _ h
  have hcontent : 0 ≤ st.contentBytes info := by
    refine le_max_of_le_left (List.sum_nonneg ?_)
    intro n hn
    obtain ⟨e,he,rfl⟩ := List.mem_map.mp hn
    exact (hsizes e (List.mem_of_mem_filter he)).le
  refine ⟨?_,?_,?_,hcontent⟩
  · simp [resolved]
  · have hparts : ∀ part : Int,
        (((info.segments.zipIdx.filter fun e => st.arrived e.2).map fun e => e.1.number).contains
          part) =
          info.segments.zipIdx.any fun a => st.arrived a.2 && decide (a.1.number=part) := by
      intro part
      rw [Bool.eq_iff_iff]
      simp [and_assoc]
    simp only [ArticleTally.hole,List.nil_append,List.any_map,List.any_filter,holed]
    refine congrArg _ (funext fun e => ?_)
    rw [Function.comp_apply,hparts]
  · simp [contentBytes]

end QueuedFile

namespace Repair

theorem covered_spec {name : QString} {size : Int}
    (h : hashValue? name (covered setFiles)=some size) :
    ∃ r : Fin setFiles.length, (setFiles.get r).recoverable=true ∧
      bareName (setFiles.get r).fileName=name ∧ (setFiles.get r).size=size := by
  have hall : ∀ (rest : List Par2SetFile) (hash : List (QString × Int)), rest ⊆ setFiles →
      (∀ e∈hash,∃ r∈setFiles, r.recoverable=true ∧ bareName r.fileName=e.1 ∧
        r.size=e.2) →
      ∀ e∈rest.foldl (fun (h : List (QString × Int)) f =>
          if f.recoverable then hashInsert (bareName f.fileName) f.size h else h) hash,
        ∃ r∈setFiles, r.recoverable=true ∧ bareName r.fileName=e.1 ∧ r.size=e.2 := by
    intro rest
    induction rest with
    | nil => exact fun hash _ hhash => hhash
    | cons f rest ih =>
      intro hash hrest hhash
      obtain ⟨hf,hrest⟩ := List.cons_subset.mp hrest
      rw [List.foldl_cons]
      refine ih _ hrest ?_
      split_ifs with hrecoverable
      · intro e he
        rcases mem_hashInsert he with rfl | hold
        · exact ⟨f,hf,hrecoverable,rfl,rfl⟩
        · exact hhash e hold
      · exact hhash
  obtain ⟨f,hf,hrecoverable,hname,hsize⟩ :=
    hall setFiles [] (List.Subset.refl _) (fun e he => nomatch he) _ (hashValue?_mem h)
  obtain ⟨r,hr,rfl⟩ := List.mem_iff_getElem.mp hf
  exact ⟨⟨r,hr⟩,hrecoverable,hname,hsize⟩

/-- What a copy of a set file is priced at. -/
def price (item : UsenetQueueItem) (blockSize size : Int) (f : Fin (fileCount item)) : Int :=
  if (stateAt item f).resolved (infoAt item f) = true ∧
      (stateAt item f).holed (infoAt item f) = true then
    shortBlocks blockSize size (stateAt item f).decodedBytes
  else 0

/-- What judging a file does to what has been found. -/
inductive Judged (item : UsenetQueueItem) (blockSize : Int) (setFiles : List Par2SetFile)
    (f : Fin (fileCount item)) (acc : Findings) : Findings → Prop
  | passed (hf : f ∉ remaining item setFiles) : Judged item blockSize setFiles f acc acc
  | copy (size best : Int) (hf : f ∉ remaining item setFiles)
      (hskipped : (stateAt item f).isSkipped = false) (hpar2 : (infoAt item f).isPar2 = false)
      (hsize : hashValue? (bareName (item.bestFileName f)) (covered setFiles) = some size)
      (hbest : best ≤ price item blockSize size f) :
      Judged item blockSize setFiles f acc
        { acc with damage := hashInsert (bareName (item.bestFileName f)) best acc.damage }
  | counted (room : Int) (hroom : (roomOf item blockSize f : Int) ≤ room) :
      Judged item blockSize setFiles f acc { acc with recovery := acc.recovery + room }

theorem covered_listed {name : QString} {size : Int}
    (h : hashValue? name (covered setFiles)=some size) : name∈listed setFiles := by
  obtain ⟨r,-,hname,-⟩ := covered_spec h
  rw [← hname]
  exact List.mem_map_of_mem (List.get_mem setFiles r)

theorem judgeFile_spec (hsize : 0<blockSize) (f : Fin (fileCount item))
    (h : judgeFile item blockSize setFiles acc f=some acc') :
    Judged item blockSize setFiles f acc acc' := by
  have hinfo : item.nzb.files[(f : Nat)]? = some (infoAt item f) := by simp [infoAt]
  have hstate : item.files[(f : Nat)]? = some (stateAt item f) := by simp [stateAt]
  unfold judgeFile at h
  rw [hinfo,hstate] at h
  dsimp only at h
  split_ifs at h with hskipped
  · cases h
    refine .passed ?_
    simp [remaining,hskipped]
  rw [Bool.not_eq_true] at hskipped
  cases htally : (stateAt item f).tally (infoAt item f) with
  | none =>
    rw [htally] at h
    cases h
  | some t =>
    rw [htally] at h
    dsimp only at h
    obtain ⟨hresolved,hholed,hcontent,hnonneg⟩ := QueuedFile.tally_spec htally
    have hroom : (roomOf item blockSize f : Int) ≤
        recoveryRoom blockSize (infoAt item f) (stateAt item f) t := by
      rw [recoveryRoom,hcontent,roomOf]
      have := Int.ediv_nonneg hnonneg hsize.le
      omega
    split at h
    · next size hcovered hpar2 =>
      cases h
      refine .copy size _ ?_ hskipped hpar2 hcovered ?_
      · simp [remaining,hpar2,covered_listed hcovered]
      · have hprice : (if t.allResolved=true ∧ t.hole=true then
            shortBlocks blockSize size (stateAt item f).decodedBytes else 0) =
              price item blockSize size f := by
          rw [price,hresolved,hholed]
        rw [hprice]
        split
        · exact le_refl _
        · exact min_le_right _ _
    · split_ifs at h with hlisted
      · cases h
        refine .passed ?_
        obtain ⟨hname,hpar2⟩ := hlisted
        simp only [List.contains_iff_mem] at hname
        simp [remaining,hpar2,hname]
      · cases h
        exact .counted _ hroom

/-- A priced entry: no more than the price of a copy of a file the set can restore. -/
def Priced (item : UsenetQueueItem) (blockSize : Int) (setFiles : List Par2SetFile)
    (e : QString × Int) : Prop :=
  ∃ (f : Fin (fileCount item)) (size : Int), (stateAt item f).isSkipped = false ∧
    (infoAt item f).isPar2 = false ∧ bareName (item.bestFileName f) = e.1 ∧
    hashValue? e.1 (covered setFiles) = some size ∧ e.2 ≤ price item blockSize size f

def roomAt (item : UsenetQueueItem) (blockSize : Int) (setFiles : List Par2SetFile)
    (f : Fin (fileCount item)) : Int :=
  if f∈remaining item setFiles then roomOf item blockSize f else 0

/-- What the loop over the files has found so far: one priced entry a name, and room enough. -/
structure Sound (item : UsenetQueueItem) (blockSize : Int) (setFiles : List Par2SetFile)
    (room : Int) (acc : Findings) : Prop where
  nodup : (acc.damage.map Prod.fst).Nodup
  priced : ∀ e ∈ acc.damage, Priced item blockSize setFiles e
  room : room ≤ acc.recovery

theorem Judged.sound {f : Fin (fileCount item)} {room : Int}
    (h : Judged item blockSize setFiles f acc acc') (hs : Sound item blockSize setFiles room acc) :
    Sound item blockSize setFiles (room+roomAt item blockSize setFiles f) acc' := by
  have hroom := hs.room
  cases h with
  | passed hf =>
    refine ⟨hs.nodup,hs.priced,?_⟩
    rw [roomAt,if_neg hf]
    omega
  | copy size best hf hskipped hpar2 hsize hbest =>
    refine ⟨nodup_map_upsert (fun _ => rfl) hs.nodup,?_,?_⟩
    · intro e he
      rcases mem_hashInsert he with rfl | hold
      · exact ⟨f,size,hskipped,hpar2,rfl,hsize,hbest⟩
      · exact hs.priced e hold
    · rw [roomAt,if_neg hf]
      dsimp only
      omega
  | counted room hroomf =>
    refine ⟨hs.nodup,hs.priced,?_⟩
    unfold roomAt
    dsimp only
    split_ifs <;> omega

theorem foldlM_sound (hsize : 0<blockSize) (fs : List (Fin (fileCount item))) {room : Int}
    (h : (fs.map fun f : Fin (fileCount item) => (f : Nat)).foldlM
      (judgeFile item blockSize setFiles) acc=some acc')
    (hs : Sound item blockSize setFiles room acc) :
    Sound item blockSize setFiles (room+(fs.map (roomAt item blockSize setFiles)).sum) acc' := by
  induction fs generalizing acc room with
  | nil =>
    cases h
    simpa using hs
  | cons f fs ih =>
    rw [List.map_cons,List.foldlM_cons] at h
    cases hfirst : judgeFile item blockSize setFiles acc f with
    | none =>
      rw [hfirst] at h
      cases h
    | some next =>
      rw [hfirst] at h
      have hnext := (judgeFile_spec hsize f hfirst).sound hs
      rw [List.map_cons,List.sum_cons,← Int.add_assoc]
      exact ih h hnext

theorem estimateRepair_spec
    (h : (estimateRepair item blockSize setFiles).verdict = .Unrepairable) :
    0<blockSize ∧ ∃ found : Findings,
      Sound item blockSize setFiles (∑ f∈remaining item setFiles, (roomOf item blockSize f : Int))
        found ∧ found.recovery<(found.damage.map Prod.snd).sum := by
  unfold estimateRepair at h
  split_ifs at h with hnothing
  · cases h
  have hsize : 0<blockSize := by
    by_contra hle
    exact hnothing (.inl (by omega))
  refine ⟨hsize,?_⟩
  split at h
  · cases h
  · next found hfound =>
    split_ifs at h with hempty
    · cases h
    dsimp only at h
    split_ifs at h with hmore
    have hrange : List.range (fileCount item) =
        (List.finRange (fileCount item)).map fun f : Fin (fileCount item) => (f : Nat) := by
      simp
    rw [hrange] at hfound
    have hstart : Sound item blockSize setFiles 0 ⟨[],0⟩ :=
      ⟨List.nodup_nil,fun _ he => absurd he List.not_mem_nil,le_refl 0⟩
    have hsound := foldlM_sound hsize (List.finRange (fileCount item)) hfound hstart
    have hsum : ((List.finRange (fileCount item)).map (roomAt item blockSize setFiles)).sum =
        ∑ f∈remaining item setFiles, (roomOf item blockSize f : Int) := by
      rw [← Fin.sum_univ_def]
      simp only [roomAt]
      rw [← Finset.sum_filter,Finset.filter_mem_eq_inter,Finset.univ_inter]
    rw [hsum,Int.zero_add] at hsound
    exact ⟨found,hsound,hmore⟩

/-- A set file that the NZB has once. -/
structure PostedOnce (item : UsenetQueueItem) (r : Par2SetFile) : Prop where
  size : 0<r.size
  decoded : ∀ f∈copies item r, 0≤(stateAt item f).decodedBytes
  once : ∀ f∈copies item r, ∀ g∈copies item r, g=f

theorem price_eq {r : Par2SetFile} {f : Fin (fileCount item)} (hsize : 0<blockSize)
    (hf : f∈copies item r) (hskipped : (stateAt item f).isSkipped=false)
    (honce : PostedOnce item r) :
    price item blockSize r.size f=leastDamage item blockSize r := by
  have hcopies : copies item r = {f} :=
    Finset.eq_singleton_iff_unique_mem.mpr ⟨hf,fun g hg => honce.once f hf g hg⟩
  have hne : copies item r ≠ ∅ := Finset.ne_empty_of_mem hf
  cases hwhole : (stateAt item f).mayBeWhole (infoAt item f) with
  | true =>
    rw [leastDamage,if_pos (.inr ⟨f,hf,hwhole⟩),price,if_neg]
    · rfl
    · intro h
      simp [QueuedFile.mayBeWhole,hskipped,h.1,h.2] at hwhole
  | false =>
    have hholed : (stateAt item f).resolved (infoAt item f)=true ∧
        (stateAt item f).holed (infoAt item f)=true := by
      simpa [QueuedFile.mayBeWhole,hskipped] using hwhole
    have hleast : leastDamage item blockSize r =
        max 1 ((r.size.toNat-(stateAt item f).decodedBytes.toNat+blockSize.toNat-1) /
          blockSize.toNat) := by
      rw [leastDamage,if_neg,hcopies]
      · exact blockCount_sub_reach (Int.lt_toNat.mpr hsize) (Int.lt_toNat.mpr honce.size) f
          fun f => (stateAt item f).decodedBytes.toNat
      · rintro (hnone | ⟨g,hg,hgwhole⟩)
        · exact hne hnone
        · rw [honce.once f hf g hg,hwhole] at hgwhole
          exact Bool.false_ne_true hgwhole
    obtain ⟨width,rfl⟩ := Int.eq_ofNat_of_zero_le hsize.le
    obtain ⟨size,hsizeEq⟩ := Int.eq_ofNat_of_zero_le honce.size.le
    obtain ⟨decoded,hdecoded⟩ := Int.eq_ofNat_of_zero_le (honce.decoded f hf)
    rw [price,if_pos hholed,hleast,shortBlocks,hsizeEq,hdecoded]
    have hshort : max 0 ((size : Int)-decoded)+width-1 =
        ((size-decoded+width-1 : Nat) : Int) := by
      omega
    rw [hshort,Int.toNat_natCast,Int.toNat_natCast,Int.toNat_natCast]
    push_cast
    rfl

theorem exists_sources (hsize : 0<blockSize)
    (honce : ∀ r∈sources setFiles,PostedOnce item (setFiles.get r))
    (entries : List (QString × Int)) (hpriced : ∀ e∈entries,Priced item blockSize setFiles e) :
    ∃ rs : List (Fin setFiles.length),
      (rs.map fun r => bareName (setFiles.get r).fileName)=entries.map Prod.fst ∧
      (∀ r∈rs,r∈sources setFiles) ∧
      (entries.map Prod.snd).sum ≤
        ((rs.map fun r => leastDamage item blockSize (setFiles.get r)).sum : Int) := by
  induction entries with
  | nil => exact ⟨[],by simp⟩
  | cons e entries ih =>
    obtain ⟨he,hrest⟩ := List.forall_mem_cons.mp hpriced
    obtain ⟨rs,hnames,hrs,hsum⟩ := ih hrest
    obtain ⟨f,size,hskipped,hpar2,hname,hcovered,hprice⟩ := he
    obtain ⟨r,hrecoverable,hrname,hrsize⟩ := covered_spec hcovered
    have hr : r∈sources setFiles := by simpa [sources] using hrecoverable
    have hf : f∈copies item (setFiles.get r) := by
      simp only [copies,Finset.mem_filter,Finset.mem_univ,true_and]
      exact ⟨hname.trans hrname.symm,hpar2⟩
    refine ⟨r::rs,by rw [List.map_cons,List.map_cons,hnames,hrname],
      List.forall_mem_cons.mpr ⟨hr,hrs⟩,?_⟩
    rw [List.map_cons,List.sum_cons,List.map_cons,List.sum_cons]
    rw [← hrsize,price_eq hsize hf hskipped (honce r hr)] at hprice
    omega

theorem room_lt_leastDamage
    (honce : ∀ r∈sources setFiles,PostedOnce item (setFiles.get r))
    (h : (estimateRepair item blockSize setFiles).verdict = .Unrepairable) :
    ∑ f∈remaining item setFiles, roomOf item blockSize f <
      ∑ r∈sources setFiles, leastDamage item blockSize (setFiles.get r) := by
  obtain ⟨hsize,found,⟨hnodup,hpriced,hroom⟩,hmore⟩ := estimateRepair_spec h
  obtain ⟨rs,hnames,hrs,hsum⟩ := exists_sources hsize honce found.damage hpriced
  have hrsnodup : rs.Nodup := List.Nodup.of_map _ (hnames ▸ hnodup)
  have hsources : (rs.map fun r => leastDamage item blockSize (setFiles.get r)).sum ≤
      ∑ r∈sources setFiles, leastDamage item blockSize (setFiles.get r) := by
    rw [← List.sum_toFinset _ hrsnodup]
    refine Finset.sum_le_sum_of_subset fun r hr => hrs r (List.mem_toFinset.mp hr)
  have hcast : ((∑ f∈remaining item setFiles, roomOf item blockSize f : Nat) : Int) =
      ∑ f∈remaining item setFiles, (roomOf item blockSize f : Int) := by push_cast; rfl
  omega

end Repair

/-- An item that is said to be beyond repair is, where the blocks that the copies of the set files
cannot hold between them outnumber the recovery blocks; and so it is if no file is posted twice. -/
theorem unrepairable_hopeless_iff (item : UsenetQueueItem) (blockSize : Int)
    (setFiles : List Par2SetFile)
    (hverdict : (estimateRepair item blockSize setFiles).verdict = .Unrepairable) :
    (Repair.Hopeless item blockSize setFiles ↔
      ∑ f ∈ Repair.remaining item setFiles, Repair.roomOf item blockSize f <
        ∑ r ∈ Repair.sources setFiles,
          Repair.leastDamage item blockSize (setFiles.get r)) ∧
    ((∀ r ∈ Repair.sources setFiles, Repair.PostedOnce item (setFiles.get r)) →
      Repair.Hopeless item blockSize setFiles) := by
  have hiff := @Repair.hopeless_iff item blockSize setFiles
    (Repair.estimateRepair_spec hverdict).1
  exact ⟨hiff,fun honce => hiff.mpr (Repair.room_lt_leastDamage honce hverdict)⟩

/-- A file in two articles, one of which is on no server. -/
def halfCopy (missing : List Bool) : QueuedFile :=
  { QueuedFile.fresh with decodedBytes := 4000, done := [true,true], missing }

def twoParts : NzbFileInfo :=
  ⟨lit "\"r.zip\"",[],0,[],
    [⟨lit "a@b",4200,1,lit "1",-1⟩,⟨lit "c@d",4200,2,lit "2",-1⟩],[],lit "r.zip",0⟩

def postedTwice : UsenetQueueItem :=
  ⟨lit "7",lit "n",⟨[],[],[twoParts,twoParts],[],0⟩,
    [halfCopy [true,false],halfCopy [false,true]]⟩

def postedHalf : UsenetQueueItem :=
  ⟨lit "7",lit "n",⟨[],[],[twoParts],[],0⟩,[halfCopy [true,false]]⟩

def zipSet : List Par2SetFile := [⟨lit "r.zip",8000,true⟩]

theorem postedHalf_hopeless : Repair.Hopeless postedHalf 4000 zipSet := by
  have hverdict : (estimateRepair postedHalf 4000 zipSet).verdict = .Unrepairable := by decide
  have hfiles : Subsingleton (Fin (fileCount postedHalf)) := inferInstanceAs (Subsingleton (Fin 1))
  have hsets : Subsingleton (Fin zipSet.length) := inferInstanceAs (Subsingleton (Fin 1))
  refine (unrepairable_hopeless_iff postedHalf 4000 zipSet hverdict).2 ?_
  intro r _
  rw [Subsingleton.elim r ⟨0,by decide⟩]
  refine ⟨by decide,?_,?_⟩
  · intro f _
    rw [Subsingleton.elim f ⟨0,by decide⟩]
    decide
  · intro f _ g _
    exact Subsingleton.elim g f

/-- Two copies that lack one half each. -/
theorem postedTwice_not_hopeless : ¬∀ (item : UsenetQueueItem) (blockSize : Int)
    (setFiles : List Par2SetFile),
    (estimateRepair item blockSize setFiles).verdict = .Unrepairable →
      Repair.Hopeless item blockSize setFiles := by
  intro h
  have hverdict : (estimateRepair postedTwice 4000 zipSet).verdict = .Unrepairable := by decide
  have hhopeless := h postedTwice 4000 zipSet hverdict
  have hcount := (Repair.hopeless_iff (by decide)).mp hhopeless
  revert hcount
  decide

end EmuleQt.Usenet
