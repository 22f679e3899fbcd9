import EmuleQt.Usenet.UsenetQueueItem
import Mathlib.Data.Bool.AllAny

namespace EmuleQt.Usenet

open Framework Utils Utils.QString

variable {rules : QString → SubjectInfo} {doc : XmlDocument} {out nzb : NzbInfo}
  {item : UsenetQueueItem} {tempRoot raw name : QString} {cwd : List QString} {u v : UInt16}

namespace NzbFile

/-- The file is named by the rules. -/
def Named (rules : QString → SubjectInfo) (info : NzbFileInfo) : Prop :=
  info.fileName = (rules info.subject).fileName

/-- What has been read is named by the rules; before the first file there are no segments. -/
structure Read (rules : QString → SubjectInfo) (s : State) : Prop where
  files : ∀ f ∈ s.out.files, Named rules f
  current : Named rules s.current ∨ s.current.segments = [] ∧ s.inFile = false ∧
    ∀ attributes text hasChild depth, s.mode ≠ .segmentText attributes text hasChild depth

theorem read_startElement {s : State} (tag : QString) (attributes : List (QString × QString))
    (h : Read rules s) : Read rules (startElement rules tag attributes s) := by
  unfold startElement
  split_ifs with hfile hgroup hsegment hmeta
  · exact ⟨h.files,.inl rfl⟩
  · refine ⟨h.files,h.current.imp_right ?_⟩
    intro hbefore
    exact absurd (hgroup.2.symm.trans hbefore.2.1) Bool.noConfusion
  · refine ⟨h.files,h.current.imp_right ?_⟩
    intro hbefore
    exact absurd (hsegment.2.symm.trans hbefore.2.1) Bool.noConfusion
  · exact ⟨h.files,h.current.imp_right fun hbefore => ⟨hbefore.1,hbefore.2.1,by simp⟩⟩
  · exact h

theorem read_endElement {s : State} (tag : QString) (h : Read rules s) :
    Read rules (endElement tag s) := by
  have hcurrent := h.current.imp_right fun hbefore =>
    (⟨hbefore.1,rfl,hbefore.2.2⟩ : _ ∧ false=false ∧ _)
  unfold endElement
  split_ifs with hfile hsegments
  · refine ⟨?_,hcurrent⟩
    intro f hf
    rcases List.mem_append.mp hf with hold | hnew
    · exact h.files f hold
    · rw [List.mem_singleton.mp hnew]
      exact h.current.resolve_right fun hbefore => hsegments hbefore.1
  · exact ⟨h.files,hcurrent⟩
  · exact h

theorem read_finishSegment {s : State} (attributes : List (QString × QString)) (text : QString)
    (h : Read rules s) (hnamed : Named rules s.current) :
    Read rules (finishSegment attributes text s) := by
  refine ⟨h.files,.inl ?_⟩
  dsimp only [finishSegment]
  split_ifs <;> exact hnamed

theorem read_finishMeta {s : State} (type value : QString) (h : Read rules s) :
    Read rules (finishMeta type value s) := by
  have hfiles : (finishMeta type value s).out.files=s.out.files := by
    dsimp only [finishMeta]
    split_ifs <;> rfl
  refine ⟨hfiles ▸ h.files,h.current.imp_right fun hbefore => ⟨hbefore.1,hbefore.2.1,?_⟩⟩
  simp [finishMeta]

theorem read_finishGroup {s : State} (text : QString) (h : Read rules s) :
    Read rules (finishGroup text s) := by
  have hcurrent : (finishGroup text s).current.subject=s.current.subject ∧
      (finishGroup text s).current.fileName=s.current.fileName ∧
      (finishGroup text s).current.segments=s.current.segments := by
    dsimp only [finishGroup]
    split_ifs <;> exact ⟨rfl,rfl,rfl⟩
  obtain ⟨hsubject,hname,hsegments⟩ := hcurrent
  refine ⟨h.files,h.current.imp ?_ ?_⟩
  · intro hnamed
    rw [Named,hsubject,hname]
    exact hnamed
  · intro hbefore
    exact ⟨hsegments.trans hbefore.1,hbefore.2.1,by simp [finishGroup]⟩

theorem Read.mode {s : State} {mode : Mode} (h : Read rules s)
    (hmode : Named rules s.current ∨
      ∀ attributes text hasChild depth, mode ≠ .segmentText attributes text hasChild depth) :
    Read rules { s with mode } := by
  refine ⟨h.files,?_⟩
  rcases h.current with hnamed | hbefore
  · exact .inl hnamed
  · rcases hmode with hnamed | hmode
    · exact .inl hnamed
    · exact .inr ⟨hbefore.1,hbefore.2.1,hmode⟩

theorem read_step {s : State} (e : XmlEvent) (h : Read rules s) : Read rules (step rules s e) := by
  have hsegment : ∀ {attributes text hasChild depth},
      s.mode = .segmentText attributes text hasChild depth → Named rules s.current :=
    fun hmode => h.current.resolve_right fun hbefore => hbefore.2.2 _ _ _ _ hmode
  unfold step
  split
  · exact h
  · exact read_startElement _ _ h
  · exact read_endElement _ h
  · exact h
  · exact h.mode (.inr (by simp))
  · exact read_finishGroup _ h
  · exact h.mode (.inr (by simp))
  · exact read_finishMeta _ _ h
  · exact h.mode (.inr (by simp))
  · exact h.mode (.inr (by simp))
  · exact h
  · exact h
  · exact h.mode (.inl (hsegment (by assumption)))
  · exact h.mode (.inl (hsegment (by assumption)))
  · next attributes text hasChild depth _ hmode _ =>
    by_cases hdepth : depth=0
    · rw [if_pos hdepth]
      exact read_finishSegment _ _ h (hsegment hmode)
    · rw [if_neg hdepth]
      exact h.mode (.inl (hsegment hmode))
  · exact h

theorem parse_named (h : parse rules doc out = .ok nzb) : ∀ f∈nzb.files,Named rules f := by
  have hread : ∀ (events : List XmlEvent) (s : State), Read rules s →
      Read rules (events.foldl (step rules) s) := by
    intro events
    induction events with
    | nil => exact fun s hs => hs
    | cons e events ih => exact fun s hs => ih _ (read_step e hs)
  unfold parse at h
  dsimp only at h
  split at h
  · cases h
  · split_ifs at h
    cases h
    refine (hread doc.events _ ⟨?_,?_⟩).files
    · simp
    · exact .inr ⟨rfl,rfl,by simp⟩

end NzbFile

theorem cleaned_of_refused (h : isRefused u=true) : cleaned u=underscore := if_pos h

theorem cleaned_of_not_refused (h : isRefused u=false) : cleaned u=u :=
  if_neg (by rw [h]; exact Bool.false_ne_true)

/-- The same unit once the refused ones are replaced. -/
def SameUnit (u v : UInt16) : Prop :=
  u=v ∨ (isRefused u=true ∨ u=underscore) ∧ (isRefused v=true ∨ v=underscore)

instance (u v : UInt16) : Decidable (SameUnit u v) := inferInstanceAs (Decidable (_ ∨ _ ∧ _))

theorem cleaned_eq_underscore (u : UInt16) :
    cleaned u=underscore ↔ isRefused u=true ∨ u=underscore := by
  cases hu : isRefused u with
  | true => simp [cleaned_of_refused hu]
  | false => simp [cleaned_of_not_refused hu]

theorem cleaned_eq_iff : cleaned u=cleaned v ↔ SameUnit u v := by
  unfold SameUnit
  rw [← cleaned_eq_underscore,← cleaned_eq_underscore]
  constructor
  · intro h
    cases hu : isRefused u with
    | true => exact .inr ⟨cleaned_of_refused hu,h ▸ cleaned_of_refused hu⟩
    | false =>
      cases hv : isRefused v with
      | true => exact .inr ⟨h.trans (cleaned_of_refused hv),cleaned_of_refused hv⟩
      | false => exact .inl (by rwa [cleaned_of_not_refused hu,cleaned_of_not_refused hv] at h)
  · rintro (rfl | ⟨hu,hv⟩)
    · rfl
    · rw [hu,hv]

/-- White space that is not replaced first. -/
def isBlank (u : UInt16) : Bool := isSpace u && !isRefused u

/-- A name without the blanks around it and without its first dots. -/
def core (raw : QString) : QString :=
  ((raw.dropWhile isBlank).rdropWhile isBlank).dropWhile fun u => decide (u = period)

/-- What a name keeps, before its units are replaced. -/
def kept (raw : QString) : QString :=
  (if core raw = [] then lit "file" else core raw).take 180

theorem sanitizeName_eq (raw : QString) : sanitizeName raw=(kept raw).map cleaned := by
  have hspace : isSpace ∘ cleaned=isBlank := by
    funext u
    cases hu : isRefused u with
    | true => simp [isBlank,hu,cleaned_of_refused hu,show isSpace underscore=false from rfl]
    | false => simp [isBlank,hu,cleaned_of_not_refused hu]
  have hdot : (fun u => decide (u=period)) ∘ cleaned=fun u => decide (u=period) := by
    funext u
    cases hu : isRefused u with
    | true =>
      have hne : u≠period := fun h => absurd (h ▸ hu) (by decide)
      simp [cleaned_of_refused hu,hne,show underscore≠period by decide]
    | false => simp [cleaned_of_not_refused hu]
  have hcore : (trimmed (raw.map cleaned)).dropWhile (fun u => decide (u=period)) =
      (core raw).map cleaned := by
    rw [trimmed,List.dropWhile_map,hspace,List.rdropWhile,← List.map_reverse,
      List.dropWhile_map,hspace,← List.map_reverse,List.dropWhile_map,hdot]
    rfl
  have hfile : lit "file" = (lit "file").map cleaned := by decide
  dsimp only [sanitizeName,kept]
  rw [hcore,List.map_take]
  by_cases hnil : core raw=[]
  · rw [if_pos hnil,if_pos (List.map_eq_nil_iff.mpr hnil),← hfile]
  · rw [if_neg hnil,if_neg (fun h => hnil (List.map_eq_nil_iff.mp h))]

theorem not_refused_digit {d : Nat} (h : digit? u=some d) : isRefused u=false := by
  unfold digit? at h
  split_ifs at h with hdigit
  unfold isRefused
  simp only [decide_eq_false_iff_not,List.mem_cons,List.not_mem_nil,or_false]
  rintro ((rfl | rfl | rfl | rfl | rfl | rfl | rfl | rfl | rfl) | hlow)
  all_goals first | exact absurd hdigit (by decide) | skip
  omega

/-- The number of a file, four digits at least. -/
def padded (i : Nat) : QString := List.replicate (4 - (number i).length) 0x30 ++ number i

theorem padded_digit {i : Nat} (h : u∈padded i) : ∃ d, digit? u=some d := by
  rcases List.mem_append.mp h with hzero | hnumber
  · exact ⟨0,by rw [List.eq_of_mem_replicate hzero]; rfl⟩
  · exact number_digit hnumber

theorem partName_eq (i : Nat) : partName i=lit "part" ++ padded i := by
  have hunits : Closed (lit "part") := closed_of_units (List.all_iff_forall_prop.mp (by decide))
  have hmarkers : markers (lit "part")=[] := by decide
  have h : arg (lit "part" ++ percent::0x31::[]) (padded i)=lit "part" ++ padded i++[] :=
    arg_at hunits (show digit? 0x31=some 1 from rfl) Nat.one_ne_zero (by simp)
      (by simp [hmarkers]) (by simp [markers,pieces])
  rwa [List.append_nil] at h

theorem map_cleaned_partName (i : Nat) : (partName i).map cleaned=partName i := by
  have hunits : ∀ u∈partName i,cleaned u=id u := by
    intro u hu
    rw [partName_eq,List.mem_append] at hu
    rcases hu with hpart | hpadded
    · have hplain : ∀ u∈lit "part", isRefused u=false :=
        List.all_iff_forall_prop.mp (by decide)
      exact cleaned_of_not_refused (hplain u hpart)
    · obtain ⟨d,hd⟩ := padded_digit hpadded
      exact cleaned_of_not_refused (not_refused_digit hd)
  rw [List.map_congr_left hunits,List.map_id]

/-- What the scratch name of a file is made of, from the name its subject gives. -/
def scratchText (i : Nat) (name : QString) : QString :=
  if name=[] then partName i else kept name

theorem scratchBase_eq (i : Nat) (info : NzbFileInfo) :
    UsenetQueueItem.scratchBase i info=(scratchText i info.fileName).map cleaned := by
  unfold UsenetQueueItem.scratchBase scratchText
  split_ifs
  · rw [map_cleaned_partName]
  · exact sanitizeName_eq info.fileName

def scratchName (text : QString) : QString := text.map cleaned++kUsenetPartSuffix

theorem scratchName_units {text : QString} (h : u∈scratchName text) : u≠slash ∧ u≠colon := by
  rcases List.mem_append.mp h with htext | hsuffix
  · obtain ⟨v,-,rfl⟩ := List.mem_map.mp htext
    cases hv : isRefused v with
    | true =>
      rw [cleaned_of_refused hv]
      decide
    | false =>
      rw [cleaned_of_not_refused hv]
      constructor <;> exact fun heq => absurd (heq ▸ hv) (by decide)
  · have hplain : ∀ u∈kUsenetPartSuffix,u≠slash ∧ u≠colon :=
      List.all_iff_forall_prop.mp (by decide)
    exact hplain u hsuffix

theorem scratchName_plain (text : QString) : Plain (scratchName text) := by
  have hlong : 11≤(scratchName text).length := by
    rw [scratchName,List.length_append]
    exact Nat.le_add_left ..
  have hne : ∀ short : QString, short.length<11 → scratchName text≠short := by
    intro short hshort heq
    rw [heq] at hlong
    omega
  exact ⟨hne _ (by decide),hne _ (by decide),hne _ (by decide),
    fun h => (scratchName_units h).1 rfl⟩

theorem scratchName_relative (text : QString) :
    QDir.treatAsAbsolute (scratchName text)=false :=
  treatAsAbsolute_eq_false (scratchName_plain text).noSlash fun h =>
    (scratchName_units (List.mem_of_mem_head? h)).2 rfl

theorem scratchName_inj {a b : QString} :
    scratchName a=scratchName b ↔ List.Forall₂ SameUnit a b := by
  rw [scratchName,scratchName,List.append_cancel_right_eq,← List.forall₂_eq_eq_eq,
    List.forall₂_map_left_iff,List.forall₂_map_right_iff]
  simp only [cleaned_eq_iff]

/-- The names of an item that meet no other once the refused units are replaced. -/
def NamesApart (rules : QString → SubjectInfo) (files : List NzbFileInfo) : Prop :=
  (files.mapIdx fun i info => scratchText i (rules info.subject).fileName).Pairwise
    fun a b => ¬List.Forall₂ SameUnit a b

namespace UsenetQueueItem

/-- No scratch file has been named yet. -/
def Fresh (item : UsenetQueueItem) : Prop := ∀ st ∈ item.files, st.tempPath = []

theorem length_resized {α : Type} (n : Nat) (x : α) (xs : List α) :
    (resized n x xs).length=n := by
  rw [resized,List.length_append,List.length_take,List.length_replicate]
  omega

theorem tempPaths_initFileStates (h : item.Fresh) (tempRoot : QString) :
    (item.initFileStates tempRoot).files.map (fun st => st.tempPath) =
      item.nzb.files.mapIdx fun i info =>
        QDir.filePath (item.itemDir tempRoot) (scratchName (scratchText i info.fileName)) := by
  have hblank : ∀ st∈resized item.nzb.files.length QueuedFile.fresh item.files,
      st.tempPath=[] := by
    intro st hst
    rcases List.mem_append.mp hst with hold | hnew
    · exact h st (List.mem_of_mem_take hold)
    · rw [List.eq_of_mem_replicate hnew]
      rfl
  have hlength := length_resized item.nzb.files.length QueuedFile.fresh item.files
  refine List.ext_getElem (by simp [initFileStates,hlength]) ?_
  intro i hi hi'
  rw [List.length_mapIdx] at hi'
  have hst := hblank _ (List.getElem_mem (hlength.symm ▸ hi'))
  simp [initFileStates,initFileState,hst,scratchBase_eq,scratchName]

/-- The scratch paths of an item differ where, and only where, its names differ in more than what
is replaced, trimmed or cut. -/
theorem nodup_initFileStates_iff (h : item.Fresh)
    (hnamed : ∀ f∈item.nzb.files,NzbFile.Named rules f) (tempRoot : QString) :
    ((item.initFileStates tempRoot).files.map fun st => st.tempPath).Nodup ↔
      NamesApart rules item.nzb.files := by
  have htexts : (item.nzb.files.mapIdx fun i info => scratchText i info.fileName) =
      item.nzb.files.mapIdx fun i info => scratchText i (rules info.subject).fileName := by
    refine List.ext_getElem (by simp) ?_
    intro i hi hi'
    rw [List.length_mapIdx] at hi
    rw [List.getElem_mapIdx,List.getElem_mapIdx,hnamed _ (List.getElem_mem hi)]
  have hpath : ∀ a b : QString,
      QDir.filePath (item.itemDir tempRoot) (scratchName a) ≠
        QDir.filePath (item.itemDir tempRoot) (scratchName b) ↔ ¬List.Forall₂ SameUnit a b := by
    intro a b
    rw [ne_eq,filePath_inj (scratchName_relative a) (scratchName_relative b)
      (scratchName_plain a).nonempty (scratchName_plain b).nonempty,scratchName_inj]
  have hmap : (item.nzb.files.mapIdx fun i info =>
        QDir.filePath (item.itemDir tempRoot) (scratchName (scratchText i info.fileName))) =
      (item.nzb.files.mapIdx fun i info => scratchText i info.fileName).map fun text =>
        QDir.filePath (item.itemDir tempRoot) (scratchName text) := by
    refine List.ext_getElem (by simp) ?_
    intro i hi hi'
    simp
  rw [tempPaths_initFileStates h,hmap,htexts,List.Nodup,List.pairwise_map]
  exact List.Pairwise.iff hpath

theorem tempPath_initFileStates (h : item.Fresh) (tempRoot : QString) :
    ∀ st∈(item.initFileStates tempRoot).files, ∃ name, Plain name ∧
      QDir.treatAsAbsolute name=false ∧
      st.tempPath=QDir.filePath (item.itemDir tempRoot) name := by
  intro st hst
  have hpath := List.mem_map_of_mem (f := fun st : QueuedFile => st.tempPath) hst
  rw [tempPaths_initFileStates h,List.mem_mapIdx] at hpath
  obtain ⟨i,hi,heq⟩ := hpath
  exact ⟨_,scratchName_plain (scratchText i item.nzb.files[i].fileName),
    scratchName_relative _,heq.symm⟩

end UsenetQueueItem

open Framework Utils Utils.QString

variable {cwd home k : List QString} {path name : QString} {disk : FileTree QString (List UInt8)}
  {item : UsenetQueueItem} {s : ScratchState} {st st' : QueuedFile} {i : Nat}

theorem mem_completeBaseName {u : UInt16} (h : u∈QFileInfo.completeBaseName name) : u∈name := by
  unfold QFileInfo.completeBaseName at h
  dsimp only at h
  split_ifs at h
  · exact (List.rtakeWhile_suffix _ _).subset
      ((List.rdropWhile_prefix _ _).subset (List.mem_of_mem_dropLast h))
  · exact (List.rtakeWhile_suffix _ _).subset h

theorem mem_suffix {u : UInt16} (h : u∈QFileInfo.suffix name) : u∈name := by
  unfold QFileInfo.suffix at h
  dsimp only at h
  split_ifs at h
  · exact (List.rtakeWhile_suffix _ _).subset ((List.rtakeWhile_suffix _ _).subset h)
  · cases h

theorem slash_not_mem_number (n : Nat) : slash∉number n := by
  intro h
  obtain ⟨d,hd⟩ := number_digit h
  cases hd

theorem numberedName_plain (h : slash∉name) (n : Nat) : Plain (numberedName name n) := by
  have hspace : (0x20 : UInt16)∈numberedName name n := by
    refine mem_arg (by decide) rfl (mem_arg (by decide) rfl (mem_arg (by decide) rfl ?_))
    decide
  refine ⟨?_,?_,?_,?_⟩
  · exact List.ne_nil_of_mem hspace
  · exact fun heq => absurd (heq ▸ hspace) (by decide)
  · exact fun heq => absurd (heq ▸ hspace) (by decide)
  · intro hslash
    rcases mem_of_mem_arg hslash with hnumbered | hsuffix
    · rcases mem_of_mem_arg hnumbered with hbase | hnumber
      · rcases mem_of_mem_arg hbase with htemplate | hbase
        · exact absurd htemplate (by decide)
        · exact h (mem_completeBaseName hbase)
      · exact slash_not_mem_number n hnumber
    · split_ifs at hsuffix with hnil
      · cases hsuffix
      · rcases List.mem_cons.mp hsuffix with hdot | hsuffix
        · exact absurd hdot (by decide)
        · exact h (mem_suffix hsuffix)

theorem uniqueName_plain {taken : QString → Bool} (hslash : slash∉name)
    (hsame : taken []=true) (hdot : taken [period]=true)
    (hup : taken [period,period]=true) : Plain (uniqueName name taken) := by
  unfold uniqueName
  split_ifs with htaken
  · split
    · exact numberedName_plain hslash _
    · have hlong : 4≤(name++lit ".dup").length := by
        rw [List.length_append]
        exact Nat.le_add_left ..
      refine ⟨?_,?_,?_,?_⟩
      · exact fun heq => absurd (heq ▸ hlong) (by decide)
      · exact fun heq => absurd (heq ▸ hlong) (by decide)
      · exact fun heq => absurd (heq ▸ hlong) (by decide)
      · intro h
        rcases List.mem_append.mp h with h | h
        · exact hslash h
        · exact absurd h (by decide)
  · exact ⟨fun heq => htaken (heq ▸ hsame),fun heq => htaken (heq ▸ hdot),
      fun heq => htaken (heq ▸ hup),hslash⟩

namespace ScratchState

theorem openFile_of_ne (h : k≠locate cwd path) :
    (openFile cwd path disk).file k=disk.file k := by
  dsimp only [openFile]
  split_ifs
  · exact FileTree.file_create_of_ne h
  · rfl
  · rw [FileTree.file_create_of_ne h,FileTree.file_mkpath]

theorem createTargetFile_of_ne (h : k≠locate cwd path) :
    (createTargetFile cwd path disk).file k=disk.file k := by
  rw [createTargetFile,openFile_of_ne h,FileTree.file_mkpath]

theorem writeArticle_of_ne (h : k≠locate cwd path) (offset : Nat) (data : List UInt8) :
    (writeArticle cwd path offset data disk).file k=disk.file k := by
  rw [writeArticle,FileTree.file_modify_of_ne h,openFile_of_ne h]

theorem padToDeclaredSize_of_ne (h : k≠locate cwd st.tempPath) :
    (padToDeclaredSize cwd st disk).file k=disk.file k := by
  unfold padToDeclaredSize
  split_ifs
  · rfl
  · rw [FileTree.file_modify_of_ne h,FileTree.file_create_of_ne h]

/-- Where a file is sealed: the first name that is free in its directory. -/
def landing (cwd : List QString) (s : ScratchState) (i : Nat) (st : QueuedFile) : QString :=
  uniqueName (s.item.sealedName i) fun n => taken cwd (padToDeclaredSize cwd st s.disk)
    (QDir.filePath (QFileInfo.absolutePath cwd st.tempPath) n)

/-- A file that is there and not sealed yet lands on a name that is no resource and no scratch
file still to come. -/
def Op.Clear (cwd : List QString) (s : ScratchState) : Op → Prop
  | .sealFile i => ∀ st, s.item.files[i]? = some st →
      ((padToDeclaredSize cwd st s.disk).file (locate cwd st.tempPath)).isSome = true →
      st.tempPath ≠
        QDir.filePath (QFileInfo.absolutePath cwd st.tempPath) (s.item.sealedName i) →
      (landing cwd s i st).head? ≠ some colon ∧
        ∀ j other, j ≠ i → s.item.files[j]? = some other →
          s.disk.file (locate cwd other.tempPath) = none →
          locate cwd other.tempPath ≠
            (locate cwd st.tempPath).dropLast ++ [landing cwd s i st]
  | _ => True

/-- The scratch files of an item differ and lie in its directory. -/
structure Sound (cwd home : List QString) (item : UsenetQueueItem) : Prop where
  apart : ∀ (i j : Nat) (a b : QueuedFile),
    item.files[i]? = some a → item.files[j]? = some b → i ≠ j →
    locate cwd a.tempPath ≠ locate cwd b.tempPath
  inside : ∀ st ∈ item.files, ∃ name, Plain name ∧ locate cwd st.tempPath = home ++ [name]

/-- What is known and what is on disk of the other files stays. -/
def Untouched (cwd : List QString) (i : Nat) (s s' : ScratchState) : Prop :=
  ∀ j other, j ≠ i → s.item.files[j]? = some other → s'.item.files[j]? = some other ∧
    s'.disk.file (locate cwd other.tempPath) = s.disk.file (locate cwd other.tempPath)

theorem sound_withFile (h : Sound cwd home s.item)
    (hinside : ∃ name, Plain name ∧ locate cwd st'.tempPath=home++[name])
    (hapart : ∀ j other,j≠i → s.item.files[j]? = some other →
      locate cwd other.tempPath≠locate cwd st'.tempPath) :
    Sound cwd home (s.withFile i st').item := by
  have hfiles : (s.withFile i st').item.files=s.item.files.set i st' := rfl
  refine ⟨?_,?_⟩
  · intro j l a b ha hb hne
    rw [hfiles] at ha hb
    by_cases hj : j=i
    · have hl : l≠i := fun hl => hne (hj.trans hl.symm)
      rw [List.getElem?_set_ne hl.symm] at hb
      have hset : a=st' := by
        rw [hj,List.getElem?_set_self'] at ha
        cases hold : s.item.files[i]? with
        | none => simp [hold] at ha
        | some old => simpa [hold] using ha.symm
      rw [hset]
      exact (hapart l b hl hb).symm
    · rw [List.getElem?_set_ne (Ne.symm hj)] at ha
      by_cases hl : l=i
      · have hset : b=st' := by
          rw [hl,List.getElem?_set_self'] at hb
          cases hold : s.item.files[i]? with
          | none => simp [hold] at hb
          | some old => simpa [hold] using hb.symm
        rw [hset]
        exact hapart j a hj ha
      · rw [List.getElem?_set_ne (Ne.symm hl)] at hb
        exact h.apart j l a b ha hb hne
  · intro f hf
    rcases List.mem_or_eq_of_mem_set hf with hold | rfl
    · exact h.inside f hold
    · exact hinside

theorem sealFile_cases (h : s.item.files[i]? = some st) :
    ∃ st', (s.sealFile cwd i).item=(s.withFile i st').item ∧
      (st'.tempPath=st.tempPath ∧ (s.sealFile cwd i).disk=padToDeclaredSize cwd st s.disk ∨
        st.tempPath ≠
            QDir.filePath (QFileInfo.absolutePath cwd st.tempPath) (s.item.sealedName i) ∧
          st'.tempPath =
            QDir.filePath (QFileInfo.absolutePath cwd st.tempPath) (landing cwd s i st) ∧
          (padToDeclaredSize cwd st s.disk).rename (locate cwd st.tempPath)
            (locate cwd st'.tempPath)=some (s.sealFile cwd i).disk) := by
  rw [sealFile,h]
  dsimp only
  by_cases hsealed : st.tempPath =
      QDir.filePath (QFileInfo.absolutePath cwd st.tempPath) (s.item.sealedName i)
  · rw [if_pos hsealed]
    exact ⟨_,rfl,.inl ⟨rfl,rfl⟩⟩
  · rw [if_neg hsealed]
    refine ⟨_,rfl,?_⟩
    dsimp only [withFile]
    generalize hrenamed : (if st.tempPath≠uniqueDestination
        (QFileInfo.absolutePath cwd st.tempPath) (s.item.sealedName i)
        (taken cwd (padToDeclaredSize cwd st s.disk)) then _ else none)=renamed
    cases renamed with
    | none => exact .inl ⟨rfl,rfl⟩
    | some renamed =>
      refine .inr ⟨hsealed,rfl,?_⟩
      split_ifs at hrenamed
      exact hrenamed

theorem landing_plain (hcwd : ∀ p∈cwd,Plain p)
    (hfile : ((padToDeclaredSize cwd st s.disk).file (locate cwd st.tempPath)).isSome=true) :
    Plain (landing cwd s i st) := by
  have hdir := FileTree.parent _ _ hfile
  have hplace := locate_absolutePath (q := st.tempPath) hcwd
  have htaken : ∀ short : QString, QDir.treatAsAbsolute short=false → slash∉short →
      (padToDeclaredSize cwd st s.disk).dir (enter (locate cwd st.tempPath).dropLast short)=true →
      taken cwd (padToDeclaredSize cwd st s.disk)
        (QDir.filePath (QFileInfo.absolutePath cwd st.tempPath) short)=true := by
    intro short habs hslash hshort
    rw [taken,locate_filePath_eq habs hslash,hplace]
    exact FileTree.present_of_dir hshort
  refine uniqueName_plain (slash_not_mem_fileName _) ?_ ?_ ?_
  · exact htaken _ rfl (by decide) hdir
  · exact htaken _ rfl (by decide) hdir
  · exact htaken _ rfl (by decide) (FileTree.up _ _ hdir)

theorem sealFile_sound (hcwd : ∀ p∈cwd,Plain p) (hsound : Sound cwd home s.item)
    (hclear : Op.Clear cwd s (.sealFile i)) :
    Sound cwd home (s.sealFile cwd i).item ∧ Untouched cwd i s (s.sealFile cwd i) := by
  cases hst : s.item.files[i]? with
  | none =>
    have hsame : s.sealFile cwd i=s := by rw [sealFile,hst]
    rw [hsame]
    exact ⟨hsound,fun j other _ hother => ⟨hother,rfl⟩⟩
  | some st =>
    obtain ⟨st',hitem,hdisk⟩ := @sealFile_cases cwd s st i hst
    have hothers : ∀ j other,j≠i → s.item.files[j]? = some other →
        (s.sealFile cwd i).item.files[j]? = some other := by
      intro j other hj hother
      rw [hitem]
      exact (List.getElem?_set_ne (Ne.symm hj)).trans hother
    have hpadded : ∀ j other,j≠i → s.item.files[j]? = some other →
        (padToDeclaredSize cwd st s.disk).file (locate cwd other.tempPath) =
          s.disk.file (locate cwd other.tempPath) := fun j other hj hother =>
      padToDeclaredSize_of_ne (hsound.apart j i other st hother hst hj)
    have hinside := hsound.inside st (List.mem_of_getElem? hst)
    rcases hdisk with ⟨hpath,hdisk⟩ | ⟨hunsealed,hpath,hrename⟩
    · refine ⟨?_,fun j other hj hother => ⟨hothers j other hj hother,?_⟩⟩
      · rw [hitem]
        refine sound_withFile hsound (by rwa [hpath]) ?_
        intro j other hj hother
        rw [hpath]
        exact hsound.apart j i other st hother hst hj
      · rw [hdisk]
        exact hpadded j other hj hother
    · obtain ⟨hfree,hfile,-,hframe⟩ := FileTree.rename_spec hrename
      obtain ⟨hcolon,hunborn⟩ := hclear st hst hfile hunsealed
      have hplain : Plain (landing cwd s i st) := landing_plain hcwd hfile
      have hland : locate cwd st'.tempPath =
          (locate cwd st.tempPath).dropLast++[landing cwd s i st] := by
        rw [hpath,locate_filePath (treatAsAbsolute_eq_false hplain.noSlash hcolon) hplain,
          locate_absolutePath hcwd]
      -- a scratch file that is there keeps its name from being free
      have hapart : ∀ j other,j≠i → s.item.files[j]? = some other →
          locate cwd other.tempPath≠locate cwd st'.tempPath := by
        intro j other hj hother heq
        cases hold : s.disk.file (locate cwd other.tempPath) with
        | none => exact hunborn j other hj hother hold (heq.trans hland)
        | some bytes =>
          have hthere := hpadded j other hj hother
          rw [hold] at hthere
          have hpresent := FileTree.present_of_file (Option.isSome_iff_exists.mpr ⟨bytes,hthere⟩)
          rw [heq,hfree] at hpresent
          exact Bool.false_ne_true hpresent
      refine ⟨?_,fun j other hj hother => ⟨hothers j other hj hother,?_⟩⟩
      · rw [hitem]
        refine sound_withFile hsound ⟨_,hplain,?_⟩ hapart
        obtain ⟨name,-,hname⟩ := hinside
        rw [hland,hname,List.dropLast_concat]
      · rw [hframe _ (hsound.apart j i other st hother hst hj) (hapart j other hj hother)]
        exact hpadded j other hj hother

theorem step_sound (hcwd : ∀ p∈cwd,Plain p) (op : Op) (hsound : Sound cwd home s.item)
    (hclear : op.Clear cwd s) :
    Sound cwd home (step cwd s op).item ∧ Untouched cwd op.file s (step cwd s op) := by
  have hidle : Sound cwd home s.item ∧ Untouched cwd op.file s s :=
    ⟨hsound,fun j other _ hother => ⟨hother,rfl⟩⟩
  cases op with
  | sealFile i => exact sealFile_sound hcwd hsound hclear
  | create i =>
    dsimp only [step]
    cases hst : s.item.files[i]? with
    | none => exact hidle
    | some st =>
      refine ⟨hsound,fun j other hj hother => ⟨hother,?_⟩⟩
      exact createTargetFile_of_ne (hsound.apart j i other st hother hst hj)
  | write i offset data =>
    dsimp only [step]
    cases hst : s.item.files[i]? with
    | none => exact hidle
    | some st =>
      refine ⟨hsound,fun j other hj hother => ⟨hother,?_⟩⟩
      exact writeArticle_of_ne (hsound.apart j i other st hother hst hj) offset data
  | learn i articleFileName par2FileName declaredSize =>
    dsimp only [step]
    cases hst : s.item.files[i]? with
    | none => exact hidle
    | some st =>
      refine ⟨sound_withFile hsound (hsound.inside st (List.mem_of_getElem? hst)) ?_,?_⟩
      · intro j other hj hother
        exact hsound.apart j i other st hother hst hj
      · intro j other hj hother
        exact ⟨(List.getElem?_set_ne (Ne.symm hj)).trans hother,rfl⟩

end ScratchState

theorem initFileStates_sound (h : item.Fresh) (cwd : List QString) (tempRoot : QString)
    (hnodup : ((item.initFileStates tempRoot).files.map fun st => st.tempPath).Nodup) :
    ScratchState.Sound cwd (locate cwd (item.itemDir tempRoot)) (item.initFileStates tempRoot) := by
  refine ⟨?_,?_⟩
  · intro i j a b ha hb hne heq
    obtain ⟨x,hx,hxrel,hapath⟩ :=
      item.tempPath_initFileStates h tempRoot a (List.mem_of_getElem? ha)
    obtain ⟨y,hy,hyrel,hbpath⟩ :=
      item.tempPath_initFileStates h tempRoot b (List.mem_of_getElem? hb)
    rw [hapath,hbpath,locate_filePath hxrel hx,locate_filePath hyrel hy,
      List.append_cancel_left_eq,List.singleton_inj] at heq
    have hi := (List.getElem?_eq_some_iff.mp ha).1
    refine hne ((List.getElem?_inj (by rwa [List.length_map]) hnodup).mp ?_)
    rw [List.getElem?_map,List.getElem?_map,ha,hb,Option.map_some,Option.map_some,hapath,
      hbpath,heq]
  · intro st hst
    obtain ⟨name,hname,hrel,hpath⟩ := item.tempPath_initFileStates h tempRoot st hst
    exact ⟨name,hname,by rw [hpath,locate_filePath hrel hname]⟩

/-- Scratch paths differ if the names of the files do, in more than what is replaced, trimmed or
cut; then no file is written to or renamed for another, as long as none lands where another is
still to come. -/
theorem scratchPaths_apart_iff (rules : QString → SubjectInfo) (doc : XmlDocument) (out : NzbInfo)
    (item : UsenetQueueItem) (hparse : NzbFile.parse rules doc out = .ok item.nzb)
    (hfresh : item.Fresh) (tempRoot : QString) (cwd : WorkDir) :
    let built := item.initFileStates tempRoot
    let home := locate cwd.parts (item.itemDir tempRoot)
    (((built.files.map fun st => st.tempPath).Nodup ∧
        ∀ st∈built.files,∃ name, Plain name ∧ locate cwd.parts st.tempPath=home++[name]) ↔
      NamesApart rules item.nzb.files) ∧
    (NamesApart rules item.nzb.files → ∀ disk ops,
      Along (ScratchState.step cwd.parts) (fun s op => op.Clear cwd.parts s) ⟨built,disk⟩ ops →
      let s := run (ScratchState.step cwd.parts) ⟨built,disk⟩ ops
      ScratchState.Sound cwd.parts home s.item ∧
        ∀ op,ScratchState.Op.Clear cwd.parts s op →
          ScratchState.Untouched cwd.parts op.file s (ScratchState.step cwd.parts s op)) := by
  have hnodup := item.nodup_initFileStates_iff hfresh (NzbFile.parse_named hparse) tempRoot
  refine ⟨⟨fun h => hnodup.mp h.1,fun h => ⟨hnodup.mpr h,?_⟩⟩,?_⟩
  · exact (initFileStates_sound hfresh cwd.parts tempRoot (hnodup.mpr h)).inside
  · intro hnames disk ops hclear
    have hstart := initFileStates_sound hfresh cwd.parts tempRoot (hnodup.mpr hnames)
    have hkeep : ∀ (s : ScratchState) (op : ScratchState.Op),
        ScratchState.Sound cwd.parts (locate cwd.parts (item.itemDir tempRoot)) s.item →
        op.Clear cwd.parts s →
        ScratchState.Sound cwd.parts (locate cwd.parts (item.itemDir tempRoot))
          (ScratchState.step cwd.parts s op).item :=
      fun s op hs hop => (ScratchState.step_sound cwd.plain op hs hop).1
    have hend := run_invariant hkeep hstart hclear
    exact ⟨hend,fun op hop => (ScratchState.step_sound cwd.plain op hend hop).2⟩

/-- A subject rule: the name is what stands between the first two quotes. -/
def quotedName (subject : QString) : SubjectInfo where
  fileName :=
    trimmed (((subject.dropWhile fun u => decide (u≠0x22)).tail).takeWhile fun u =>
      decide (u≠0x22))
  total := 0

/-- A document of files with one article each. -/
def posted (subjects : List QString) : XmlDocument where
  events :=
    subjects.flatMap fun subject =>
      ([.startElement (lit "file") [(lit "subject", subject)],
        .startElement (lit "segment") [(lit "bytes", lit "5"), (lit "number", lit "1")],
        .characters (lit "a@b"), .endElement (lit "segment"), .endElement (lit "file")] :
          List XmlToken).map fun token => ⟨token, 1⟩
  error := none

def posting (subject : QString) : NzbFileInfo :=
  ⟨subject, [], 0, [], [⟨lit "a@b", 5, 1, lit "1", -1⟩], [], (quotedName subject).fileName, 0⟩

def queued (subjects : List QString) : UsenetQueueItem :=
  ⟨lit "7", lit "n", ⟨[], [], subjects.map posting, [], 0⟩, []⟩

def noInfo : NzbInfo := ⟨[],[],[],[],0⟩

theorem twoNames_scratchPaths : (((queued [lit "\"a.bin\"", lit "\"b.bin\""]).initFileStates
    (lit "/t")).files.map fun st => st.tempPath).Nodup := by
  have hparse : NzbFile.parse quotedName (posted [lit "\"a.bin\"",lit "\"b.bin\""]) noInfo =
      .ok (queued [lit "\"a.bin\"",lit "\"b.bin\""]).nzb := by rfl
  have hfresh : (queued [lit "\"a.bin\"",lit "\"b.bin\""]).Fresh := fun _ h => nomatch h
  refine ((scratchPaths_apart_iff quotedName _ noInfo _ hparse hfresh (lit "/t")
    ⟨[],fun _ h => nomatch h⟩).1.mpr ?_).1
  simp only [NamesApart,← scratchName_inj]
  decide

/-- A repost: two files whose subjects give one name. -/
theorem sameName_scratchPaths : ¬∀ (rules : QString → SubjectInfo) (doc : XmlDocument)
    (out : NzbInfo) (item : UsenetQueueItem) (tempRoot : QString),
    NzbFile.parse rules doc out = .ok item.nzb → item.Fresh →
      ((item.initFileStates tempRoot).files.map fun st => st.tempPath).Nodup := by
  intro h
  have hparse : NzbFile.parse quotedName (posted [lit "\"a.bin\"",lit "re: \"a.bin\""]) noInfo =
      .ok (queued [lit "\"a.bin\"",lit "re: \"a.bin\""]).nzb := by rfl
  have hnodup := h quotedName _ noInfo (queued [lit "\"a.bin\"",lit "re: \"a.bin\""]) (lit "/t")
    hparse fun _ h => nomatch h
  revert hnodup
  decide

end EmuleQt.Usenet
