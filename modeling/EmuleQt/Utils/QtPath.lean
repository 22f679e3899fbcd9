import EmuleQt.Utils.QtArg

namespace EmuleQt.Utils

open QString

def period : UInt16 := 0x2E

namespace QDir

/-- `QDir(path).path()`. -/
def path (path : QString) : QString :=
  if path = [] then [period]
  else if 1 < path.length ∧ path.getLast? = some slash then path.dropLast
  else path

/-- A colon begins the path of a resource. -/
def treatAsAbsolute (name : QString) : Bool :=
  decide (name.head? = some slash ∨ name.head? = some colon)

/-- `QDir(dir).filePath(name)`. -/
def filePath (dir name : QString) : QString :=
  if treatAsAbsolute name then name
  else if name = [] then path dir
  else if (path dir).getLast? = some slash then path dir ++ name
  else path dir ++ slash :: name

end QDir

/-- One part of a path, followed. -/
def enter (place : List QString) (part : QString) : List QString :=
  if part = [] ∨ part = [period] then place
  else if part = [period, period] then place.dropLast
  else place ++ [part]

/-- Where a path leads, from the root; without links. -/
def locate (cwd : List QString) (path : QString) : List QString :=
  (path.splitOn slash).foldl enter (if path.head? = some slash then [] else cwd)

namespace QFileInfo

def fileName (path : QString) : QString := path.rtakeWhile fun u => decide (u ≠ slash)

def completeBaseName (path : QString) : QString :=
  let name := fileName path
  if period ∈ name then (name.rdropWhile fun u => decide (u ≠ period)).dropLast else name

def suffix (path : QString) : QString :=
  let name := fileName path
  if period ∈ name then name.rtakeWhile fun u => decide (u ≠ period) else []

def absolutePath (cwd : List QString) (path : QString) : QString :=
  slash :: [slash].intercalate (locate cwd path).dropLast

end QFileInfo

/-- What the name of a directory entry is. -/
structure Plain (name : QString) : Prop where
  nonempty : name ≠ []
  notSame : name ≠ [period]
  notUp : name ≠ [period, period]
  noSlash : slash ∉ name

/-- The directory the program works in, by its way from the root. -/
structure WorkDir where
  parts : List QString
  plain : ∀ p ∈ parts, Plain p

variable {cwd place parts : List QString} {dir name q : QString}

theorem enter_plain (h : Plain name) : enter place name=place++[name] := by
  rw [enter,if_neg (not_or.mpr ⟨h.nonempty,h.notSame⟩),if_neg h.notUp]

theorem foldl_enter_plain (h : ∀ part∈parts,Plain part) :
    parts.foldl enter place=place++parts := by
  induction parts generalizing place with
  | nil => simp
  | cons part parts ih =>
    obtain ⟨hpart,hparts⟩ := List.forall_mem_cons.mp h
    rw [List.foldl_cons,enter_plain hpart,ih hparts,List.append_assoc,List.singleton_append]

theorem enter_forall_plain {part : QString} (hpart : slash∉part) (h : ∀ p∈place,Plain p) :
    ∀ p∈enter place part,Plain p := by
  unfold enter
  split_ifs with hsame hup
  · exact h
  · intro p hp
    exact h p (List.mem_of_mem_dropLast hp)
  · intro p hp
    rcases List.mem_append.mp hp with hold | hnew
    · exact h p hold
    · rw [List.mem_singleton.mp hnew]
      exact ⟨fun hp => hsame (.inl hp),fun hp => hsame (.inr hp),hup,hpart⟩

theorem slash_not_mem_part {part : QString} (h : part∈q.splitOn slash) : slash∉part := by
  induction q generalizing part with
  | nil =>
    rw [List.splitOn_nil,List.mem_singleton] at h
    rw [h]
    exact List.not_mem_nil
  | cons u q ih =>
    rw [List.splitOn_cons_eq_if_modifyHead] at h
    split_ifs at h with hu
    · rcases List.mem_cons.mp h with rfl | hrest
      · exact List.not_mem_nil
      · exact ih hrest
    · cases hparts : q.splitOn slash with
      | nil => exact absurd hparts (List.splitOn_ne_nil slash q)
      | cons first rest =>
        rw [hparts,List.modifyHead_cons,List.mem_cons] at h
        rw [hparts] at ih
        rcases h with rfl | hrest
        · have hfirst : slash∉first := ih List.mem_cons_self
          have hu' : slash≠u := fun heq => hu (by simp [heq])
          simp [hu',hfirst]
        · exact ih (List.mem_cons_of_mem first hrest)

theorem foldl_enter_forall_plain (hparts : ∀ part∈parts,slash∉part)
    (h : ∀ p∈place,Plain p) : ∀ p∈parts.foldl enter place, Plain p := by
  induction parts generalizing place with
  | nil => exact h
  | cons part parts ih =>
    obtain ⟨hpart,hrest⟩ := List.forall_mem_cons.mp hparts
    exact ih hrest (enter_forall_plain hpart h)

theorem locate_plain (hcwd : ∀ p∈cwd,Plain p) : ∀ p∈locate cwd q,Plain p := by
  refine foldl_enter_forall_plain (fun part => slash_not_mem_part) ?_
  split_ifs
  · simp
  · exact hcwd

theorem locate_slash (q rest : QString) :
    locate cwd (q++slash::rest) =
      (rest.splitOn slash).foldl enter (locate cwd (q++[slash])) := by
  have hhead : (q++slash::rest).head? = (q++[slash]).head? := by cases q <;> rfl
  rw [locate,locate,hhead,List.splitOn_append_cons_self,List.splitOn_append_cons_self,
    List.splitOn_nil,List.foldl_append,List.foldl_append]
  rfl

theorem locate_concat_slash (h : q≠[]) : locate cwd (q++[slash])=locate cwd q := by
  have hhead : (q++[slash]).head? = q.head? := by
    cases q with
    | nil => exact absurd rfl h
    | cons u q => rfl
  rw [locate,locate,hhead,List.splitOn_append_cons_self,List.splitOn_nil,List.foldl_append]
  rfl

theorem QDir.path_ne_nil (dir : QString) : QDir.path dir≠[] := by
  unfold QDir.path
  split_ifs with hnil hlast
  · simp
  · intro h
    have hlength := congrArg List.length h
    rw [List.length_dropLast,List.length_nil] at hlength
    omega
  · exact hnil

theorem locate_path : locate cwd (QDir.path dir)=locate cwd dir := by
  unfold QDir.path
  split_ifs with hnil hlast
  · subst hnil
    simp [locate,enter,List.splitOn_eq_singleton,period,slash]
  · obtain ⟨hlength,hslash⟩ := hlast
    have hdir : dir.dropLast++[slash]=dir := List.dropLast_append_getLast? slash hslash
    have hne : dir.dropLast≠[] := by
      intro h
      have := congrArg List.length h
      rw [List.length_dropLast,List.length_nil] at this
      omega
    rw [← locate_concat_slash hne,hdir]
  · rfl

theorem locate_filePath_eq (habs : QDir.treatAsAbsolute name=false) (hname : slash∉name) :
    locate cwd (QDir.filePath dir name)=enter (locate cwd dir) name := by
  have hparts : name.splitOn slash=[name] := List.splitOn_eq_singleton hname
  have hdirPath : locate cwd (QDir.path dir)=locate cwd dir := locate_path
  rw [QDir.filePath,habs,if_neg Bool.false_ne_true,← hdirPath]
  split_ifs with hnil hlast
  · rw [hnil]
    rfl
  · have hpath : (QDir.path dir).dropLast++[slash]=QDir.path dir :=
      List.dropLast_append_getLast? slash hlast
    rw [← hpath,List.append_assoc,List.singleton_append,locate_slash,hparts]
    rfl
  · rw [locate_slash,locate_concat_slash (QDir.path_ne_nil dir),hparts]
    rfl

theorem locate_filePath (habs : QDir.treatAsAbsolute name=false) (h : Plain name) :
    locate cwd (QDir.filePath dir name)=locate cwd dir++[name] := by
  rw [locate_filePath_eq habs h.noSlash,enter_plain h]

theorem treatAsAbsolute_eq_false (hslash : slash∉name) (hcolon : name.head? ≠ some colon) :
    QDir.treatAsAbsolute name=false := by
  rw [QDir.treatAsAbsolute,decide_eq_false_iff_not]
  rintro (h | h)
  · exact hslash (List.mem_of_mem_head? h)
  · exact hcolon h

theorem filePath_inj {other : QString} (habs : QDir.treatAsAbsolute name=false)
    (habs' : QDir.treatAsAbsolute other=false) (hname : name≠[]) (hother : other≠[]) :
    QDir.filePath dir name=QDir.filePath dir other ↔ name=other := by
  rw [QDir.filePath,QDir.filePath,habs,habs',if_neg Bool.false_ne_true,
    if_neg Bool.false_ne_true,if_neg hname,if_neg hother]
  split_ifs <;> simp

theorem locate_absolutePath (hcwd : ∀ p∈cwd,Plain p) :
    locate cwd (QFileInfo.absolutePath cwd q)=(locate cwd q).dropLast := by
  have hplain : ∀ p∈(locate cwd q).dropLast, Plain p := fun p hp =>
    locate_plain hcwd p (List.mem_of_mem_dropLast hp)
  rw [QFileInfo.absolutePath,← List.nil_append (slash::_),locate_slash]
  cases hparts : (locate cwd q).dropLast with
  | nil => rfl
  | cons p ps =>
    rw [← hparts,List.splitOn_intercalate slash (fun p hp => (hplain p hp).noSlash)
      (by simp [hparts]),foldl_enter_plain hplain]
    rfl

theorem slash_not_mem_fileName (q : QString) : slash∉QFileInfo.fileName q := by
  intro h
  simpa using List.mem_rtakeWhile_imp h

end EmuleQt.Utils
