import EmuleQt.Crypto.FileIdentifier
import EmuleQt.Framework.Keyed
import EmuleQt.Utils.QtText
import Mathlib.Data.UInt
import Mathlib.Algebra.Group.Prod
import Mathlib.Tactic.Abel

namespace EmuleQt.Files

open Crypto Framework Utils

structure StatisticFile where
  allTimeTransferred : UInt64
  transferred : UInt64
  allTimeRequested : UInt32
  requested : UInt32
  allTimeAccepted : UInt32
  accepted : UInt32
  lastRequested : UInt32
  deriving DecidableEq

/-- Bytes, requests and accepts. -/
abbrev Figures := UInt64 × UInt32 × UInt32

namespace StatisticFile

def mergeFileStats (s other : StatisticFile) : StatisticFile where
  requested := s.requested + other.requested
  accepted := s.accepted + other.accepted
  transferred := s.transferred + other.transferred
  allTimeRequested := s.allTimeRequested + other.allTimeRequested
  allTimeAccepted := s.allTimeAccepted + other.allTimeAccepted
  allTimeTransferred := s.allTimeTransferred + other.allTimeTransferred
  lastRequested := max s.lastRequested other.lastRequested

def allTime (s : StatisticFile) : Figures :=
  (s.allTimeTransferred, s.allTimeRequested, s.allTimeAccepted)

theorem allTime_mergeFileStats (s other : StatisticFile) :
    (s.mergeFileStats other).allTime=s.allTime+other.allTime := rfl

end StatisticFile

structure KnownFile where
  fileIdentifier : FileIdentifier
  fileName : QString
  utcFileDate : Int
  statistic : StatisticFile

namespace KnownFile

def fileHash (f : KnownFile) : MD4Hash := f.fileIdentifier.md4Hash

def fileSize (f : KnownFile) : Nat := f.fileIdentifier.fileSize

/-- The file with the other's history added to its own. -/
def merge (f other : KnownFile) : KnownFile :=
  { f with statistic := f.statistic.mergeFileStats other.statistic }

end KnownFile

def kRoundingSecs : Int := 2
def kDstSecs : Int := 3600

def sameFileDate (stored onDisk : Int) (localTimeVolume : Bool) : Bool :=
  if stored = onDisk then true
  else
    let diff := |stored - onDisk|
    if localTimeVolume = false then diff = kDstSecs
    else diff ≤ kRoundingSecs ∨ |diff - kDstSecs| ≤ kRoundingSecs

/-- Where a file object lies. -/
abbrev FilePtr := Nat

/-- The list, and the file objects that are alive. A pointer to none stands for a null one. -/
structure KnownFileList where
  objects : FilePtr → Option KnownFile
  filesMap : List (MD4Hash × FilePtr)
  bySize : List (Nat × FilePtr)
  totalTransferred : UInt64
  totalRequested : UInt32
  totalAccepted : UInt32

/-- In what order a hash table is gone through. -/
structure Iteration where
  order : List FilePtr → List FilePtr
  perm : ∀ l, (order l).Perm l

namespace KnownFileList

def init : KnownFileList where
  objects _ := none
  filesMap := []
  bySize := []
  totalTransferred := 0
  totalRequested := 0
  totalAccepted := 0

def find (k : MD4Hash) (s : KnownFileList) : Option FilePtr :=
  (lookupKey Prod.fst k s.filesMap).map Prod.snd

def addToTotals (st : StatisticFile) (s : KnownFileList) : KnownFileList :=
  { s with
    totalTransferred := s.totalTransferred+st.allTimeTransferred
    totalRequested := s.totalRequested+st.allTimeRequested
    totalAccepted := s.totalAccepted+st.allTimeAccepted }

def takeFromTotals (st : StatisticFile) (s : KnownFileList) : KnownFileList :=
  { s with
    totalTransferred := s.totalTransferred-st.allTimeTransferred
    totalRequested := s.totalRequested-st.allTimeRequested
    totalAccepted := s.totalAccepted-st.allTimeAccepted }

def indexBySize (file : FilePtr) (size : Nat) (s : KnownFileList) : KnownFileList :=
  { s with bySize := s.bySize ++ [(size, file)] }

def unindexBySize (file : FilePtr) (size : Nat) (s : KnownFileList) : KnownFileList :=
  { s with
    bySize := if (size, file) ∈ s.bySize then s.bySize.erase (size, file)
      else s.bySize.filter fun entry => entry.2 ≠ file }

def setEntry (k : MD4Hash) (file : FilePtr) (s : KnownFileList) : KnownFileList :=
  { s with filesMap := upsert Prod.fst k (fun _ => (k, file)) s.filesMap }

def eraseEntry (k : MD4Hash) (s : KnownFileList) : KnownFileList :=
  { s with filesMap := s.filesMap.eraseP fun e => decide (e.1=k) }

/-- What a pointer points to: nothing after `delete`. -/
def setObject (file : FilePtr) (f : Option KnownFile) (s : KnownFileList) : KnownFileList :=
  { s with objects := Function.update s.objects file f }

def clear (s : KnownFileList) : KnownFileList where
  objects i := if i ∈ s.filesMap.map Prod.snd then none else s.objects i
  filesMap := []
  bySize := []
  totalTransferred := 0
  totalRequested := 0
  totalAccepted := 0

/-- The object under the hash of the new one is replaced by it. -/
def swapObjects (file existing : FilePtr) (f old : KnownFile) (s : KnownFileList) :
    KnownFileList :=
  let s := s.addToTotals f.statistic
  let s :=
    if f.fileSize=old.fileSize then s.setObject file (some (f.merge old))
    else s.takeFromTotals old.statistic
  (((s.unindexBySize existing old.fileSize).setObject existing none).setEntry
    f.fileHash file).indexBySize file f.fileSize

def safeAddKFile (file : FilePtr) (s : KnownFileList) : KnownFileList × Bool :=
  match s.objects file with
  | none => (s, false)
  | some f =>
    match s.find f.fileHash with
    | some existing =>
      if existing = file then (s, true)
      else
        match s.objects existing with
        | none => (s, true)
        | some old => (s.swapObjects file existing f old, true)
    | none =>
      (((s.setEntry f.fileHash file).indexBySize file f.fileSize).addToTotals f.statistic, true)

/-- The record is one part hash short and was of this very file. -/
def superseded (caseFold : QString → QString) (isShared : FilePtr → Bool) (fresh : FilePtr)
    (f : KnownFile) (old : FilePtr) (s : KnownFileList) : Bool :=
  match s.objects old with
  | none => false
  | some g => old ≠ fresh && !g.fileIdentifier.hasExpectedMD4HashCount &&
    g.fileHash ≠ f.fileHash && caseFold g.fileName = caseFold f.fileName &&
    sameFileDate g.utcFileDate f.utcFileDate true && !isShared old

/-- The pointers of one size. -/
def equalRange (size : Nat) (s : KnownFileList) : List FilePtr :=
  (s.bySize.filter fun entry => entry.1=size).map Prod.snd

def dropSupersededRecord (caseFold : QString → QString) (it : Iteration)
    (isShared : FilePtr → Bool) (fresh : FilePtr) (s : KnownFileList) : KnownFileList × Bool :=
  match s.objects fresh with
  | none => (s, false)
  | some f =>
    if f.fileSize = 0 ∨ f.fileSize % PARTSIZE ≠ 0 then (s, false)
    else
      match (it.order (s.equalRange f.fileSize)).find? fun old =>
        s.superseded caseFold isShared fresh f old with
      | none => (s, false)
      | some old =>
        match s.objects old with
        | none => (s, false)
        | some g =>
          let s := (s.takeFromTotals g.statistic).setObject fresh (some (f.merge g))
          let s := s.eraseEntry g.fileHash
          ({ s with bySize := s.bySize.erase (f.fileSize, old) }.setObject old none, true)

def replaceRecord (old fresh : FilePtr) (s : KnownFileList) : KnownFileList × Bool :=
  match s.objects old, s.objects fresh with
  | some g, some f =>
    if old = fresh then (s, false)
    else if g.fileHash = f.fileHash then s.safeAddKFile fresh
    else if s.find g.fileHash ≠ some old then (s, false)
    else
      let s := (s.takeFromTotals g.statistic).setObject fresh (some (f.merge g))
      let s := ((s.unindexBySize old g.fileSize).eraseEntry g.fileHash).setObject old none
      s.safeAddKFile fresh
  | _, _ => (s, false)

def dropRecord (old : FilePtr) (s : KnownFileList) : KnownFileList × Bool :=
  match s.objects old with
  | none => (s, false)
  | some g =>
    if s.find g.fileHash ≠ some old then (s, false)
    else (((s.unindexBySize old g.fileSize).eraseEntry g.fileHash).setObject old none, true)

/-- The record under the file's hash, which need not be the file. -/
def remove (file : FilePtr) (s : KnownFileList) : KnownFileList :=
  match s.objects file with
  | none => s
  | some f =>
    match s.find f.fileHash with
    | none => s
    | some stored =>
      match s.objects stored with
      | none => s
      | some g => (s.unindexBySize stored g.fileSize).eraseEntry f.fileHash

/-- What is done to the list, and what its users do with file objects of their own. -/
inductive Call where
  | newFile (file : FilePtr) (f : KnownFile)
  | deleteFile (file : FilePtr)
  | safeAddKFile (file : FilePtr)
  /-- `dropSupersededRecord`, then `safeAddKFile` of the same file. -/
  | addHashed (it : Iteration) (isShared : FilePtr → Bool) (fresh : FilePtr)
  | replaceRecord (old fresh : FilePtr)
  | dropRecord (old : FilePtr)
  | remove (file : FilePtr)
  | clear

def step (caseFold : QString → QString) (s : KnownFileList) : Call → KnownFileList
  | .newFile file f => s.setObject file (some f)
  | .deleteFile file => s.setObject file none
  | .safeAddKFile file => (s.safeAddKFile file).1
  | .addHashed it isShared fresh =>
    ((s.dropSupersededRecord caseFold it isShared fresh).1.safeAddKFile fresh).1
  | .replaceRecord old fresh => (s.replaceRecord old fresh).1
  | .dropRecord old => (s.dropRecord old).1
  | .remove file => s.remove file
  | .clear => s.clear

end KnownFileList

end EmuleQt.Files

namespace EmuleQt.Files.KnownFileList

open Crypto Framework Utils

section Entries

variable {objects objects' : FilePtr → Option KnownFile} {entries rest : List (MD4Hash × FilePtr)}
  {bySize : List (Nat × FilePtr)} {k : MD4Hash} {i : FilePtr} {f : KnownFile}

/-- What the object at a pointer brings to the totals. -/
def share (objects : FilePtr → Option KnownFile) (i : FilePtr) : Figures :=
  (objects i).elim 0 fun f => f.statistic.allTime

def sizeOf (objects : FilePtr → Option KnownFile) (i : FilePtr) : Nat :=
  (objects i).elim 0 KnownFile.fileSize

/-- The all-time figures of all records. -/
def figures (objects : FilePtr → Option KnownFile) (entries : List (MD4Hash × FilePtr)) :
    Figures := (entries.map fun e => share objects e.2).sum

/-- The records under their sizes. -/
def sized (objects : FilePtr → Option KnownFile) (entries : List (MD4Hash × FilePtr)) :
    List (Nat × FilePtr) := entries.map fun e => (sizeOf objects e.2, e.2)

/-- Every record is alive and under its own hash, and the size index holds just the records. -/
structure Indexed (objects : FilePtr → Option KnownFile) (entries : List (MD4Hash × FilePtr))
    (bySize : List (Nat × FilePtr)) : Prop where
  keys : (entries.map Prod.fst).Nodup
  own : ∀ k i, (k, i) ∈ entries → ∃ f, objects i = some f ∧ f.fileHash = k
  index : bySize.Perm (sized objects entries)

@[simp] theorem figures_cons : figures objects ((k, i)::rest) =
    share objects i+figures objects rest := rfl

@[simp] theorem sized_cons : sized objects ((k, i)::rest) =
    (sizeOf objects i, i)::sized objects rest := rfl

theorem share_of_some (h : objects i=some f) : share objects i=f.statistic.allTime := by
  rw [share,h,Option.elim_some]

theorem sizeOf_of_some (h : objects i=some f) : sizeOf objects i=f.fileSize := by
  rw [sizeOf,h,Option.elim_some]

theorem figures_perm (h : entries.Perm rest) : figures objects entries=figures objects rest :=
  (h.map _).sum_eq

theorem figures_congr (h : ∀ i∈entries.map Prod.snd,objects' i=objects i) :
    figures objects' entries=figures objects entries := by
  refine congrArg List.sum (List.map_congr_left fun e he => ?_)
  rw [share,share,h e.2 (List.mem_map_of_mem he)]

theorem Indexed.congr (h : Indexed objects entries bySize)
    (hsame : ∀ i∈entries.map Prod.snd,objects' i=objects i) :
    Indexed objects' entries bySize := by
  refine ⟨h.keys,fun k i hi => ?_,?_⟩
  · rw [hsame i (List.mem_map_of_mem hi)]
    exact h.own k i hi
  · have hsized : sized objects' entries=sized objects entries := by
      refine List.map_congr_left fun e he => ?_
      rw [sizeOf,sizeOf,hsame e.2 (List.mem_map_of_mem he)]
    rw [hsized]
    exact h.index

theorem Indexed.perm (h : Indexed objects entries bySize) (hperm : entries.Perm rest) :
    Indexed objects rest bySize where
  keys := (hperm.map _).nodup_iff.mp h.keys
  own k i hi := h.own k i (hperm.mem_iff.mpr hi)
  index := h.index.trans (hperm.map _)

theorem Indexed.push (h : Indexed objects entries bySize) (hf : objects i=some f)
    (hnew : f.fileHash∉entries.map Prod.fst) :
    Indexed objects ((f.fileHash, i)::entries) (bySize++[(f.fileSize, i)]) := by
  refine ⟨List.nodup_cons.mpr ⟨hnew,h.keys⟩,fun k j hj => ?_,?_⟩
  · rcases List.mem_cons.mp hj with heq | hj
    · cases heq
      exact ⟨f,hf,rfl⟩
    · exact h.own k j hj
  · rw [sized_cons,sizeOf_of_some hf]
    exact List.perm_append_comm.trans (h.index.cons _)

theorem Indexed.mem_bySize (h : Indexed objects ((k, i)::rest) bySize) (hf : objects i=some f) :
    (f.fileSize, i)∈bySize := by
  refine h.index.mem_iff.mpr ?_
  rw [sized_cons,sizeOf_of_some hf]
  exact List.mem_cons_self

theorem Indexed.pop (h : Indexed objects ((k, i)::rest) bySize) (hf : objects i=some f) :
    Indexed objects rest (bySize.erase (f.fileSize, i)) := by
  refine ⟨(List.nodup_cons.mp h.keys).2,fun k j hj => h.own k j (List.mem_cons_of_mem _ hj),?_⟩
  have hindex := h.index
  rw [sized_cons,sizeOf_of_some hf] at hindex
  have herase := hindex.erase (f.fileSize, i)
  rwa [List.erase_cons_head] at herase

theorem Indexed.not_mem_rest (h : Indexed objects ((k, i)::rest) bySize) :
    i∉rest.map Prod.snd := by
  intro hi
  obtain ⟨⟨k',i'⟩,he,rfl⟩ := List.mem_map.mp hi
  obtain ⟨f,hf,hk⟩ := h.own k i' List.mem_cons_self
  obtain ⟨g,hg,hk'⟩ := h.own k' i' (List.mem_cons_of_mem _ he)
  obtain rfl : f=g := Option.some.inj (hf.symm.trans hg)
  refine (List.nodup_cons.mp h.keys).1 ?_
  rw [← hk,hk']
  exact List.mem_map_of_mem he

end Entries

variable {s : KnownFileList} {kept : Figures} {caseFold : QString → QString} {i : FilePtr}
  {f g : KnownFile} {k : MD4Hash}

def totals (s : KnownFileList) : Figures :=
  (s.totalTransferred, s.totalRequested, s.totalAccepted)

/-- The all-time figures of the records there are. -/
def present (s : KnownFileList) : Figures := figures s.objects s.filesMap

def IsRecord (s : KnownFileList) (i : FilePtr) : Prop := i∈s.filesMap.map Prod.snd

instance instDecidableIsRecord (s : KnownFileList) (i : FilePtr) : Decidable (s.IsRecord i) :=
  inferInstanceAs (Decidable (_ ∈ _))

/-- The totals are what the records have and what has been `kept` of others. -/
structure Sound (kept : Figures) (s : KnownFileList) : Prop where
  indexed : Indexed s.objects s.filesMap s.bySize
  totals_eq : s.totals = s.present + kept

theorem find_some (h : s.find k=some i) : (k, i)∈s.filesMap ∧ ∃ rest,
    rest=s.filesMap.eraseP (fun e => decide (e.1=k)) ∧ s.filesMap.Perm ((k, i)::rest) := by
  obtain ⟨⟨k',i'⟩,hlookup,rfl⟩ := Option.map_eq_some_iff.mp h
  obtain ⟨hmem,rfl⟩ := lookupKey_mem hlookup
  exact ⟨hmem,_,rfl,perm_cons_eraseP hlookup⟩

theorem find_none (h : s.find k=none) : k∉s.filesMap.map Prod.fst :=
  lookupKey_eq_none.mp (Option.map_eq_none_iff.mp h)

theorem Sound.split (h : Sound kept s) (hfind : s.find k=some i) :
    ∃ f rest, s.objects i=some f ∧ f.fileHash=k ∧
      rest=s.filesMap.eraseP (fun e => decide (e.1=k)) ∧
      Indexed s.objects ((k, i)::rest) s.bySize ∧
      s.present=f.statistic.allTime+figures s.objects rest := by
  obtain ⟨hmem,rest,hrest,hperm⟩ := find_some hfind
  obtain ⟨f,hf,hk⟩ := h.indexed.own k i hmem
  refine ⟨f,rest,hf,hk,hrest,h.indexed.perm hperm,?_⟩
  rw [present,figures_perm hperm,figures_cons,share_of_some hf]

theorem Sound.find_of_isRecord (h : Sound kept s) (hi : s.IsRecord i) (hf : s.objects i=some f) :
    s.find f.fileHash=some i := by
  obtain ⟨⟨k,i'⟩,he,rfl⟩ := List.mem_map.mp hi
  obtain ⟨g,hg,hk⟩ := h.indexed.own k i' he
  obtain rfl : f=g := Option.some.inj (hf.symm.trans hg)
  have hsome : lookupKey Prod.fst f.fileHash s.filesMap=some (k, i') := by
    cases hlookup : lookupKey Prod.fst f.fileHash s.filesMap with
    | none => exact absurd (hk ▸ List.mem_map_of_mem he) (lookupKey_eq_none.mp hlookup)
    | some e =>
      obtain ⟨hmem,hkey⟩ := lookupKey_mem hlookup
      exact congrArg some (List.inj_on_of_nodup_map h.indexed.keys hmem he (hkey.trans hk))
  rw [find,hsome]
  rfl

theorem bySize_unindexBySize {n : Nat} (h : (n, i)∈s.bySize) :
    (s.unindexBySize i n).bySize=s.bySize.erase (n, i) := if_pos h

theorem sound_init : Sound 0 init := ⟨⟨List.nodup_nil,nofun,List.Perm.refl _⟩,rfl⟩

theorem Sound.setObject (h : Sound kept s) (hi : ¬ s.IsRecord i) (o : Option KnownFile) :
    Sound kept (s.setObject i o) := by
  have hsame : ∀ j∈s.filesMap.map Prod.snd,
      (Function.update s.objects i o : FilePtr → Option KnownFile) j=s.objects j := by
    intro j hj
    have hne : j≠i := fun heq => hi (heq ▸ hj)
    exact Function.update_of_ne hne o s.objects
  refine ⟨h.indexed.congr hsame,h.totals_eq.trans ?_⟩
  rw [present,present,KnownFileList.setObject,figures_congr hsame]

variable {s' : KnownFileList}

theorem Sound.eraseRecord {taken kept' : Figures} (h : Sound kept s) (hfind : s.find k=some i)
    (hf : s.objects i=some f) (hobjects : s'.objects=s.objects)
    (hmap : s'.filesMap=s.filesMap.eraseP fun e => decide (e.1=k))
    (hindex : s'.bySize=s.bySize.erase (f.fileSize, i)) (htotals : s'.totals=s.totals-taken)
    (hkept : kept'=kept+(f.statistic.allTime-taken)) :
    Sound kept' s' ∧ ¬ s'.IsRecord i := by
  obtain ⟨f',rest,hf',-,hrest,hindexed,hpresent⟩ := h.split hfind
  obtain rfl : f=f' := Option.some.inj (hf.symm.trans hf')
  rw [← hrest] at hmap
  refine ⟨⟨?_,?_⟩,?_⟩
  · rw [hobjects,hmap,hindex]
    exact hindexed.pop hf
  · rw [htotals,h.totals_eq,hpresent,present,hobjects,hmap,hkept]
    abel
  · rw [IsRecord,hmap]
    exact hindexed.not_mem_rest

theorem Sound.addRecord (h : Sound kept s) (hf : s.objects i=some f)
    (hnew : s.find f.fileHash=none) (hobjects : s'.objects=s.objects)
    (hmap : s'.filesMap=upsert Prod.fst f.fileHash (fun _ => (f.fileHash, i)) s.filesMap)
    (hindex : s'.bySize=s.bySize++[(f.fileSize, i)])
    (htotals : s'.totals=s.totals+f.statistic.allTime) : Sound kept s' := by
  have hnone : lookupKey Prod.fst f.fileHash s.filesMap=none := Option.map_eq_none_iff.mp hnew
  have hperm : ((f.fileHash, i)::s.filesMap).Perm s'.filesMap := by
    have hupsert := @upsert_perm _ _ _ Prod.fst f.fileHash (fun _ => (f.fileHash, i)) s.filesMap
    rw [eraseP_of_lookupKey_none hnone] at hupsert
    rw [hmap]
    exact hupsert.symm
  refine ⟨?_,?_⟩
  · rw [hobjects,hindex]
    exact (h.indexed.push hf (find_none hnew)).perm hperm
  · rw [htotals,h.totals_eq,present,present,hobjects,← figures_perm hperm,figures_cons,
      share_of_some hf]
    abel

theorem not_isRecord_of_find (h : Sound kept s) (hf : s.objects i=some f)
    (hne : s.find f.fileHash≠some i) : ¬ s.IsRecord i :=
  fun hi => hne (h.find_of_isRecord hi hf)

theorem Sound.replace {file existing : FilePtr} {old : KnownFile}
    (h : Sound kept s) (hfind : s.find k=some existing) (hold : s.objects existing=some old)
    (hfile : ¬ s.IsRecord file) (hne : existing≠file) (hhash : f.fileHash=k)
    (hobjects : s'.objects =
      Function.update (Function.update s.objects file (some f)) existing none)
    (hmap : s'.filesMap=upsert Prod.fst k (fun _ => (k, file)) s.filesMap)
    (hindex : s'.bySize=s.bySize.erase (old.fileSize, existing)++[(f.fileSize, file)])
    (htotals : s'.totals=s.totals+f.statistic.allTime-old.statistic.allTime) :
    Sound kept s' := by
  obtain ⟨old',rest,hold',-,hrest,hindexed,hpresent⟩ := h.split hfind
  obtain rfl : old=old' := Option.some.inj (hold.symm.trans hold')
  obtain ⟨hmem,rest',hrest',hperm⟩ := find_some hfind
  obtain rfl : rest=rest' := hrest.trans hrest'.symm
  have hsame : ∀ j∈rest.map Prod.snd,s'.objects j=s.objects j := by
    intro j hj
    have hj' : s.IsRecord j :=
      (hperm.map Prod.snd).mem_iff.mpr (List.mem_cons_of_mem _ hj)
    have hj1 : j≠existing := fun heq => hindexed.not_mem_rest (heq ▸ hj)
    have hj2 : j≠file := fun heq => hfile (heq ▸ hj')
    rw [hobjects,Function.update_of_ne hj1,Function.update_of_ne hj2]
  have hnew : s'.objects file=some f := by
    rw [hobjects,Function.update_of_ne hne.symm,Function.update_self]
  have hentries : ((k, file)::rest).Perm s'.filesMap := by
    rw [hmap,hrest]
    exact (upsert_perm (f := fun _ => (k, file))).symm
  have hkey : f.fileHash∉rest.map Prod.fst := hhash ▸ (List.nodup_cons.mp hindexed.keys).1
  refine ⟨?_,?_⟩
  · have hpush := ((hindexed.pop hold).congr hsame).push hnew hkey
    rw [hindex]
    rw [hhash] at hpush
    exact hpush.perm hentries
  · rw [htotals,h.totals_eq,hpresent,present,← figures_perm hentries,figures_cons,
      share_of_some hnew,figures_congr hsame]
    abel

theorem Sound.swapObjects {file existing : FilePtr} {old : KnownFile} (h : Sound kept s)
    (hf : s.objects file=some f) (hfind : s.find f.fileHash=some existing)
    (hne : existing≠file) (hold : s.objects existing=some old) :
    Sound kept (s.swapObjects file existing f old) := by
  have hfile : ¬ s.IsRecord file := by
    refine not_isRecord_of_find h hf ?_
    rw [hfind]
    exact fun heq => hne (Option.some.inj heq)
  obtain ⟨old',rest,hold',-,-,hindexed,-⟩ := h.split hfind
  have hindex : (s.unindexBySize existing old.fileSize).bySize++[(f.fileSize, file)] =
      s.bySize.erase (old.fileSize, existing)++[(f.fileSize, file)] := by
    rw [bySize_unindexBySize (hindexed.mem_bySize hold)]
  unfold KnownFileList.swapObjects
  dsimp only
  by_cases hsize : f.fileSize=old.fileSize
  · rw [if_pos hsize]
    refine h.replace (f := f.merge old) hfind hold hfile hne rfl rfl rfl hindex ?_
    have htotals : s.totals+f.statistic.allTime =
        s.totals+(f.merge old).statistic.allTime-old.statistic.allTime := by
      rw [KnownFile.merge,StatisticFile.allTime_mergeFileStats]
      abel
    exact htotals
  · rw [if_neg hsize]
    refine h.replace hfind hold hfile hne rfl ?_ rfl hindex rfl
    have hself : Function.update s.objects file (some f)=s.objects :=
      Function.update_eq_self_iff.mpr hf.symm
    rw [hself]
    rfl

theorem Sound.safeAddKFile (h : Sound kept s) (file : FilePtr) :
    Sound kept (s.safeAddKFile file).1 := by
  unfold KnownFileList.safeAddKFile
  cases hf : s.objects file with
  | none => exact h
  | some f =>
    dsimp only
    cases hfind : s.find f.fileHash with
    | none => exact h.addRecord hf hfind rfl rfl rfl rfl
    | some existing =>
      dsimp only
      split_ifs with hsame
      · exact h
      · cases hold : s.objects existing with
        | none => exact h
        | some old => exact h.swapObjects hf hfind hsame hold

theorem Sound.moveHistory {old fresh : FilePtr} (h : Sound kept s)
    (hg : s.objects old=some g) (hfind : s.find g.fileHash=some old)
    (hfresh : ¬ s.IsRecord fresh)
    (hobjects : s'.objects =
      Function.update (Function.update s.objects fresh (some (f.merge g))) old none)
    (hmap : s'.filesMap=s.filesMap.eraseP fun e => decide (e.1=g.fileHash))
    (hindex : s'.bySize=s.bySize.erase (g.fileSize, old))
    (htotals : s'.totals=s.totals-g.statistic.allTime) : Sound kept s' := by
  have hkept : kept=kept+(g.statistic.allTime-g.statistic.allTime) := by abel
  have hobjects' : ({ s' with objects := s.objects } : KnownFileList).objects=s.objects := rfl
  obtain ⟨hsound,hgone⟩ := h.eraseRecord hfind hg hobjects' hmap hindex htotals hkept
  have hfresh' : ¬ IsRecord { s' with objects := s.objects } fresh := by
    intro hi
    refine hfresh ?_
    unfold IsRecord at hi ⊢
    rw [hmap] at hi
    exact (List.eraseP_sublist.map Prod.snd).subset hi
  have hmoved := (hsound.setObject hfresh' (some (f.merge g))).setObject hgone none
  have heq : (({ s' with objects := s.objects } : KnownFileList).setObject fresh
      (some (f.merge g))).setObject old none=s' := by
    rw [KnownFileList.setObject,KnownFileList.setObject]
    rw [← hobjects]
  exact heq ▸ hmoved

theorem Sound.dropSupersededRecord {fresh : FilePtr} (h : Sound kept s)
    (hfresh : ¬ s.IsRecord fresh) (it : Iteration) (isShared : FilePtr → Bool) :
    Sound kept (s.dropSupersededRecord caseFold it isShared fresh).1 := by
  unfold KnownFileList.dropSupersededRecord
  cases hf : s.objects fresh with
  | none => exact h
  | some f =>
    dsimp only
    split_ifs with hsize
    · exact h
    cases hold : (it.order (s.equalRange f.fileSize)).find? fun old =>
        s.superseded caseFold isShared fresh f old with
    | none => exact h
    | some old =>
      dsimp only
      cases hg : s.objects old with
      | none => exact h
      | some g =>
        have hrange := (it.perm _).mem_iff.mp (List.mem_of_find?_eq_some hold)
        obtain ⟨⟨n,j⟩,hentry,rfl⟩ := List.mem_map.mp hrange
        obtain ⟨hmem,hn⟩ := List.mem_filter.mp hentry
        obtain rfl : n=f.fileSize := of_decide_eq_true hn
        obtain ⟨⟨k,i⟩,hrecord,heq⟩ := List.mem_map.mp (h.indexed.index.mem_iff.mp hmem)
        obtain ⟨hsame,rfl⟩ := Prod.mk.inj heq
        have hg' : s.objects i=some g := hg
        rw [sizeOf_of_some hg'] at hsame
        have hfind := h.find_of_isRecord (List.mem_map_of_mem hrecord) hg'
        exact h.moveHistory hg' hfind hfresh rfl rfl (by rw [hsame]; rfl) rfl

theorem Sound.mem_bySize (h : Sound kept s) (hfind : s.find k=some i)
    (hf : s.objects i=some f) : (f.fileSize, i)∈s.bySize := by
  obtain ⟨f',rest,hf',-,-,hindexed,-⟩ := h.split hfind
  exact hindexed.mem_bySize hf

theorem Sound.replaceRecord {old fresh : FilePtr} (h : Sound kept s)
    (hfresh : ¬ s.IsRecord fresh) : Sound kept (s.replaceRecord old fresh).1 := by
  unfold KnownFileList.replaceRecord
  cases hg : s.objects old with
  | none => exact h
  | some g =>
    cases hf : s.objects fresh with
    | none => exact h
    | some f =>
      dsimp only
      split_ifs with hself hhash hfind
      · exact h
      · exact h.safeAddKFile fresh
      · exact h
      · have hfind' := not_ne_iff.mp hfind
        have hindex := bySize_unindexBySize (h.mem_bySize hfind' hg)
        refine (h.moveHistory hg hfind' hfresh rfl rfl ?_ rfl).safeAddKFile fresh
        exact hindex

/-- The record a call takes out for good. -/
def taken (s : KnownFileList) : Call → Option FilePtr
  | .dropRecord old => (s.objects old).bind fun g =>
      if s.find g.fileHash = some old then some old else none
  | .remove file => (s.objects file).bind fun f => s.find f.fileHash
  | _ => none

theorem taken_dropRecord (old : FilePtr) : s.taken (.dropRecord old) =
    (s.objects old).bind fun g => if s.find g.fileHash=some old then some old else none := rfl

theorem taken_remove (file : FilePtr) :
    s.taken (.remove file)=(s.objects file).bind fun f => s.find f.fileHash := rfl

/-- What stays in the totals of such records. -/
def keptBy (kept : Figures) (s : KnownFileList) : Call → Figures
  | .clear => 0
  | call => kept+(s.taken call).elim 0 (share s.objects)

theorem Sound.forget (h : Sound kept s) (hfind : s.find k=some i)
    (hobjects : s'.objects=s.objects)
    (hmap : s'.filesMap=s.filesMap.eraseP fun e => decide (e.1=k))
    (hindex : ∀ f,s.objects i=some f → s'.bySize=s.bySize.erase (f.fileSize, i))
    (htotals : s'.totals=s.totals) :
    Sound (kept+share s.objects i) s' ∧ ¬ s'.IsRecord i := by
  obtain ⟨f,-,hf,-⟩ := h.split hfind
  have htotals' : s'.totals=s.totals-0 := by rw [htotals,sub_zero]
  have hkept : kept+share s.objects i=kept+(f.statistic.allTime-0) := by
    rw [share_of_some hf,sub_zero]
  exact h.eraseRecord hfind hf hobjects hmap (hindex f hf) htotals' hkept

theorem Sound.dropRecord (h : Sound kept s) (old : FilePtr) :
    Sound (kept+(s.taken (.dropRecord old)).elim 0 (share s.objects)) (s.dropRecord old).1 := by
  rw [taken_dropRecord]
  unfold KnownFileList.dropRecord
  cases hg : s.objects old with
  | none => rwa [Option.bind_none,Option.elim_none,add_zero]
  | some g =>
    rw [Option.bind_some]
    by_cases hfind : s.find g.fileHash=some old
    · rw [if_pos hfind,Option.elim_some]
      dsimp only
      rw [if_neg (not_ne_iff.mpr hfind)]
      have hindex : ∀ f,s.objects old=some f →
          (s.unindexBySize old g.fileSize).bySize=s.bySize.erase (f.fileSize, old) := by
        intro f hf
        obtain rfl : g=f := Option.some.inj (hg.symm.trans hf)
        exact bySize_unindexBySize (h.mem_bySize hfind hg)
      have hforgot : Sound _ ((s.unindexBySize old g.fileSize).eraseEntry g.fileHash) ∧ _ :=
        h.forget hfind rfl rfl hindex rfl
      exact hforgot.1.setObject hforgot.2 none
    · rw [if_neg hfind,Option.elim_none,add_zero]
      dsimp only
      rwa [if_pos hfind]

theorem Sound.remove (h : Sound kept s) (file : FilePtr) :
    Sound (kept+(s.taken (.remove file)).elim 0 (share s.objects)) (s.remove file) := by
  rw [taken_remove]
  unfold KnownFileList.remove
  cases hf : s.objects file with
  | none => rwa [Option.bind_none,Option.elim_none,add_zero]
  | some f =>
    rw [Option.bind_some]
    dsimp only
    cases hfind : s.find f.fileHash with
    | none => rwa [Option.elim_none,add_zero]
    | some stored =>
      obtain ⟨g,-,hg,-⟩ := h.split hfind
      rw [Option.elim_some]
      dsimp only
      rw [hg]
      have hindex : ∀ f,s.objects stored=some f →
          (s.unindexBySize stored g.fileSize).bySize=s.bySize.erase (f.fileSize, stored) := by
        intro f hf
        obtain rfl : g=f := Option.some.inj (hg.symm.trans hf)
        exact bySize_unindexBySize (h.mem_bySize hfind hg)
      have hforgot : Sound _ ((s.unindexBySize stored g.fileSize).eraseEntry f.fileHash) ∧ _ :=
        h.forget hfind rfl rfl hindex rfl
      exact hforgot.1

theorem sound_clear (s : KnownFileList) : Sound 0 s.clear :=
  ⟨⟨List.nodup_nil,nofun,List.Perm.refl _⟩,rfl⟩

/-- What the callers see to: a new object lies where none is, a record is not deleted behind the
list's back, and the file that takes over a record's history has just been hashed. -/
def Allowed (s : KnownFileList) : Call → Prop
  | .newFile file _ => s.objects file = none
  | .deleteFile file => ¬ s.IsRecord file
  | .addHashed _ _ fresh => ¬ s.IsRecord fresh
  | .replaceRecord _ fresh => ¬ s.IsRecord fresh
  | _ => True

theorem Sound.isRecord_alive (h : Sound kept s) (hi : s.IsRecord i) : (s.objects i).isSome := by
  obtain ⟨⟨k,i'⟩,he,rfl⟩ := List.mem_map.mp hi
  obtain ⟨f,hf,-⟩ := h.indexed.own k i' he
  rw [hf]
  rfl

theorem Sound.same (h : Sound kept s') {call : Call} (htaken : s.taken call=none) :
    Sound (kept+(s.taken call).elim 0 (share s.objects)) s' := by
  rwa [htaken,Option.elim_none,add_zero]

theorem Sound.step (h : Sound kept s) {call : Call} (hok : s.Allowed call) :
    Sound (keptBy kept s call) (s.step caseFold call) := by
  cases call with
  | newFile file f =>
    refine Sound.same (h.setObject (fun hi => ?_) (some f)) rfl
    have halive := h.isRecord_alive hi
    rw [show s.objects file=none from hok] at halive
    cases halive
  | deleteFile file => exact Sound.same (h.setObject hok none) rfl
  | safeAddKFile file => exact Sound.same (h.safeAddKFile file) rfl
  | addHashed it isShared fresh =>
    exact Sound.same ((h.dropSupersededRecord hok it isShared).safeAddKFile fresh) rfl
  | replaceRecord old fresh => exact Sound.same (h.replaceRecord hok) rfl
  | dropRecord old => exact h.dropRecord old
  | remove file => exact h.remove file
  | clear => exact sound_clear s

/-- The list, and what the totals keep of records taken out since it was last cleared. -/
def ledgerStep (caseFold : QString → QString) (x : KnownFileList × Figures) (call : Call) :
    KnownFileList × Figures := (x.1.step caseFold call, keptBy x.2 x.1 call)

/-- A list after some calls, from an empty one. -/
def ledger (caseFold : QString → QString) (calls : List Call) : KnownFileList × Figures :=
  run (ledgerStep caseFold) (init, 0) calls

def AllAllowed (caseFold : QString → QString) (calls : List Call) : Prop :=
  Along (ledgerStep caseFold) (fun x call => x.1.Allowed call) (init, 0) calls

theorem sound_ledger {calls : List Call} (hcalls : AllAllowed caseFold calls) :
    Sound (ledger caseFold calls).2 (ledger caseFold calls).1 := by
  have hstep : ∀ (x : KnownFileList × Figures) (call : Call), Sound x.2 x.1 →
      x.1.Allowed call → Sound (ledgerStep caseFold x call).2 (ledgerStep caseFold x call).1 :=
    fun _ _ h hok => h.step hok
  exact run_invariant hstep sound_init hcalls

/-- Neither forgets a record that nothing takes the place of. -/
def Call.Forgets : Call → Prop
  | .dropRecord _ => True
  | .remove _ => True
  | _ => False

theorem ledger_kept {calls : List Call} (h : ∀ call∈calls,¬ call.Forgets) :
    (ledger caseFold calls).2=0 := by
  have hstep : ∀ (x : KnownFileList × Figures) (call : Call), x.2=0 → ¬ call.Forgets →
      (ledgerStep caseFold x call).2=0 := by
    intro x call hx hcall
    have hsame : x.2+0=0 := by rw [hx,add_zero]
    cases call with
    | dropRecord old => exact absurd trivial hcall
    | remove file => exact absurd trivial hcall
    | clear => rfl
    | newFile file f => exact hsame
    | deleteFile file => exact hsame
    | safeAddKFile file => exact hsame
    | addHashed it isShared fresh => exact hsame
    | replaceRecord old fresh => exact hsame
  exact run_invariant hstep rfl (along_of_forall _ h)

theorem knownFiles_inStep (caseFold : QString → QString) (calls : List Call)
    (hcalls : AllAllowed caseFold calls) :
    let s := (ledger caseFold calls).1
    (s.filesMap.map Prod.fst).Nodup ∧
      (∀ k i,(k, i)∈s.filesMap → ∃ f, s.objects i=some f ∧ f.fileHash=k) ∧
      s.bySize.Perm (sized s.objects s.filesMap) ∧
      s.totals=s.present+(ledger caseFold calls).2 ∧
      ((∀ call∈calls,¬ call.Forgets) → s.totals=s.present) := by
  have h := sound_ledger hcalls
  refine ⟨h.indexed.keys,h.indexed.own,h.indexed.index,h.totals_eq,fun hnone => ?_⟩
  rw [h.totals_eq,ledger_kept hnone,add_zero]

def shared : KnownFile where
  fileIdentifier :=
    { fileSize := 4096
      md4Hash := Digest.zero 16
      aichHash := Digest.zero kAICHHashSize
      hasValidAICHHash := false
      md4HashSet := []
      aichPartHashSet := [] }
  fileName := []
  utcFileDate := 0
  statistic := ⟨700, 700, 5, 5, 2, 2, 0⟩

theorem knownFiles_inStep_one :
    AllAllowed id [.newFile 1 shared, .safeAddKFile 1] ∧
      (ledger id [.newFile 1 shared, .safeAddKFile 1]).1.totals =
        (ledger id [.newFile 1 shared, .safeAddKFile 1]).1.present :=
  have hallowed : AllAllowed id [.newFile 1 shared,.safeAddKFile 1] := ⟨rfl,trivial,trivial⟩
  ⟨hallowed,(knownFiles_inStep id _ hallowed).2.2.2.2 (by
    intro call hcall
    rcases List.mem_cons.mp hcall with rfl | hcall
    · exact id
    · obtain rfl := List.mem_singleton.mp hcall
      exact id)⟩

/-- A record is added and forgotten. -/
def forgetCalls : List Call := [.newFile 1 shared,.safeAddKFile 1,.dropRecord 1]

theorem forgotten_stays :
    AllAllowed id forgetCalls ∧
      (ledger id forgetCalls).1.totals ≠ (ledger id forgetCalls).1.present :=
  ⟨⟨rfl,trivial,trivial,trivial⟩,by decide⟩

end EmuleQt.Files.KnownFileList
