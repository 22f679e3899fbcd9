import Mathlib.Data.List.Infix

namespace EmuleQt.Framework

/-- Directories and files, each by its way from the root. -/
structure FileTree (ν β : Type*) where
  dir : List ν → Bool
  file : List ν → Option β
  root : dir [] = true
  up : ∀ k, dir k = true → dir k.dropLast = true
  parent : ∀ k, (file k).isSome = true → dir k.dropLast = true
  apart : ∀ k, (file k).isSome = true → dir k = false

namespace FileTree

variable {ν β : Type*} {t : FileTree ν β} {k k' src dst : List ν} {b : β}

def present (t : FileTree ν β) (k : List ν) : Bool := t.dir k || (t.file k).isSome

theorem present_of_file (h : (t.file k).isSome=true) : t.present k=true := by
  rw [present,h,Bool.or_true]

theorem present_of_dir (h : t.dir k=true) : t.present k=true := by
  rw [present,h,Bool.true_or]

section Operations

variable [DecidableEq ν]

/-- The directory, and those it lies in; nothing where a file is in the way. -/
def mkpath (t : FileTree ν β) (k : List ν) : FileTree ν β :=
  if h : ∀ p ∈ k.inits, t.file p = none then
    { t with
      dir := fun d => t.dir d || d.isPrefixOf k
      root := by rw [t.root, Bool.true_or]
      up := fun d hd => by
        rcases Bool.or_eq_true_iff.mp hd with hold | hnew
        · rw [t.up d hold, Bool.true_or]
        · have hpre : d.dropLast <+: k :=
            (List.dropLast_prefix d).trans (List.isPrefixOf_iff_prefix.mp hnew)
          rw [List.isPrefixOf_iff_prefix.mpr hpre, Bool.or_true]
      parent := fun d hd => by rw [t.parent d hd, Bool.true_or]
      apart := fun d hd => by
        rw [t.apart d hd, Bool.false_or, Bool.eq_false_iff]
        intro hpre
        have hnone := h d ((List.mem_inits d k).mpr (List.isPrefixOf_iff_prefix.mp hpre))
        rw [hnone] at hd
        exact Bool.false_ne_true hd }
  else t

/-- A file that may be there already, in a directory that is. -/
def create (t : FileTree ν β) (k : List ν) (b : β) : FileTree ν β :=
  if h : t.dir k = false ∧ t.dir k.dropLast = true then
    { t with
      file := Function.update t.file k (some ((t.file k).getD b))
      parent := fun d hd => by
        by_cases hdk : d = k
        · exact hdk ▸ h.2
        · rw [Function.update_of_ne hdk] at hd
          exact t.parent d hd
      apart := fun d hd => by
        by_cases hdk : d = k
        · exact hdk ▸ h.1
        · rw [Function.update_of_ne hdk] at hd
          exact t.apart d hd }
  else t

def modify (t : FileTree ν β) (k : List ν) (f : β → β) : FileTree ν β :=
  { t with
    file := Function.update t.file k ((t.file k).map f)
    parent := fun d hd => by
      by_cases hdk : d = k
      · rw [hdk, Function.update_self, Option.isSome_map] at hd
        rw [hdk]
        exact t.parent k hd
      · rw [Function.update_of_ne hdk] at hd
        exact t.parent d hd
    apart := fun d hd => by
      by_cases hdk : d = k
      · rw [hdk, Function.update_self, Option.isSome_map] at hd
        rw [hdk]
        exact t.apart k hd
      · rw [Function.update_of_ne hdk] at hd
        exact t.apart d hd }

/-- A file goes where nothing is yet. -/
def rename (t : FileTree ν β) (src dst : List ν) : Option (FileTree ν β) :=
  if h : (t.file src).isSome = true ∧ t.present dst = false ∧ t.dir dst.dropLast = true then
    some { t with
      file := Function.update (Function.update t.file src none) dst (t.file src)
      parent := fun d hd => by
        by_cases hdst : d = dst
        · exact hdst ▸ h.2.2
        rw [Function.update_of_ne hdst] at hd
        by_cases hsrc : d = src
        · rw [hsrc, Function.update_self] at hd
          exact absurd hd Bool.false_ne_true
        · rw [Function.update_of_ne hsrc] at hd
          exact t.parent d hd
      apart := fun d hd => by
        by_cases hdst : d = dst
        · exact hdst ▸ (Bool.or_eq_false_iff.mp h.2.1).1
        rw [Function.update_of_ne hdst] at hd
        by_cases hsrc : d = src
        · rw [hsrc, Function.update_self] at hd
          exact absurd hd Bool.false_ne_true
        · rw [Function.update_of_ne hsrc] at hd
          exact t.apart d hd }
  else none

@[simp] theorem file_mkpath (t : FileTree ν β) (k : List ν) : (t.mkpath k).file=t.file := by
  unfold mkpath
  split_ifs <;> rfl

theorem file_create_of_ne (h : k'≠k) : (t.create k b).file k'=t.file k' := by
  unfold create
  split_ifs
  · exact Function.update_of_ne h ..
  · rfl

theorem file_modify_of_ne {f : β → β} (h : k'≠k) : (t.modify k f).file k'=t.file k' :=
  Function.update_of_ne h ..

theorem rename_spec {t' : FileTree ν β} (h : t.rename src dst=some t') :
    t.present dst=false ∧ (t.file src).isSome=true ∧ t'.file dst=t.file src ∧
      ∀ d,d≠src → d≠dst → t'.file d=t.file d := by
  unfold rename at h
  split_ifs at h with hok
  have hsrc := hok.1
  have hdst := hok.2.1
  cases h
  refine ⟨hdst,hsrc,Function.update_self ..,?_⟩
  intro d hdsrc hddst
  dsimp only
  rw [Function.update_of_ne hddst,Function.update_of_ne hdsrc]

end Operations

end FileTree

end EmuleQt.Framework
