import EmuleQt.Framework.Keyed
import Mathlib.Data.List.Count
import Mathlib.Data.List.Nodup

/-!
Items filed under several keys each: a multimap from keys to items, and the keys each item has been
filed under.
-/

namespace EmuleQt.Framework

/-- Equal keys stand in the order of filing. -/
structure KeyIndex (κ ι : Type*) where
  byKey : List (κ × ι)
  keysOf : List (ι × List κ)

namespace KeyIndex

variable {κ ι : Type*}

def empty : KeyIndex κ ι := ⟨[], []⟩

def file (c : ι) (keys : List κ) (byKey : List (κ × ι)) : List (κ × ι) :=
  byKey ++ keys.map fun k => (k, c)

def clear (_ : KeyIndex κ ι) : KeyIndex κ ι := empty

section Filing

variable [DecidableEq ι]

/-- The keys an item is filed under, if it is filed. -/
def filedUnder (x : KeyIndex κ ι) (c : ι) : Option (List κ) :=
  (lookupKey Prod.fst c x.keysOf).map Prod.snd

def contains (x : KeyIndex κ ι) (c : ι) : Bool := (x.filedUnder c).isSome

def add (c : ι) (keys : List κ) (x : KeyIndex κ ι) : KeyIndex κ ι :=
  if x.contains c then x else ⟨file c keys x.byKey, x.keysOf ++ [(c, keys)]⟩

def gather (out : List ι) (c : ι) : List ι := if c ∈ out then out else out ++ [c]

variable [DecidableEq κ]

/-- One entry of each key goes. -/
def unfile (c : ι) (keys : List κ) (byKey : List (κ × ι)) : List (κ × ι) :=
  keys.foldl (fun byKey k => byKey.erase (k, c)) byKey

def remove (c : ι) (x : KeyIndex κ ι) : KeyIndex κ ι :=
  match x.filedUnder c with
  | none => x
  | some keys => ⟨unfile c keys x.byKey, x.keysOf.filter fun e => decide (e.1 ≠ c)⟩

def rekey (c : ι) (keys : List κ) (x : KeyIndex κ ι) : KeyIndex κ ι :=
  match x.filedUnder c with
  | none => x
  | some old =>
    if keys = old then x
    else ⟨file c keys (unfile c old x.byKey), upsert Prod.fst c (fun _ => (c, keys)) x.keysOf⟩

/-- The items filed under one of the keys, each once. -/
def candidates (keys : List κ) (x : KeyIndex κ ι) : List ι :=
  if x.keysOf.isEmpty then []
  else keys.foldl (fun out k =>
    ((x.byKey.filter fun e => decide (e.1 = k)).map Prod.snd).foldl gather out) []

/-- The multimap holds what the items are filed under, and nothing else. -/
def Consistent (x : KeyIndex κ ι) : Prop :=
  ∀ k c, x.byKey.count (k, c) = ((x.filedUnder c).getD []).count k

variable {x : KeyIndex κ ι} {c d : ι} {k : κ} {keys : List κ}

theorem empty_consistent : (empty : KeyIndex κ ι).Consistent := fun _ _ => rfl

theorem count_file (byKey : List (κ × ι)) : (file c keys byKey).count (k, d) =
    byKey.count (k, d)+if d=c then keys.count k else 0 := by
  unfold file
  rw [List.count_append]
  congr 1
  split_ifs with hd
  · rw [hd,List.count_map_of_injective keys _ fun a b h => (Prod.mk.inj h).1]
  · apply List.count_eq_zero.mpr
    intro hmem
    obtain ⟨k',-,hk'⟩ := List.mem_map.mp hmem
    exact hd (Prod.mk.inj hk').2.symm

theorem count_unfile (byKey : List (κ × ι)) : (unfile c keys byKey).count (k, d) =
    byKey.count (k, d)-if d=c then keys.count k else 0 := by
  induction keys generalizing byKey with
  | nil => simp [unfile]
  | cons k' keys ih =>
    have herase : (byKey.erase (k', c)).count (k, d)=_ := List.count_erase
    change (unfile c keys (byKey.erase (k', c))).count (k, d)=_
    rw [ih,herase,List.count_cons]
    by_cases hd : d=c
    · subst hd
      by_cases hk : k'=k
      · subst hk
        simp
        omega
      · simp [hk]
    · simp [hd,Ne.symm hd]

omit [DecidableEq κ] in
theorem filedUnder_add (hnew : x.filedUnder c=none) : (x.add c keys).filedUnder d =
    if d=c then some keys else x.filedUnder d := by
  have hnone : lookupKey Prod.fst c x.keysOf=none := Option.map_eq_none_iff.mp hnew
  rw [add,contains,hnew,if_neg (by simp),filedUnder]
  rw [lookupKey_append,lookupKey_cons]
  split_ifs with h hd hd
  · rw [← h,hnone]
    rfl
  · exact absurd h.symm hd
  · exact absurd hd.symm h
  · rw [filedUnder]
    cases lookupKey Prod.fst d x.keysOf <;> rfl

theorem filedUnder_remove : (x.remove c).filedUnder d =
    if d=c then none else x.filedUnder d := by
  unfold remove
  cases hc : x.filedUnder c with
  | none =>
    split_ifs with hd
    · rw [hd,hc]
    · rfl
  | some keys =>
    unfold filedUnder
    rw [lookupKey_filter_ne]
    split_ifs <;> rfl

theorem filedUnder_rekey (hin : (x.filedUnder c).isSome) : (x.rekey c keys).filedUnder d =
    if d=c then some keys else x.filedUnder d := by
  unfold rekey
  obtain ⟨old,hold⟩ := Option.isSome_iff_exists.mp hin
  rw [hold]
  dsimp only
  by_cases hsame : keys=old
  · rw [if_pos hsame]
    split_ifs with hd
    · rw [hd,hold,hsame]
    · rfl
  · rw [if_neg hsame]
    unfold filedUnder
    by_cases hd : d=c
    · rw [if_pos hd,hd,lookupKey_upsert_self rfl]
      rfl
    · rw [if_neg hd,lookupKey_upsert_ne rfl hd]

theorem add_consistent (h : x.Consistent) : (x.add c keys).Consistent := by
  cases hnew : x.filedUnder c with
  | some old =>
    rw [add,contains,hnew,if_pos (Option.isSome_some)]
    exact h
  | none =>
    intro k d
    rw [filedUnder_add hnew,add,contains,hnew,if_neg (by simp)]
    rw [count_file,h]
    split_ifs with hd
    · rw [hd,hnew]
      simp
    · rfl

theorem remove_consistent (h : x.Consistent) : (x.remove c).Consistent := by
  intro k d
  rw [filedUnder_remove]
  unfold remove
  cases hc : x.filedUnder c with
  | none =>
    rw [h]
    split_ifs with hd
    · rw [hd,hc]
    · rfl
  | some keys =>
    rw [count_unfile,h]
    split_ifs with hd
    · rw [hd,hc]
      simp
    · rfl

theorem rekey_consistent (h : x.Consistent) : (x.rekey c keys).Consistent := by
  cases hc : x.filedUnder c with
  | none =>
    rw [rekey,hc]
    exact h
  | some old =>
    intro k d
    rw [filedUnder_rekey (hc ▸ rfl),rekey,hc]
    dsimp only
    by_cases hsame : keys=old
    · rw [if_pos hsame,h]
      split_ifs with hd
      · rw [hd,hc,hsame]
      · rfl
    · rw [if_neg hsame]
      rw [count_file,count_unfile,h]
      split_ifs with hd
      · rw [hd,hc]
        simp
      · rfl

section Gathering

omit [DecidableEq κ]

theorem mem_foldl_gather {out more : List ι} :
    c∈more.foldl gather out ↔ c∈out ∨ c∈more := by
  induction more generalizing out with
  | nil => simp
  | cons d more ih =>
    rw [List.foldl_cons,ih,gather,List.mem_cons]
    split_ifs with hd
    · refine ⟨Or.imp_right .inr,?_⟩
      rintro (hc | rfl | hc)
      · exact .inl hc
      · exact .inl hd
      · exact .inr hc
    · simp only [List.mem_append,List.mem_singleton]
      tauto

theorem nodup_foldl_gather {out more : List ι} (h : out.Nodup) : (more.foldl gather out).Nodup := by
  induction more generalizing out with
  | nil => exact h
  | cons d more ih =>
    apply ih
    unfold gather
    split_ifs with hd
    · exact h
    · apply h.append (List.nodup_singleton d)
      intro c hc hcd
      exact hd (List.mem_singleton.mp hcd ▸ hc)

end Gathering

theorem nodup_candidates (keys : List κ) (x : KeyIndex κ ι) : (x.candidates keys).Nodup := by
  unfold candidates
  split_ifs
  · exact List.nodup_nil
  · generalize hout : ([] : List ι)=out
    have hnodup : out.Nodup := hout ▸ List.nodup_nil
    clear hout
    induction keys generalizing out with
    | nil => exact hnodup
    | cons k keys ih => exact ih _ (nodup_foldl_gather hnodup)

/-- The candidates are the items that have been filed under one of the keys. -/
theorem mem_candidates (h : x.Consistent) : c∈x.candidates keys ↔
    ∃ filed, x.filedUnder c=some filed ∧ ∃ k∈keys, k∈filed := by
  have hfiled : ∀ k,(k, c)∈x.byKey ↔ ∃ filed, x.filedUnder c=some filed ∧ k∈filed := by
    intro k
    rw [← List.count_pos_iff,h,List.count_pos_iff]
    cases x.filedUnder c <;> simp
  have hgathered : ∀ out,c∈keys.foldl (fun out k =>
      ((x.byKey.filter fun e => decide (e.1=k)).map Prod.snd).foldl gather out) out ↔
      c∈out ∨ ∃ k∈keys, (k, c)∈x.byKey := by
    induction keys with
    | nil => simp
    | cons k keys ih =>
      intro out
      rw [List.foldl_cons,ih,mem_foldl_gather]
      have hkey : c∈(x.byKey.filter fun e => decide (e.1=k)).map Prod.snd ↔
          (k, c)∈x.byKey := by
        simp [eq_comm]
      rw [hkey]
      simp [or_assoc]
  unfold candidates
  split_ifs with hempty
  · have hnone : x.filedUnder c=none := by
      rw [filedUnder,List.isEmpty_iff.mp hempty]
      rfl
    simp [hnone]
  · rw [hgathered]
    simp only [hfiled,List.not_mem_nil,false_or]
    constructor
    · rintro ⟨k,hk,filed,hc,hin⟩
      exact ⟨filed,hc,k,hk,hin⟩
    · rintro ⟨filed,hc,k,hk,hin⟩
      exact ⟨k,hk,filed,hc,hin⟩

end Filing

end KeyIndex

end EmuleQt.Framework
