import EmuleQt.Framework.Keyed
import Mathlib.Data.List.Nodup

namespace EmuleQt.Framework

/-- What a record is found by, and what its age index is ordered by: the age, then the rank. -/
structure Aging (κ ρ : Type*) where
  key : ρ → κ
  age : ρ → Int
  rank : κ → Nat
  rank_injective : Function.Injective rank

/-- Records by their keys, and the index of them from the oldest on. -/
structure AgedTable (κ ρ : Type*) where
  nodes : List ρ
  index : List (Int × κ)

variable {κ ρ : Type*}

namespace Aging

variable (A : Aging κ ρ)

def stamp (r : ρ) : Int × κ := (A.age r, A.key r)

def before (a b : Int × κ) : Prop := a.1 < b.1 ∨ (a.1 = b.1 ∧ A.rank a.2 < A.rank b.2)

instance instDecidableBefore (a b : Int × κ) : Decidable (A.before a b) :=
  inferInstanceAs (Decidable (_ ∨ _))

/-- An entry goes in where it belongs; one that is there already is overwritten. -/
def insertStamp (e : Int × κ) : List (Int × κ) → List (Int × κ)
  | [] => [e]
  | x::xs =>
    if A.before e x then e::x::xs
    else if A.before x e then x::insertStamp e xs
    else e::xs

variable {A} {a b c e : Int × κ} {xs : List (Int × κ)}

theorem before_trans (hab : A.before a b) (hbc : A.before b c) : A.before a c := by
  unfold before at *
  omega

theorem before_or (hne : a≠b) : A.before a b ∨ A.before b a := by
  unfold before
  by_cases hage : a.1=b.1
  · have hkey : A.rank a.2≠A.rank b.2 := by
      intro h
      exact hne (Prod.ext hage (A.rank_injective h))
    omega
  · omega

theorem insertStamp_perm (h : e∉xs) : (A.insertStamp e xs).Perm (e::xs) := by
  induction xs with
  | nil => exact .refl _
  | cons x xs ih =>
    obtain ⟨hx,hxs⟩ := not_or.mp (mt List.mem_cons.mpr h)
    rw [insertStamp]
    split_ifs with hbefore hafter
    · exact .refl _
    · exact ((ih hxs).cons x).trans (.swap e x xs)
    · exact ((before_or hx).elim hbefore hafter).elim

theorem insertStamp_sorted (h : e∉xs) (hsorted : xs.Pairwise A.before) :
    (A.insertStamp e xs).Pairwise A.before := by
  induction xs with
  | nil => exact List.pairwise_singleton _ _
  | cons x xs ih =>
    obtain ⟨hx,hxs⟩ := not_or.mp (mt List.mem_cons.mpr h)
    obtain ⟨hfirst,hrest⟩ := List.pairwise_cons.mp hsorted
    rw [insertStamp]
    split_ifs with hbefore hafter
    · refine List.pairwise_cons.mpr ⟨?_,hsorted⟩
      intro y hy
      obtain rfl | hy := List.mem_cons.mp hy
      · exact hbefore
      · exact before_trans hbefore (hfirst y hy)
    · refine List.pairwise_cons.mpr ⟨?_,ih hxs hrest⟩
      intro y hy
      obtain rfl | hy := List.mem_cons.mp ((insertStamp_perm hxs).subset hy)
      · exact hafter
      · exact hfirst y hy
    · exact ((before_or hx).elim hbefore hafter).elim

end Aging

namespace AgedTable

variable (A : Aging κ ρ)

def empty : AgedTable κ ρ := ⟨[], []⟩

/-- The index lists exactly the records, the oldest first. -/
structure Consistent (t : AgedTable κ ρ) : Prop where
  keys : (t.nodes.map A.key).Nodup
  index : t.index.Perm (t.nodes.map A.stamp)
  sorted : t.index.Pairwise A.before

theorem empty_consistent : (empty : AgedTable κ ρ).Consistent A := by
  constructor <;> simp [empty]

variable [DecidableEq κ]

def find (k : κ) (t : AgedTable κ ρ) : Option ρ := lookupKey A.key k t.nodes

def eraseNode (k : κ) (t : AgedTable κ ρ) : AgedTable κ ρ :=
  { t with nodes := t.nodes.filter fun r => decide (A.key r≠k) }

def eraseStamp (r : ρ) (t : AgedTable κ ρ) : AgedTable κ ρ :=
  { t with index := t.index.erase (A.stamp r) }

def setNode (r : ρ) (t : AgedTable κ ρ) : AgedTable κ ρ :=
  { t with nodes := r::t.nodes.filter fun x => decide (A.key x≠A.key r) }

def setStamp (r : ρ) (t : AgedTable κ ρ) : AgedTable κ ρ :=
  { t with index := A.insertStamp (A.stamp r) t.index }

/-- The record leaves both. -/
def drop (r : ρ) (t : AgedTable κ ρ) : AgedTable κ ρ := (t.eraseStamp A r).eraseNode A (A.key r)

/-- The record changes from `old` to `new`: out of the index, changed, and back in. -/
def touch (old new : ρ) (t : AgedTable κ ρ) : AgedTable κ ρ :=
  ((t.eraseStamp A old).setNode A new).setStamp A new

/-- Records leave from the oldest on, up to the first that is not too old. -/
def sweepOld (maxAge now : Int) : List (Int × κ) → AgedTable κ ρ → AgedTable κ ρ
  | [], t => t
  | e::rest, t =>
    match t.find A e.2 with
    | none => t
    | some r =>
      if now-A.age r>maxAge then
        sweepOld maxAge now rest ((t.eraseNode A (A.key r)).eraseStamp A r)
      else t

def evict (maxAge now : Int) (t : AgedTable κ ρ) : AgedTable κ ρ :=
  t.sweepOld A maxAge now t.index

variable {A} {t : AgedTable κ ρ} {r old new : ρ} {k k' : κ} {maxAge now : Int}

theorem find_mem (h : t.find A k=some r) : r∈t.nodes ∧ A.key r=k := lookupKey_mem h

theorem find_self (h : t.find A k=some r) : t.find A (A.key r)=some r := by
  rw [(find_mem h).2,h]

theorem find_none (h : t.find A k=none) : ∀ r∈t.nodes,A.key r≠k := by
  intro r hr
  simpa using List.find?_eq_none.mp h r hr

/-- Keys are unique, so a record is what its key finds. -/
theorem Consistent.find_of_mem (h : t.Consistent A) (hr : r∈t.nodes) :
    t.find A (A.key r)=some r := by
  cases hfound : t.find A (A.key r) with
  | none => exact absurd rfl (find_none hfound r hr)
  | some x =>
    obtain ⟨hx,hkey⟩ := find_mem hfound
    rw [List.inj_on_of_nodup_map h.keys hx hr hkey]

theorem filter_of_find_none (h : t.find A k=none) :
    (t.nodes.filter fun r => decide (A.key r≠k))=t.nodes := by
  apply List.filter_eq_self.mpr
  intro r hr
  exact decide_eq_true (find_none h r hr)

theorem Consistent.nodes_perm (h : t.Consistent A) (hfound : t.find A k=some r) :
    t.nodes.Perm (r::t.nodes.filter fun x => decide (A.key x≠k)) := by
  obtain ⟨hr,hkey⟩ := find_mem hfound
  have hone : (t.nodes.filter fun x => !decide (A.key x≠k))=[r] := by
    have hnodup : (t.nodes.filter fun x => !decide (A.key x≠k)).Nodup :=
      h.keys.of_map.filter _
    refine List.perm_singleton.mp ((List.perm_ext_iff_of_nodup hnodup (by simp)).mpr ?_)
    intro x
    rw [List.mem_filter,List.mem_singleton]
    constructor
    · intro hx
      have hsame : A.key x=A.key r := by simpa [hkey] using hx.2
      exact List.inj_on_of_nodup_map h.keys hx.1 hr hsame
    · intro hx
      simp [hx,hr,hkey]
  have hsplit := List.filter_append_perm (fun x => !decide (A.key x≠k)) t.nodes
  rw [hone] at hsplit
  simpa using hsplit.symm

/-- Without the stamp of a record the index lists the other records. -/
theorem Consistent.index_erase (h : t.Consistent A) (hfound : t.find A k=some r) :
    (t.index.erase (A.stamp r)).Perm
      ((t.nodes.filter fun x => decide (A.key x≠k)).map A.stamp) := by
  have hstamps := h.index.trans ((h.nodes_perm hfound).map A.stamp)
  have herase := hstamps.erase (A.stamp r)
  rwa [List.map_cons,List.erase_cons_head] at herase

/-- A record that is not there has no stamp to erase. -/
theorem Consistent.index_erase_none (h : t.Consistent A) (hfound : t.find A (A.key r)=none) :
    t.index.erase (A.stamp r)=t.index := by
  apply List.erase_of_not_mem
  intro hmem
  obtain ⟨x,hx,hstamp⟩ := List.mem_map.mp (h.index.subset hmem)
  exact find_none hfound x hx (congrArg Prod.snd hstamp)

theorem keys_filter (h : t.Consistent A) (k : κ) :
    ((t.nodes.filter fun x => decide (A.key x≠k)).map A.key).Nodup :=
  h.keys.sublist (List.filter_sublist.map A.key)

theorem Consistent.drop (h : t.Consistent A) (hfound : t.find A (A.key r)=some r) :
    (t.drop A r).Consistent A where
  keys := keys_filter h (A.key r)
  index := h.index_erase hfound
  sorted := h.sorted.sublist List.erase_sublist

/-- The old record is the one that is there, if any. -/
theorem Consistent.touch (h : t.Consistent A) (hkey : A.key old=A.key new)
    (hold : ∀ r,t.find A (A.key new)=some r → r=old) : (t.touch A old new).Consistent A := by
  have hothers : (t.index.erase (A.stamp old)).Perm
      ((t.nodes.filter fun x => decide (A.key x≠A.key new)).map A.stamp) := by
    cases hfound : t.find A (A.key new) with
    | none =>
      rw [h.index_erase_none (hkey ▸ hfound),filter_of_find_none hfound]
      exact h.index
    | some r =>
      obtain rfl := hold r hfound
      exact h.index_erase hfound
  have hfresh : A.stamp new∉t.index.erase (A.stamp old) := by
    intro hmem
    obtain ⟨x,hx,hstamp⟩ := List.mem_map.mp (hothers.subset hmem)
    have hne : A.key x≠A.key new := by simpa using (List.mem_filter.mp hx).2
    exact hne (congrArg Prod.snd hstamp)
  constructor
  · refine List.nodup_cons.mpr ⟨?_,keys_filter h (A.key new)⟩
    intro hmem
    obtain ⟨x,hx,hsame⟩ := List.mem_map.mp hmem
    have hne : A.key x≠A.key new := by simpa using (List.mem_filter.mp hx).2
    exact hne hsame
  · exact (Aging.insertStamp_perm hfresh).trans (hothers.cons _)
  · exact Aging.insertStamp_sorted hfresh (h.sorted.sublist List.erase_sublist)

theorem touch_length_le (t : AgedTable κ ρ) (old new : ρ) :
    (t.touch A old new).nodes.length≤t.nodes.length+1 :=
  Nat.succ_le_succ (List.length_filter_le _ _)

/-- No more records when one is replaced. -/
theorem touch_length_of_find (hfound : t.find A (A.key new)=some r) :
    (t.touch A old new).nodes.length≤t.nodes.length := by
  obtain ⟨hr,hkey⟩ := find_mem hfound
  exact List.length_filter_lt_length_iff_exists.mpr ⟨r,hr,by simp [hkey]⟩

theorem find_touch : (t.touch A old new).find A k =
    if A.key new=k then some new else t.find A k := by
  unfold find touch setStamp setNode eraseStamp
  rw [lookupKey_cons]
  split_ifs with h
  · rfl
  · unfold lookupKey
    rw [List.find?_filter]
    congr 1
    funext x
    by_cases hx : A.key x=k
    · simp [hx,Ne.symm h]
    · simp [hx]

theorem find_drop_ne (hne : A.key r≠k) : (t.drop A r).find A k=t.find A k := by
  unfold find drop eraseStamp eraseNode lookupKey
  rw [List.find?_filter]
  congr 1
  funext x
  by_cases hx : A.key x=k
  · simp [hx,Ne.symm hne]
  · simp [hx]

theorem drop_length_le (t : AgedTable κ ρ) (r : ρ) :
    (t.drop A r).nodes.length≤t.nodes.length := List.length_filter_le _ _

theorem sweepOld_spec (es : List (Int × κ)) (h : t.Consistent A) (hes : t.index=es) :
    (t.sweepOld A maxAge now es).Consistent A ∧
      (t.sweepOld A maxAge now es).nodes =
        t.nodes.filter fun r => decide (now-A.age r ≤ maxAge) := by
  induction es generalizing t with
  | nil =>
    have hnone : t.nodes=[] := by
      have hperm := h.index
      rw [hes] at hperm
      exact List.map_eq_nil_iff.mp hperm.symm.eq_nil
    refine ⟨h,?_⟩
    rw [sweepOld,hnone]
    rfl
  | cons e rest ih =>
    obtain ⟨r,hr,hstamp⟩ := List.mem_map.mp (h.index.subset (hes ▸ List.mem_cons_self))
    subst hstamp
    have hfound : t.find A (A.key r)=some r := h.find_of_mem hr
    change (match t.find A (A.key r) with | none => t | some r => _).Consistent A ∧
      (match t.find A (A.key r) with | none => t | some r => _).nodes=_
    rw [hfound]
    dsimp only
    split_ifs with hold
    · have hindex : (t.drop A r).index=rest := by
        change t.index.erase (A.stamp r)=rest
        rw [hes,List.erase_cons_head]
      obtain ⟨hcons,hnodes⟩ := ih (h.drop hfound) hindex
      refine ⟨hcons,hnodes.trans ?_⟩
      change (t.nodes.filter fun x => decide (A.key x≠A.key r)).filter _ = _
      rw [List.filter_filter]
      apply List.filter_congr
      intro x hx
      by_cases hkey : A.key x=A.key r
      · obtain rfl := List.inj_on_of_nodup_map h.keys hx hr hkey
        have hgone : ¬ now-A.age x ≤ maxAge := by omega
        simp [hgone]
      · simp [hkey]
    · refine ⟨h,(List.filter_eq_self.mpr ?_).symm⟩
      intro x hx
      -- the index is in order, so no record is older than the first
      have hmem : A.stamp x∈A.stamp r::rest := hes ▸ h.index.symm.subset (List.mem_map_of_mem hx)
      have hage : A.age r≤A.age x := by
        obtain heq | hmem := List.mem_cons.mp hmem
        · exact Int.le_of_eq (congrArg Prod.fst heq).symm
        · have hsorted := h.sorted
          rw [hes] at hsorted
          have hbefore := (List.pairwise_cons.mp hsorted).1 _ hmem
          unfold Aging.before Aging.stamp at hbefore
          omega
      exact decide_eq_true (by omega)

theorem Consistent.evict (h : t.Consistent A) : (t.evict A maxAge now).Consistent A :=
  (sweepOld_spec t.index h rfl).1

theorem evict_nodes (h : t.Consistent A) : (t.evict A maxAge now).nodes =
    t.nodes.filter fun r => decide (now-A.age r ≤ maxAge) := (sweepOld_spec t.index h rfl).2

theorem evict_length_le (h : t.Consistent A) :
    (t.evict A maxAge now).nodes.length≤t.nodes.length := by
  rw [evict_nodes h]
  exact List.length_filter_le _ _

theorem find_evict (h : t.Consistent A) (hfound : t.find A k=some r)
    (hfresh : now-A.age r ≤ maxAge) : (t.evict A maxAge now).find A k=some r := by
  obtain ⟨hr,rfl⟩ := find_mem hfound
  apply h.evict.find_of_mem
  rw [evict_nodes h]
  exact List.mem_filter.mpr ⟨hr,decide_eq_true hfresh⟩

theorem find_evict_none (h : t.Consistent A) (hnone : t.find A k=none) :
    (t.evict A maxAge now).find A k=none := by
  cases hfound : (t.evict A maxAge now).find A k with
  | none => rfl
  | some r =>
    obtain ⟨hr,hkey⟩ := find_mem hfound
    rw [evict_nodes h] at hr
    exact absurd hkey (find_none hnone r (List.mem_filter.mp hr).1)

end AgedTable

end EmuleQt.Framework
