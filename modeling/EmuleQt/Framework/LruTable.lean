import EmuleQt.Framework.Keyed
import Mathlib.Data.List.Nodup

namespace EmuleQt.Framework

/-- The entries, the most recently used first, and the keys of the index to them. -/
structure LruTable (α κ : Type*) where
  lru : List α
  index : List κ

namespace LruTable

variable {α κ : Type*} (key : α → κ) (fresh : κ → α) (cap : Nat)

def empty : LruTable α κ := ⟨[], []⟩

/-- The index and the list hold the same keys, each once. -/
structure Consistent (t : LruTable α κ) : Prop where
  keys : (t.lru.map key).Nodup
  index : t.index.Perm (t.lru.map key)

theorem empty_consistent : (empty : LruTable α κ).Consistent key := by
  constructor <;> simp [empty]

theorem Consistent.mem_index {key : α → κ} {t : LruTable α κ} {k : κ} (h : t.Consistent key) :
    k∈t.index ↔ k∈t.lru.map key := h.index.mem_iff

variable [DecidableEq κ]

def find (k : κ) (t : LruTable α κ) : Option α :=
  if k ∈ t.index then lookupKey key k t.lru else none

/-- The least recently used entry leaves both. -/
def dropBack (t : LruTable α κ) : LruTable α κ :=
  match t.lru.getLast? with
  | none => t
  | some back => ⟨t.lru.dropLast,t.index.erase (key back)⟩

/-- The entry of a key comes to the front, or a fresh one does. -/
def touch (k : κ) (t : LruTable α κ) : LruTable α κ :=
  if k ∈ t.index then
    match lookupKey key k t.lru with
    | none => t
    | some e => { t with lru := e :: t.lru.eraseP fun x => decide (key x = k) }
  else
    let room := if cap ≤ t.index.length then t.dropBack key else t
    ⟨fresh k :: room.lru, k :: room.index⟩

def modifyFront (f : α → α) (t : LruTable α κ) : LruTable α κ :=
  match t.lru with
  | [] => t
  | e::es => { t with lru := f e::es }

/-- The use of one key costs another its entry. -/
def Evicts (k other : κ) (t : LruTable α κ) : Prop :=
  k ∉ t.index ∧ cap ≤ t.index.length ∧ t.lru.getLast?.map key = some other

instance instDecidableEvicts (k other : κ) (t : LruTable α κ) :
    Decidable (t.Evicts key cap k other) := inferInstanceAs (Decidable (_ ∧ _ ∧ _))

variable {key fresh cap} {t : LruTable α κ} {k k' : κ} {e : α} {f : α → α}

theorem Consistent.find_eq (h : t.Consistent key) : t.find key k=lookupKey key k t.lru := by
  unfold find
  split_ifs with hin
  · rfl
  · rw [h.mem_index] at hin
    exact (lookupKey_eq_none.mpr hin).symm

theorem Consistent.find_isSome (h : t.Consistent key) :
    (t.find key k).isSome=true ↔ k∈t.index := by
  rw [h.find_eq,h.mem_index,lookupKey,List.find?_isSome]
  simp

theorem Consistent.dropBack (h : t.Consistent key) : (t.dropBack key).Consistent key := by
  unfold LruTable.dropBack
  cases hback : t.lru.getLast? with
  | none => exact h
  | some back =>
    have hlru : t.lru=t.lru.dropLast++[back] := (List.dropLast_append_getLast? back hback).symm
    have hkeys := h.keys
    have hindex := h.index
    rw [hlru,List.map_append] at hkeys hindex
    refine ⟨(List.nodup_append.mp hkeys).1,?_⟩
    have herase := (hindex.trans List.perm_append_comm).erase (key back)
    rwa [List.map_singleton,List.singleton_append,List.erase_cons_head] at herase

/-- Only the last entry is lost. -/
theorem Consistent.find_dropBack (h : t.Consistent key) :
    (t.dropBack key).find key k =
      if t.lru.getLast?.map key=some k then none else t.find key k := by
  rw [h.dropBack.find_eq,h.find_eq]
  unfold LruTable.dropBack
  cases hback : t.lru.getLast? with
  | none => rfl
  | some back =>
    have hlru : t.lru=t.lru.dropLast++[back] := (List.dropLast_append_getLast? back hback).symm
    simp only [Option.map_some,Option.some.injEq]
    split_ifs with hk
    · have hkeys := h.keys
      rw [hlru,List.map_append] at hkeys
      apply List.find?_eq_none.mpr
      intro x hx hkey
      have hsame : key x=key back := (of_decide_eq_true hkey).trans hk.symm
      exact (List.nodup_append.mp hkeys).2.2 (key x) (List.mem_map_of_mem hx) (key back)
        (List.mem_singleton.mpr rfl) hsame
    · conv_rhs => rw [hlru,lookupKey_append]
      have hlast : lookupKey key k [back]=none := by simp [lookupKey,hk]
      rw [hlast,Option.or_none]

theorem toFront_perm (hfound : lookupKey key k t.lru=some e) :
    (e::t.lru.eraseP fun x => decide (key x=k)).Perm t.lru := by
  obtain ⟨hmem,hkey⟩ := lookupKey_mem hfound
  have hsplit := List.find?_eq_some_iff_append.mp hfound
  obtain ⟨-,as,bs,hlru,has⟩ := hsplit
  have herase : t.lru.eraseP (fun x => decide (key x=k))=as++bs := by
    rw [hlru,List.eraseP_append_right _ (by simpa using has),
      List.eraseP_cons_of_pos (by simp [hkey])]
  rw [herase,hlru]
  exact List.perm_middle.symm

theorem lookupKey_perm {xs ys : List α} (hperm : xs.Perm ys) (hkeys : (xs.map key).Nodup) :
    lookupKey key k xs=lookupKey key k ys := by
  have hkeys' : (ys.map key).Nodup := (hperm.map key).nodup_iff.mp hkeys
  cases hxs : lookupKey key k xs with
  | none =>
    symm
    apply List.find?_eq_none.mpr
    intro y hy
    exact List.find?_eq_none.mp hxs y (hperm.mem_iff.mpr hy)
  | some x =>
    obtain ⟨hx,hkx⟩ := lookupKey_mem hxs
    cases hys : lookupKey key k ys with
    | none => exact absurd (decide_eq_true hkx) (List.find?_eq_none.mp hys x (hperm.mem_iff.mp hx))
    | some y =>
      obtain ⟨hy,hky⟩ := lookupKey_mem hys
      rw [List.inj_on_of_nodup_map hkeys' (hperm.mem_iff.mp hx) hy (hkx.trans hky.symm)]

theorem Consistent.touch (cap : Nat) (k : κ) (hfresh : ∀ k,key (fresh k)=k)
    (h : t.Consistent key) :
    (t.touch key fresh cap k).Consistent key := by
  unfold LruTable.touch
  split_ifs with hin hfull
  · cases hfound : lookupKey key k t.lru with
    | none => exact h
    | some e =>
      have hperm := (toFront_perm hfound).map key
      exact ⟨hperm.nodup_iff.mpr h.keys,h.index.trans hperm.symm⟩
  · have hroom := h.dropBack
    have hnew : k∉(t.dropBack key).lru.map key := by
      rw [← hroom.mem_index,← hroom.find_isSome,h.find_dropBack]
      have hnone : t.find key k=none := if_neg hin
      simp [hnone]
    exact ⟨by simpa [hfresh] using ⟨by simpa using hnew,hroom.keys⟩,
      by simpa [hfresh] using hroom.index⟩
  · rw [h.mem_index] at hin
    exact ⟨by simpa [hfresh] using ⟨by simpa using hin,h.keys⟩,by simpa [hfresh] using h.index⟩

/-- A used key has its entry at the front, the old one or a fresh one. -/
theorem Consistent.touch_front (h : t.Consistent key) :
    (t.touch key fresh cap k).lru.head? = some ((t.find key k).getD (fresh k)) := by
  unfold LruTable.touch find
  split_ifs with hin hfull
  · have hsome := h.find_isSome.mpr hin
    rw [h.find_eq] at hsome
    obtain ⟨e,he⟩ := Option.isSome_iff_exists.mp hsome
    rw [he]
    rfl
  all_goals rfl

/-- The entries of the other keys stay, but for the one that is evicted. -/
theorem Consistent.find_touch_ne (hfresh : ∀ k,key (fresh k)=k) (h : t.Consistent key)
    (hne : k'≠k) : (t.touch key fresh cap k).find key k' =
      if t.Evicts key cap k k' then none else t.find key k' := by
  rw [(h.touch _ _ hfresh).find_eq]
  unfold LruTable.touch
  by_cases hin : k∈t.index
  · have hkeep : ¬ t.Evicts key cap k k' := fun hevict => hevict.1 hin
    rw [if_pos hin,if_neg hkeep,h.find_eq]
    cases hfound : lookupKey key k t.lru with
    | none => rfl
    | some e =>
      have hperm := toFront_perm hfound
      exact lookupKey_perm hperm ((hperm.map key).nodup_iff.mpr h.keys)
  · rw [if_neg hin]
    rw [lookupKey_cons,if_neg (by rw [hfresh]; exact hne.symm)]
    by_cases hfull : cap≤t.index.length
    · rw [if_pos hfull,← h.dropBack.find_eq,h.find_dropBack]
      simp only [Evicts,hin,hfull,not_false_eq_true,true_and]
    · have hkeep : ¬ t.Evicts key cap k k' := fun hevict => hfull hevict.2.1
      rw [if_neg hfull,if_neg hkeep,h.find_eq]

omit [DecidableEq κ] in
theorem Consistent.modifyFront (hf : ∀ e,key (f e)=key e) (h : t.Consistent key) :
    (t.modifyFront f).Consistent key := by
  unfold LruTable.modifyFront
  obtain ⟨hkeys,hindex⟩ := h
  cases hlru : t.lru with
  | nil => exact ⟨hkeys,hindex⟩
  | cons e es =>
    rw [hlru] at hkeys hindex
    exact ⟨by simpa only [List.map_cons,hf] using hkeys,
      by simpa only [List.map_cons,hf] using hindex⟩

theorem Consistent.find_modifyFront (hf : ∀ e,key (f e)=key e) (h : t.Consistent key)
    (hfront : t.lru.head? = some e) : (t.modifyFront f).find key k =
      if key e=k then some (f e) else t.find key k := by
  rw [(h.modifyFront hf).find_eq,h.find_eq]
  unfold LruTable.modifyFront
  cases hlru : t.lru with
  | nil =>
    rw [hlru] at hfront
    cases hfront
  | cons e' es =>
    rw [hlru] at hfront
    obtain rfl := Option.some.inj hfront
    rw [lookupKey_cons,lookupKey_cons,hf]
    split_ifs <;> rfl

theorem Consistent.find_key (h : t.Consistent key) (hfound : t.find key k=some e) :
    e∈t.lru ∧ key e=k := by
  rw [h.find_eq] at hfound
  exact lookupKey_mem hfound

theorem mem_touch {x : α} (hx : x∈(t.touch key fresh cap k).lru) : x=fresh k ∨ x∈t.lru := by
  unfold touch at hx
  split_ifs at hx with hin hfull
  · cases hfound : lookupKey key k t.lru with
    | none =>
      rw [hfound] at hx
      exact .inr hx
    | some e =>
      rw [hfound] at hx
      exact .inr ((toFront_perm hfound).subset hx)
  · rcases List.mem_cons.mp hx with rfl | hx
    · exact .inl rfl
    · unfold dropBack at hx
      split at hx
      · exact .inr hx
      · exact .inr ((List.dropLast_sublist _).subset hx)
  · exact List.mem_cons.mp hx

omit [DecidableEq κ] in
theorem mem_modifyFront {x : α} (hx : x∈(t.modifyFront f).lru) :
    (∃ e∈t.lru, x=f e) ∨ x∈t.lru := by
  unfold modifyFront at hx
  cases hlru : t.lru with
  | nil =>
    rw [hlru] at hx
    rw [hlru] at hx
    cases hx
  | cons e es =>
    rw [hlru] at hx
    rcases List.mem_cons.mp hx with rfl | hx
    · exact .inl ⟨e,List.mem_cons_self,rfl⟩
    · exact .inr (List.mem_cons_of_mem e hx)

end LruTable

end EmuleQt.Framework
