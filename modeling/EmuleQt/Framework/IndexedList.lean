import EmuleQt.Framework.Keyed
import Mathlib.Algebra.Order.Group.Int
import Mathlib.Algebra.Ring.Int.Defs
import Mathlib.Data.List.Rotate

/-!
A linked list whose nodes keep their addresses, an index of addresses by key, and a cursor that
outlives the calls.
-/

namespace EmuleQt.Framework

/-- The nodes in order with their addresses, the next address, the index, and where the cursor
stands; `none` is the end. -/
structure IndexedList (α κ : Type*) where
  nodes : List (Nat × α)
  fresh : Nat
  index : List (κ × Nat)
  cursor : Option Nat

namespace IndexedList

variable {α κ : Type*}

def empty : IndexedList α κ := ⟨[], 0, [], none⟩

def entries (l : IndexedList α κ) : List α := l.nodes.map Prod.snd

def addresses (l : IndexedList α κ) : List Nat := l.nodes.map Prod.fst

/-- What stands at an address, if it is alive. -/
def deref (l : IndexedList α κ) (p : Nat) : Option α :=
  (lookupKey Prod.fst p l.nodes).map Prod.snd

def modify (l : IndexedList α κ) (p : Nat) (f : α → α) : IndexedList α κ :=
  { l with nodes := l.nodes.map fun n => if n.1 = p then (n.1, f n.2) else n }

/-- The addresses from the cursor on. -/
def ahead (l : IndexedList α κ) : List Nat :=
  match l.cursor with
  | none => []
  | some p => l.addresses.dropWhile fun q => decide (q ≠ p)

def behind (l : IndexedList α κ) : List Nat :=
  match l.cursor with
  | none => l.addresses
  | some p => l.addresses.takeWhile fun q => decide (q ≠ p)

/-- The addresses in the order a walk from the cursor comes by them. -/
def lap (l : IndexedList α κ) : List Nat := l.ahead ++ l.behind

/-- All nodes go, and the cursor is at the end. -/
def clear (l : IndexedList α κ) : IndexedList α κ := ⟨[], l.fresh, [], none⟩

def mapAll (l : IndexedList α κ) (f : α → α) : IndexedList α κ :=
  { l with nodes := l.nodes.map fun n => (n.1, f n.2) }

def first (l : IndexedList α κ) : Option Nat := l.addresses.head?

def rewind (l : IndexedList α κ) : IndexedList α κ := { l with cursor := l.first }

/-- The address behind another one. -/
def after (l : IndexedList α κ) (p : Nat) : Option Nat :=
  (l.addresses.dropWhile fun q => decide (q ≠ p)).tail.head?

/-- Where the cursor stands, or the beginning from the end. -/
def stand (l : IndexedList α κ) : Option Nat := l.cursor.or l.first

/-- The cursor goes one node on. -/
def advance (l : IndexedList α κ) : IndexedList α κ :=
  { l with cursor := l.stand.bind l.after }

theorem addresses_modify (l : IndexedList α κ) (p : Nat) (f : α → α) :
    (l.modify p f).addresses=l.addresses := by
  unfold addresses modify
  rw [List.map_map]
  apply List.map_congr_left
  intro n _
  dsimp only [Function.comp]
  split_ifs <;> rfl

theorem lap_modify (l : IndexedList α κ) (p : Nat) (f : α → α) : (l.modify p f).lap=l.lap := by
  have haddresses := addresses_modify l p f
  have hcursor : (l.modify p f).cursor=l.cursor := rfl
  rw [lap,lap,ahead,ahead,behind,behind,haddresses,hcursor]

theorem entries_mapAll (l : IndexedList α κ) (f : α → α) :
    (l.mapAll f).entries=l.entries.map f := by
  simp [entries,mapAll]

/-- The first steps of a walk that goes round and round. -/
def turns {β : Type*} : Nat → List β → List β
  | 0, _ => []
  | _ + 1, [] => []
  | n + 1, x :: xs => x :: turns n (xs ++ [x])

/-- A walk goes on where it has come to. -/
theorem turns_add {β : Type*} (m n : Nat) (xs : List β) :
    turns (m+n) xs=turns m xs++turns n (xs.rotate m) := by
  induction m generalizing xs with
  | zero => rw [Nat.zero_add,List.rotate_zero,turns,List.nil_append]
  | succ m ih =>
    cases xs with
    | nil =>
      cases n <;> rfl
    | cons x xs =>
      rw [Nat.add_right_comm,turns,turns,ih,List.rotate_cons_succ,List.cons_append]

/-- As many steps in a row as there are places come by each of them once. -/
theorem turns_window {β : Type*} {xs : List β} {n k : Nat} (h : k+xs.length≤n) :
    (((turns n xs).drop k).take xs.length).Perm xs := by
  induction k generalizing n xs with
  | zero =>
    obtain ⟨m,rfl⟩ := Nat.exists_eq_add_of_le h
    rw [List.drop_zero,Nat.zero_add]
    have hfront : ∀ (ys zs : List β) m, (turns (ys.length+m) (ys++zs)).take ys.length=ys := by
      intro ys
      induction ys with
      | nil => exact fun _ _ => List.take_zero
      | cons y ys ih =>
        intro zs m
        rw [List.cons_append,List.length_cons,Nat.add_right_comm,turns,List.append_assoc,
          List.take_succ_cons,ih]
    have hall := hfront xs [] m
    rw [List.append_nil] at hall
    rw [hall]
  | succ k ih =>
    cases xs with
    | nil => simp
    | cons x xs =>
      cases n with
      | zero => exact absurd h (by simp)
      | succ n =>
        have hlength : (xs++[x]).length=(x::xs).length := by simp
        have hle : k+(xs++[x]).length≤n := by
          omega
        have hwindow := ih hle
        rw [turns,List.drop_succ_cons,← hlength]
        exact hwindow.trans (List.perm_append_singleton x xs)

variable {l : IndexedList α κ} {p : Nat} {xs ys : List Nat}

theorem dropWhile_of_split (hbefore : p∉xs) :
    (xs++p::ys).dropWhile (fun q => decide (q≠p))=p::ys := by
  rw [List.dropWhile_append_of_pos,List.dropWhile_cons_of_neg (by simp)]
  intro q hq
  apply decide_eq_true
  rintro rfl
  exact hbefore hq

theorem after_of_split (hsplit : l.addresses=xs++p::ys) (hbefore : p∉xs) :
    l.after p=ys.head? := by
  unfold after
  rw [hsplit,dropWhile_of_split hbefore]
  rfl

theorem lap_perm (l : IndexedList α κ) : l.lap.Perm l.addresses := by
  unfold lap ahead behind
  cases l.cursor with
  | none => exact List.Perm.refl _
  | some p =>
    apply List.perm_append_comm.trans
    rw [List.takeWhile_append_dropWhile]

/-- The lap begins at the cursor. -/
theorem lap_of_split (hdup : l.addresses.Nodup) (hsplit : l.addresses=xs++ys)
    (hcursor : l.cursor=ys.head?) : l.lap=ys++xs := by
  cases ys with
  | nil =>
    have hnone : l.cursor=none := hcursor
    rw [lap,ahead,behind,hnone]
    exact hsplit.trans (List.append_nil xs)
  | cons p ys =>
    have hsome : l.cursor=some p := hcursor
    have hbefore : p∉xs := by
      rw [hsplit,List.nodup_middle,List.nodup_cons] at hdup
      exact fun hin => hdup.1 (List.mem_append_left _ hin)
    have hdrop : (xs++p::ys).dropWhile (fun q => decide (q≠p))=p::ys :=
      dropWhile_of_split hbefore
    have htake := List.takeWhile_append_dropWhile (p := fun q => decide (q≠p)) (l := xs++p::ys)
    rw [hdrop] at htake
    rw [lap,ahead,behind,hsome,hsplit]
    dsimp only
    rw [hdrop,List.append_cancel_right htake]

variable [DecidableEq κ] (key : α → κ)

def find (l : IndexedList α κ) (k : κ) : Option Nat :=
  (lookupKey Prod.fst k l.index).map Prod.snd

/-- A new node at the end, and its place in the index. -/
def push (l : IndexedList α κ) (a : α) : IndexedList α κ :=
  { l with
    nodes := l.nodes ++ [(l.fresh, a)]
    fresh := l.fresh + 1
    index := upsert Prod.fst (key a) (fun _ => (key a, l.fresh)) l.index }

/-- The cursor leaves a node that goes. -/
def erase (l : IndexedList α κ) (p : Nat) (k : κ) : IndexedList α κ :=
  { l with
    nodes := l.nodes.filter fun n => decide (n.1 ≠ p)
    index := l.index.filter fun e => decide (e.1 ≠ k)
    cursor := if l.cursor = some p then l.after p else l.cursor }

/-- The entry of a key, found by walking the list. -/
def lookup (l : IndexedList α κ) (k : κ) : Option α :=
  (lookupKey (fun n => key n.2) k l.nodes).map Prod.snd

/-- Addresses and keys occur once, the index knows exactly the nodes, and the cursor stands on a
node or at the end. -/
structure Consistent (l : IndexedList α κ) : Prop where
  addresses : l.addresses.Nodup
  bound : ∀ p ∈ l.addresses, p < l.fresh
  keys : (l.entries.map key).Nodup
  index : ∀ k p, l.find k = some p ↔ ∃ a, (p, a) ∈ l.nodes ∧ key a = k
  cursor : ∀ p, l.cursor = some p → p ∈ l.addresses

variable {key} {a : α} {k : κ} {f : α → α}

theorem empty_consistent : (empty : IndexedList α κ).Consistent key := by
  constructor <;> simp [empty,addresses,entries,find,lookupKey]

theorem deref_eq_some (h : l.Consistent key) : l.deref p=some a ↔ (p, a)∈l.nodes := by
  unfold deref
  rw [Option.map_eq_some_iff]
  constructor
  · rintro ⟨⟨q,b⟩,hfound,rfl⟩
    obtain ⟨hmem,rfl⟩ := lookupKey_mem hfound
    exact hmem
  · intro hmem
    cases hfound : lookupKey Prod.fst p l.nodes with
    | none => exact absurd (List.mem_map_of_mem hmem) (lookupKey_eq_none.mp hfound)
    | some n =>
      obtain ⟨hn,hkey⟩ := lookupKey_mem hfound
      have hsame := List.inj_on_of_nodup_map h.addresses hn hmem hkey
      exact ⟨n,rfl,by rw [hsame]⟩

theorem deref_isSome (h : l.Consistent key) (hp : p∈l.addresses) : ∃ a, l.deref p=some a := by
  obtain ⟨⟨q,a⟩,hmem,rfl⟩ := List.mem_map.mp hp
  exact ⟨a,(deref_eq_some h).mpr hmem⟩

theorem keys_nodup (h : l.Consistent key) : (l.nodes.map fun n => key n.2).Nodup := by
  have hkeys := h.keys
  rwa [entries,List.map_map] at hkeys

theorem lookup_eq_some (h : l.Consistent key) :
    l.lookup key k=some a ↔ a∈l.entries ∧ key a=k := by
  unfold lookup
  rw [Option.map_eq_some_iff]
  constructor
  · rintro ⟨n,hfound,rfl⟩
    obtain ⟨hmem,hkey⟩ := lookupKey_mem hfound
    exact ⟨List.mem_map_of_mem hmem,hkey⟩
  · rintro ⟨hmem,rfl⟩
    obtain ⟨n,hn,rfl⟩ := List.mem_map.mp hmem
    cases hfound : lookupKey (fun n : Nat × α => key n.2) (key n.2) l.nodes with
    | none =>
      exact absurd (List.mem_map_of_mem (f := fun n : Nat × α => key n.2) hn)
        (lookupKey_eq_none.mp hfound)
    | some m =>
      obtain ⟨hm,hkey⟩ := lookupKey_mem hfound
      exact ⟨m,rfl,by rw [List.inj_on_of_nodup_map (keys_nodup h) hm hn hkey]⟩

/-- What the index finds is the node of the key. -/
theorem find_eq_some (h : l.Consistent key) :
    l.find k=some p ↔ ∃ a, l.deref p=some a ∧ key a=k := by
  rw [h.index]
  exact exists_congr fun a => and_congr_left' (deref_eq_some h).symm

/-- The entry of a key stands at the address the index knows. -/
theorem find_of_lookup (h : l.Consistent key) (ha : l.lookup key k=some a) :
    ∃ p, l.find k=some p ∧ l.deref p=some a := by
  obtain ⟨hmem,hkey⟩ := (lookup_eq_some h).mp ha
  obtain ⟨⟨p,b⟩,hn,rfl⟩ := List.mem_map.mp hmem
  have hderef := (deref_eq_some h).mpr hn
  exact ⟨p,(find_eq_some h).mpr ⟨b,hderef,hkey⟩,hderef⟩

theorem find_eq_none (h : l.Consistent key) : l.find k=none ↔ l.lookup key k=none := by
  rw [Option.eq_none_iff_forall_not_mem,Option.eq_none_iff_forall_not_mem]
  constructor
  · intro hfind a ha
    obtain ⟨hmem,hkey⟩ := (lookup_eq_some h).mp ha
    obtain ⟨n,hn,rfl⟩ := List.mem_map.mp hmem
    exact hfind n.1 ((h.index k n.1).mpr ⟨n.2,hn,hkey⟩)
  · intro hlookup p hp
    obtain ⟨a,hmem,hkey⟩ := (h.index k p).mp hp
    exact hlookup a ((lookup_eq_some h).mpr ⟨List.mem_map_of_mem hmem,hkey⟩)

theorem lookup_isSome_of_deref (h : l.Consistent key) (ha : l.deref p=some a) :
    l.lookup key (key a)=some a :=
  (lookup_eq_some h).mpr ⟨List.mem_map_of_mem ((deref_eq_some h).mp ha),rfl⟩

section Push

variable (hnew : l.lookup key (key a)=none)
include hnew

theorem not_mem_keys : key a∉l.nodes.map fun n => key n.2 := by
  unfold lookup at hnew
  rw [Option.map_eq_none_iff] at hnew
  exact lookupKey_eq_none.mp hnew

theorem push_consistent (h : l.Consistent key) : (l.push key a).Consistent key := by
  have hkey := not_mem_keys hnew
  constructor
  · change ((l.nodes++[(l.fresh, a)]).map Prod.fst).Nodup
    rw [List.map_append]
    apply h.addresses.append (List.nodup_singleton _)
    intro p hp hfresh
    have hlast : p=l.fresh := List.mem_singleton.mp hfresh
    exact absurd (h.bound p hp) (by omega)
  · intro p hp
    change p∈(l.nodes++[(l.fresh, a)]).map Prod.fst at hp
    rw [List.map_append,List.mem_append,List.map_singleton,List.mem_singleton] at hp
    rcases hp with hp | rfl
    · exact (h.bound p hp).trans (Nat.lt_succ_self _)
    · exact Nat.lt_succ_self _
  · change ((l.nodes++[(l.fresh, a)]).map Prod.snd |>.map key).Nodup
    rw [List.map_map,List.map_append]
    apply (keys_nodup h).append (List.nodup_singleton _)
    intro k hk hlast
    have hsame : k=key a := List.mem_singleton.mp hlast
    exact hkey (hsame ▸ hk)
  · intro k p
    have hindex := h.index k p
    change (lookupKey Prod.fst k (upsert Prod.fst (key a) (fun _ => (key a, l.fresh))
      l.index)).map Prod.snd=some p ↔ ∃ b, (p, b)∈l.nodes++[(l.fresh, a)] ∧ key b=k
    by_cases hk : k=key a
    · subst hk
      rw [lookupKey_upsert_self rfl,Option.map_some,Option.some_inj]
      constructor
      · rintro rfl
        exact ⟨a,List.mem_append_right _ (List.mem_singleton.mpr rfl),rfl⟩
      · rintro ⟨b,hb,hkeyb⟩
        rcases List.mem_append.mp hb with hold | hlast
        · exact absurd (hkeyb ▸ List.mem_map_of_mem (f := fun n : Nat × α => key n.2) hold) hkey
        · exact (congrArg Prod.fst (List.mem_singleton.mp hlast)).symm
    · rw [lookupKey_upsert_ne rfl hk]
      apply hindex.trans
      apply exists_congr
      intro b
      apply and_congr_left
      rintro rfl
      rw [List.mem_append,List.mem_singleton]
      constructor
      · exact .inl
      · rintro (hold | hlast)
        · exact hold
        · exact absurd (congrArg (fun n => key n.2) hlast) hk
  · intro p hp
    change p∈(l.nodes++[(l.fresh, a)]).map Prod.fst
    rw [List.map_append]
    exact List.mem_append_left _ (h.cursor p hp)

theorem lookup_push (k : κ) :
    (l.push key a).lookup key k=if k=key a then some a else l.lookup key k := by
  have hkey := not_mem_keys hnew
  change (lookupKey _ k (l.nodes++[(l.fresh, a)])).map Prod.snd=_
  rw [lookupKey_append,lookupKey_cons]
  by_cases hk : k=key a
  · subst hk
    rw [lookupKey_eq_none.mpr hkey,if_pos rfl,if_pos rfl]
    rfl
  · rw [if_neg (Ne.symm hk),if_neg hk]
    unfold lookup
    cases lookupKey (fun n : Nat × α => key n.2) k l.nodes <;> rfl

end Push

theorem entries_push (l : IndexedList α κ) (a : α) : (l.push key a).entries=l.entries++[a] := by
  simp [entries,push]

section Modify

variable (h : l.Consistent key) (ha : l.deref p=some a) (hf : key (f a)=key a)
include h ha

theorem mem_nodes_modify {n : Nat × α} :
    n∈(l.modify p f).nodes ↔ n=(p, f a) ∨ n∈l.nodes ∧ n.1≠p := by
  change n∈l.nodes.map _ ↔ _
  rw [List.mem_map]
  have hpa := (deref_eq_some h).mp ha
  constructor
  · rintro ⟨m,hm,rfl⟩
    split_ifs with hp
    · have hsame : m=(p, a) := List.inj_on_of_nodup_map h.addresses hm hpa hp
      exact .inl (by rw [hsame])
    · exact .inr ⟨hm,hp⟩
  · rintro (rfl | ⟨hm,hp⟩)
    · exact ⟨(p, a),hpa,if_pos rfl⟩
    · exact ⟨n,hm,if_neg hp⟩

include hf

theorem keys_modify : (l.modify p f).nodes.map (fun n => key n.2) =
    l.nodes.map fun n => key n.2 := by
  unfold modify
  rw [List.map_map]
  apply List.map_congr_left
  intro n hn
  dsimp only [Function.comp]
  split_ifs with hp
  · have hsame : n=(p, a) :=
      List.inj_on_of_nodup_map h.addresses hn ((deref_eq_some h).mp ha) hp
    rw [hsame]
    exact hf
  · rfl

theorem modify_consistent : (l.modify p f).Consistent key := by
  constructor
  · rw [addresses_modify]
    exact h.addresses
  · rw [addresses_modify]
    exact h.bound
  · rw [entries,List.map_map]
    change ((l.modify p f).nodes.map fun n => key n.2).Nodup
    rw [keys_modify h ha hf]
    exact keys_nodup h
  · intro k q
    have hindex := h.index k q
    have hnodes := @mem_nodes_modify _ _ l p _ key a f h ha
    have hpa := (deref_eq_some h).mp ha
    apply hindex.trans
    constructor
    · rintro ⟨b,hb,rfl⟩
      by_cases hq : q=p
      · have hnode : (q, b)=(p, a) := List.inj_on_of_nodup_map h.addresses hb hpa hq
        obtain ⟨rfl,rfl⟩ := Prod.mk.inj hnode
        exact ⟨f b,hnodes.mpr (.inl rfl),hf⟩
      · exact ⟨b,hnodes.mpr (.inr ⟨hb,hq⟩),rfl⟩
    · rintro ⟨b,hb,rfl⟩
      rcases hnodes.mp hb with heq | ⟨hb,-⟩
      · obtain ⟨rfl,rfl⟩ := Prod.mk.inj heq
        exact ⟨a,hpa,hf.symm⟩
      · exact ⟨b,hb,rfl⟩
  · rw [addresses_modify]
    exact h.cursor

theorem lookup_modify (k : κ) : (l.modify p f).lookup key k =
    if k=key a then some (f a) else l.lookup key k := by
  have h' := modify_consistent h ha hf
  have hnodes := @mem_nodes_modify _ _ l p _ key a f h ha
  by_cases hk : k=key a
  · rw [if_pos hk,lookup_eq_some h']
    exact ⟨List.mem_map_of_mem (hnodes.mpr (.inl rfl)),hf.trans hk.symm⟩
  · rw [if_neg hk]
    ext b
    rw [lookup_eq_some h',lookup_eq_some h]
    constructor
    · rintro ⟨hb,rfl⟩
      obtain ⟨n,hn,rfl⟩ := List.mem_map.mp hb
      rcases hnodes.mp hn with rfl | ⟨hn,-⟩
      · exact absurd hf hk
      · exact ⟨List.mem_map_of_mem hn,rfl⟩
    · rintro ⟨hb,rfl⟩
      obtain ⟨n,hn,rfl⟩ := List.mem_map.mp hb
      refine ⟨List.mem_map_of_mem (hnodes.mpr (.inr ⟨hn,?_⟩)),rfl⟩
      intro hp
      have hnode : n=(p, a) :=
        List.inj_on_of_nodup_map h.addresses hn ((deref_eq_some h).mp ha) hp
      exact hk (by rw [hnode])

end Modify

theorem clear_consistent (l : IndexedList α κ) : l.clear.Consistent key := by
  constructor <;> simp [clear,addresses,entries,find,lookupKey]

theorem rewind_consistent (h : l.Consistent key) : l.rewind.Consistent key :=
  ⟨h.addresses,h.bound,h.keys,h.index,fun _ hp => List.mem_of_mem_head? (Option.mem_def.mpr hp)⟩

theorem advance_consistent (h : l.Consistent key) : l.advance.Consistent key := by
  refine ⟨h.addresses,h.bound,h.keys,h.index,?_⟩
  intro q hq
  obtain ⟨p,-,hafter⟩ := Option.bind_eq_some_iff.mp hq
  have hmem := List.mem_of_mem_tail (List.mem_of_mem_head? (Option.mem_def.mpr hafter))
  exact (List.dropWhile_sublist _).subset hmem

theorem mapAll_consistent (h : l.Consistent key) (hf : ∀ a,key (f a)=key a) :
    (l.mapAll f).Consistent key := by
  have haddresses : (l.mapAll f).addresses=l.addresses := by
    unfold addresses mapAll
    rw [List.map_map]
    rfl
  constructor
  · rw [haddresses]
    exact h.addresses
  · rw [haddresses]
    exact h.bound
  · rw [entries_mapAll,List.map_map]
    rw [show key ∘ f=key from funext hf]
    exact h.keys
  · intro k p
    apply (h.index k p).trans
    constructor
    · rintro ⟨a,ha,rfl⟩
      exact ⟨f a,List.mem_map_of_mem (f := fun n : Nat × α => (n.1, f n.2)) ha,hf a⟩
    · rintro ⟨b,hb,rfl⟩
      obtain ⟨n,hn,heq⟩ := List.mem_map.mp hb
      obtain ⟨rfl,rfl⟩ := Prod.mk.inj heq
      exact ⟨n.2,hn,(hf n.2).symm⟩
  · rw [haddresses]
    exact h.cursor

theorem lookup_mapAll (h : l.Consistent key) (hf : ∀ a,key (f a)=key a) (k : κ) :
    (l.mapAll f).lookup key k=(l.lookup key k).map f := by
  ext b
  rw [lookup_eq_some (mapAll_consistent h hf),entries_mapAll,List.mem_map,
    Option.map_eq_some_iff]
  constructor
  · rintro ⟨⟨a,ha,rfl⟩,rfl⟩
    exact ⟨a,(lookup_eq_some h).mpr ⟨ha,(hf a).symm⟩,rfl⟩
  · rintro ⟨a,ha,rfl⟩
    obtain ⟨hmem,rfl⟩ := (lookup_eq_some h).mp ha
    exact ⟨⟨a,hmem,rfl⟩,hf a⟩

section Erase

variable (h : l.Consistent key) (ha : l.deref p=some a)
include h ha

/-- The list around a node. -/
theorem split_node : ∃ xs ys, l.nodes=xs++(p, a)::ys ∧ ∀ n∈xs++ys,n.1≠p := by
  obtain ⟨xs,ys,hnodes⟩ := List.append_of_mem ((deref_eq_some h).mp ha)
  refine ⟨xs,ys,hnodes,?_⟩
  intro n hn hp
  have hdup : l.addresses.Nodup := h.addresses
  rw [addresses,hnodes,List.map_append,List.map_cons,List.nodup_middle,List.nodup_cons,
    ← List.map_append] at hdup
  have hin : n.1∈(xs++ys).map Prod.fst := List.mem_map_of_mem hn
  rw [hp] at hin
  exact hdup.1 hin

theorem sum_modify (weight : α → Int) : ((l.modify p f).entries.map weight).sum =
    (l.entries.map weight).sum-weight a+weight (f a) := by
  obtain ⟨xs,ys,hnodes,hne⟩ := split_node h ha
  have hkeep : ∀ zs : List (Nat × α), (∀ n∈zs,n∈xs++ys) →
      zs.map (fun n => if n.1=p then (n.1, f n.2) else n)=zs := by
    intro zs hzs
    apply (List.map_congr_left fun n hn => if_neg (hne n (hzs n hn))).trans
    exact List.map_id _
  unfold entries modify
  rw [hnodes,List.map_append,List.map_cons,if_pos rfl,
    hkeep xs fun n hn => List.mem_append_left _ hn,hkeep ys fun n hn => List.mem_append_right _ hn]
  simp only [List.map_append,List.map_cons,List.sum_append,List.sum_cons]
  omega

theorem nodes_erase (k : κ) : ∃ xs ys, l.nodes=xs++(p, a)::ys ∧
    (l.erase p k).nodes=xs++ys ∧ ∀ n∈xs++ys,n.1≠p := by
  obtain ⟨xs,ys,hnodes,hne⟩ := split_node h ha
  refine ⟨xs,ys,hnodes,?_,hne⟩
  unfold erase
  rw [hnodes,List.filter_append,List.filter_cons_of_neg (by simp),← List.filter_append]
  exact List.filter_eq_self.mpr fun n hn => decide_eq_true (hne n hn)

theorem sum_erase (weight : α → Int) (k : κ) : ((l.erase p k).entries.map weight).sum =
    (l.entries.map weight).sum-weight a := by
  obtain ⟨xs,ys,hnodes,herase,-⟩ := nodes_erase h ha k
  unfold entries
  rw [hnodes,herase]
  simp only [List.map_append,List.map_cons,List.sum_append,List.sum_cons]
  omega

theorem erase_consistent : (l.erase p (key a)).Consistent key := by
  obtain ⟨xs,ys,hnodes,herase,hne⟩ := nodes_erase h ha (key a)
  have hsub : (l.erase p (key a)).nodes.Sublist l.nodes := List.filter_sublist
  constructor
  · exact h.addresses.sublist (hsub.map Prod.fst)
  · intro q hq
    exact h.bound q ((hsub.map Prod.fst).subset hq)
  · exact h.keys.sublist ((hsub.map Prod.snd).map key)
  · intro k q
    have hindex := h.index k q
    have hmem : ∀ b,(q, b)∈(l.erase p (key a)).nodes ↔ (q, b)∈l.nodes ∧ q≠p := by
      intro b
      unfold erase
      rw [List.mem_filter,decide_eq_true_iff]
    change (lookupKey Prod.fst k (l.index.filter fun e => decide (e.1≠key a))).map Prod.snd=_ ↔ _
    rw [lookupKey_filter_ne]
    split_ifs with hk
    · constructor
      · intro hfalse
        cases hfalse
      · rintro ⟨b,hb,rfl⟩
        obtain ⟨hb,hq⟩ := (hmem b).mp hb
        have hnode := List.inj_on_of_nodup_map (keys_nodup h) hb ((deref_eq_some h).mp ha) hk
        exact absurd (congrArg Prod.fst hnode) hq
    · apply hindex.trans
      apply exists_congr
      intro b
      apply and_congr_left
      rintro rfl
      rw [hmem]
      refine (and_iff_left_of_imp ?_).symm
      rintro hb rfl
      have hnode : (q, b)=(q, a) :=
        List.inj_on_of_nodup_map h.addresses hb ((deref_eq_some h).mp ha) rfl
      exact hk (congrArg (fun n => key n.2) hnode)
  · intro q hq
    unfold addresses
    rw [herase,List.map_append]
    change (if l.cursor=some p then l.after p else l.cursor)=some q at hq
    split_ifs at hq with hp
    · have hsplit : l.addresses=xs.map Prod.fst++p::ys.map Prod.fst := by
        rw [addresses,hnodes,List.map_append,List.map_cons]
      have hbefore : p∉xs.map Prod.fst := by
        intro hin
        obtain ⟨n,hn,hkey⟩ := List.mem_map.mp hin
        exact hne n (List.mem_append_left _ hn) hkey
      rw [after_of_split hsplit hbefore] at hq
      exact List.mem_append_right _ (List.mem_of_mem_head? (Option.mem_def.mpr hq))
    · have hin := h.cursor q hq
      unfold addresses at hin
      rw [hnodes,List.map_append,List.map_cons,List.mem_append,List.mem_cons] at hin
      rcases hin with hin | rfl | hin
      · exact List.mem_append_left _ hin
      · exact absurd hq hp
      · exact List.mem_append_right _ hin

theorem lookup_erase (k : κ) : (l.erase p (key a)).lookup key k =
    if k=key a then none else l.lookup key k := by
  have h' := erase_consistent h ha
  have hpa := (deref_eq_some h).mp ha
  have hmem : ∀ n,n∈(l.erase p (key a)).nodes ↔ n∈l.nodes ∧ n.1≠p := by
    intro n
    unfold erase
    rw [List.mem_filter,decide_eq_true_iff]
  by_cases hk : k=key a
  · rw [if_pos hk,Option.eq_none_iff_forall_not_mem]
    intro b hb
    obtain ⟨hb,hkey⟩ := (lookup_eq_some h').mp hb
    obtain ⟨n,hn,rfl⟩ := List.mem_map.mp hb
    obtain ⟨hn,hne⟩ := (hmem n).mp hn
    have hnode := List.inj_on_of_nodup_map (keys_nodup h) hn hpa (hkey.trans hk)
    exact hne (congrArg Prod.fst hnode)
  · rw [if_neg hk]
    ext b
    rw [lookup_eq_some h',lookup_eq_some h]
    apply and_congr_left
    rintro rfl
    constructor
    · intro hb
      obtain ⟨n,hn,rfl⟩ := List.mem_map.mp hb
      exact List.mem_map_of_mem ((hmem n).mp hn).1
    · intro hb
      obtain ⟨n,hn,rfl⟩ := List.mem_map.mp hb
      refine List.mem_map_of_mem ((hmem n).mpr ⟨hn,?_⟩)
      intro hp
      exact hk (congrArg (fun n => key n.2) (List.inj_on_of_nodup_map h.addresses hn hpa hp))

end Erase

/-- A step of the cursor turns the lap by one. -/
theorem lap_advance (h : l.Consistent key) (hne : l.nodes≠[]) :
    ∃ p rest, l.stand=some p ∧ p∈l.addresses ∧ l.lap=p::rest ∧
      l.advance.lap=rest++[p] := by
  obtain ⟨p,xs,ys,hstand,hsplit,hlap⟩ : ∃ p xs ys, l.stand=some p ∧
      l.addresses=xs++p::ys ∧ l.lap=p::(ys++xs) := by
    cases hcursor : l.cursor with
    | none =>
      cases hall : l.addresses with
      | nil => exact absurd (List.map_eq_nil_iff.mp hall) hne
      | cons p ys =>
        refine ⟨p,[],ys,?_,rfl,?_⟩
        · rw [stand,hcursor,first,hall]
          rfl
        · rw [lap,ahead,behind,hcursor,List.append_nil]
          exact hall
    | some p =>
      obtain ⟨xs,ys,hsplit⟩ := List.append_of_mem (h.cursor p hcursor)
      refine ⟨p,xs,ys,by rw [stand,hcursor]; rfl,hsplit,?_⟩
      have hlap : l.lap=(p::ys)++xs := lap_of_split h.addresses hsplit hcursor
      exact hlap
  have hbefore : p∉xs := by
    have hdup := h.addresses
    rw [hsplit,List.nodup_middle,List.nodup_cons] at hdup
    exact fun hin => hdup.1 (List.mem_append_left _ hin)
  refine ⟨p,ys++xs,hstand,?_,hlap,?_⟩
  · rw [hsplit]
    exact List.mem_append_right _ List.mem_cons_self
  · have hcursor : l.advance.cursor=ys.head? := by
      change l.stand.bind l.after=_
      rw [hstand]
      exact after_of_split hsplit hbefore
    have hturned : l.advance.addresses=(xs++[p])++ys := by
      rw [List.append_assoc]
      exact hsplit
    have hdup : l.advance.addresses.Nodup := h.addresses
    rw [lap_of_split hdup hturned hcursor,List.append_assoc]

end IndexedList

end EmuleQt.Framework
