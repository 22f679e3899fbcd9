import EmuleQt.Framework.Run
import EmuleQt.IpFilter.SortAndMergeSpec

namespace EmuleQt.IpFilter

open Framework Net RangeKey

section Lookup

variable {κ : Type} [RangeKey κ]

/-- `std::upper_bound` in a table sorted by start: how many ranges start at or before the key. -/
def upperBound (entries : List (IPFilterEntry κ)) (key : κ) : Nat :=
  (entries.takeWhile fun e => !decide (key<e.start)).length

/-- The place of the one range that is looked at, if it blocks the key. -/
def blockedBy (entries : List (IPFilterEntry κ)) (key : κ) (filterLevel : UInt32) : Option Nat :=
  match upperBound entries key with
  | 0 => none
  | i+1 =>
    match entries[i]? with
    | some e =>
      if e.start≤key ∧ key≤e.stop ∧ e.level<filterLevel then some i else none
    | none => none

def countHit (entries : List (IPFilterEntry κ)) (i : Nat) : List (IPFilterEntry κ) :=
  entries.modify i fun e => { e with hits := e.hits+1 }

end Lookup

/-- From network byte order on a little-endian machine. -/
def ntohl (ip : UInt32) : UInt32 :=
  let v := ip.toNat
  UInt32.ofNat (v / 2 ^ 24 + 2 ^ 8 * (v / 2 ^ 16 % 2 ^ 8) + 2 ^ 16 * (v / 2 ^ 8 % 2 ^ 8) +
    2 ^ 24 * (v % 2 ^ 8))

/-- The last hit is kept as its place in the table. -/
structure IPFilter where
  entries : List (IPFilterEntry UInt32)
  entries6 : List (IPFilterEntry V6Key)
  lastHit : Option Nat
  lastHit6 : Option Nat
  lastHitAddress : Address
  modified : Bool

namespace IPFilter

def empty : IPFilter := ⟨[], [], none, none, .none, false⟩

def addIPRange (f : IPFilter) (start stop : UInt32) (level : UInt32) (desc : String) : IPFilter :=
  { f with entries := f.entries ++ [⟨start, stop, level, 0, desc⟩], modified := true }

def addIPRange6 (f : IPFilter) (start stop : V6Key) (level : UInt32) (desc : String) : IPFilter :=
  if stop < start then f
  else { f with entries6 := f.entries6 ++ [⟨start, stop, level, 0, desc⟩], modified := true }

def sortAndMerge (f : IPFilter) : IPFilter :=
  let (entries, modified) := sortAndMergeRanges f.entries f.modified
  let (entries6, modified) := sortAndMergeRanges f.entries6 modified
  { f with entries, entries6, modified, lastHit := none, lastHit6 := none }

def isFilteredV6 (f : IPFilter) (addr : V6Key) (filterLevel : UInt32) : Bool × IPFilter :=
  if f.entries6 = [] then (false, f)
  else
    match blockedBy f.entries6 addr filterLevel with
    | some i => (true,
        { f with
          entries6 := countHit f.entries6 i
          lastHit6 := some i
          lastHit := none
          lastHitAddress := .ipv6 addr })
    | none => (false, f)

/-- `isFiltered` of an IPv4 address in network byte order. -/
def isFilteredV4 (f : IPFilter) (ip filterLevel : UInt32) : Bool × IPFilter :=
  if f.entries=[] ∨ ip=0 then (false, f)
  else
    match blockedBy f.entries (ntohl ip) filterLevel with
    | some i => (true,
        { f with
          entries := countHit f.entries i
          lastHit := some i
          lastHit6 := none
          lastHitAddress := Address.fromHostOrder (ntohl ip) })
    | none => (false, f)

def isFiltered (f : IPFilter) (addr : Address) (filterLevel : UInt32) : Bool × IPFilter :=
  match addr with
  | .ipv4 _ => f.isFilteredV4 (UInt32.ofNat addr.toNetworkUint32) filterLevel
  | .ipv6 ip => f.isFilteredV6 ip filterLevel
  | .none => (false, f)

inductive Op
  | addIPRange (start stop level : UInt32) (desc : String)
  | addIPRange6 (start stop : V6Key) (level : UInt32) (desc : String)
  | sortAndMerge
  | isFiltered (addr : Address) (filterLevel : UInt32)

def step (f : IPFilter) : Op → IPFilter
  | .addIPRange start stop level desc => f.addIPRange start stop level desc
  | .addIPRange6 start stop level desc => f.addIPRange6 start stop level desc
  | .sortAndMerge => f.sortAndMerge
  | .isFiltered addr filterLevel => (f.isFiltered addr filterLevel).2

/-- The IPv4 ranges that were added. -/
def added (ops : List Op) : List (IPFilterEntry UInt32) :=
  ops.filterMap fun
    | .addIPRange start stop level desc => some ⟨start, stop, level, 0, desc⟩
    | _ => none

/-- The IPv6 ranges that were added. -/
def added6 (ops : List Op) : List (IPFilterEntry V6Key) :=
  ops.filterMap fun
    | .addIPRange6 start stop level desc => some ⟨start,stop,level,0,desc⟩
    | _ => none

end IPFilter

section Levels

variable {κ : Type} [RangeKey κ] {entries entries' es : List (IPFilterEntry κ)} {key : κ}
  {filterLevel : UInt32}

/-- Two tables that block the same keys at every threshold. -/
def SameLevels (entries entries' : List (IPFilterEntry κ)) : Prop :=
  ∀ k L, (∃ l∈levelsAt entries k, l≤L) ↔ ∃ l∈levelsAt entries' k, l≤L

theorem SameLevels.of_levelsAt (h : ∀ k,levelsAt entries k=levelsAt entries' k) :
    SameLevels entries entries' := fun k L => by rw [h k]

theorem SameLevels.trans (h : SameLevels entries entries') (h' : SameLevels entries' es) :
    SameLevels entries es := fun k L => (h k L).trans (h' k L)

theorem levelsAt_append (entries es : List (IPFilterEntry κ)) (k : κ) :
    levelsAt (entries++es) k=levelsAt entries k ∪ levelsAt es k := by
  ext l
  rw [Set.mem_union,mem_levelsAt,mem_levelsAt,mem_levelsAt]
  simp only [List.mem_append,or_and_right,exists_or]

theorem SameLevels.append (h : SameLevels entries entries') (es : List (IPFilterEntry κ)) :
    SameLevels (entries++es) (entries'++es) := by
  intro k L
  simp only [levelsAt_append,Set.mem_union,or_and_right,exists_or]
  exact or_congr_left (h k L)

theorem exists_isLeast {s : Set UInt32} {l : UInt32} (h : l∈s) : ∃ l', IsLeast s l' ∧ l'≤l := by
  induction hn : l.toNat using Nat.strong_induction_on generalizing l with
  | _ n ih =>
    by_cases hlower : ∃ x∈s, x<l
    · obtain ⟨x,hx,hlt⟩ := hlower
      obtain ⟨l',hleast,hle⟩ := ih x.toNat (hn ▸ UInt32.lt_iff_toNat_lt.mp hlt) hx rfl
      exact ⟨l',hleast,hle.trans hlt.le⟩
    · push Not at hlower
      exact ⟨l,⟨h,hlower⟩,le_refl _⟩

theorem Strictest.sameLevels (h : Strictest entries entries') : SameLevels entries' entries := by
  intro k L
  constructor
  · rintro ⟨l,hl,hL⟩
    exact ⟨l,((h k l).mp hl).1,hL⟩
  · rintro ⟨l,hl,hL⟩
    obtain ⟨l',hleast,hle⟩ := exists_isLeast hl
    exact ⟨l',(h k l').mpr hleast,hle.trans hL⟩

theorem SameLevels.isLeast_iff (h : SameLevels entries entries') (k : κ) (l : UInt32) :
    IsLeast (levelsAt entries k) l ↔ IsLeast (levelsAt entries' k) l := by
  have hone : ∀ {es es' : List (IPFilterEntry κ)}, SameLevels es es' →
      IsLeast (levelsAt es k) l → IsLeast (levelsAt es' k) l := by
    intro es es' h hl
    have hlow : ∀ l'∈levelsAt es' k,l≤l' := fun l' hl' => by
      obtain ⟨x,hx,hle⟩ := (h k l').mpr ⟨l',hl',le_refl _⟩
      exact (hl.2 hx).trans hle
    obtain ⟨x,hx,hle⟩ := (h k l).mp ⟨l,hl.1,le_refl _⟩
    exact ⟨le_antisymm hle (hlow x hx) ▸ hx,hlow⟩
  exact ⟨hone h,hone fun k L => (h k L).symm⟩

theorem SameLevels.blocks_iff (h : SameLevels entries entries') (k : κ) (L : UInt32) :
    (∃ l∈levelsAt entries k, l<L) ↔ ∃ l∈levelsAt entries' k, l<L := by
  have hone : ∀ {es es' : List (IPFilterEntry κ)}, SameLevels es es' →
      (∃ l∈levelsAt es k, l<L) → ∃ l∈levelsAt es' k, l<L := by
    rintro es es' h ⟨l,hl,hlt⟩
    obtain ⟨x,hx,hle⟩ := (h k l).mp ⟨l,hl,le_refl _⟩
    exact ⟨x,hx,hle.trans_lt hlt⟩
  exact ⟨hone h,hone fun k L => (h k L).symm⟩

/-- In a table in order no other range than the one looked at can cover the key. -/
theorem blockedBy_isSome (h : Disjoint entries) :
    (blockedBy entries key filterLevel).isSome=true ↔
      ∃ l∈levelsAt entries key, l<filterLevel := by
  have hsplit := List.takeWhile_append_dropWhile (p := fun e : IPFilterEntry κ =>
    !decide (key<e.start)) (l := entries)
  have hhead := List.head?_dropWhile_not (fun e : IPFilterEntry κ => !decide (key<e.start))
    entries
  have htaken : ∀ e∈entries.takeWhile (fun e => !decide (key<e.start)), e.start≤key := by
    intro e he
    have hp := List.mem_takeWhile_imp he
    simpa using hp
  unfold blockedBy upperBound
  generalize entries.takeWhile (fun e => !decide (key<e.start))=taken at hsplit htaken ⊢
  generalize entries.dropWhile (fun e => !decide (key<e.start))=later at hsplit hhead
  subst hsplit
  obtain ⟨htakenSorted,hlaterSorted,hbetween⟩ := List.pairwise_append.mp h
  have hlater : ∀ e∈later,¬ e.covers key := by
    intro e he hcovers
    cases later with
    | nil => cases he
    | cons first rest =>
      have hfirst : key<first.start := by simpa using hhead
      rcases List.mem_cons.mp he with rfl | he
      · exact absurd hcovers.1 (not_le.mpr hfirst)
      · have hlt := ((List.pairwise_cons.mp hlaterSorted).1 e he).1
        exact absurd hcovers.1 (not_le.mpr (hfirst.trans hlt))
  rcases List.eq_nil_or_concat' taken with rfl | ⟨init,last,rfl⟩
  · refine iff_of_false (by simp) ?_
    rintro ⟨l,⟨e,he,hcovers,-⟩,-⟩
    exact hlater e he hcovers
  · have hinit : ∀ e∈init,¬ e.covers key := by
      intro e he hcovers
      have hbefore := (List.pairwise_append.mp htakenSorted).2.2 e he last List.mem_cons_self
      have hstart := htaken last (List.mem_append_right _ List.mem_cons_self)
      exact absurd hcovers.2 (not_le.mpr (hbefore.2.trans_le hstart))
    have hindex : (init++[last]++later)[init.length]? = some last := by simp
    rw [List.length_append,List.length_singleton]
    dsimp only
    rw [hindex]
    dsimp only
    constructor
    · intro hsome
      split_ifs at hsome with hblocks
      · exact ⟨last.level,⟨last,by simp,⟨hblocks.1,hblocks.2.1⟩,rfl⟩,hblocks.2.2⟩
      · cases hsome
    · rintro ⟨l,⟨e,he,hcovers,rfl⟩,hlt⟩
      have heq : e=last := by
        rcases List.mem_append.mp he with he | he
        · rcases List.mem_append.mp he with he | he
          · exact absurd hcovers (hinit e he)
          · exact List.mem_singleton.mp he
        · exact absurd hcovers (hlater e he)
      rw [heq] at hcovers hlt
      rw [if_pos ⟨hcovers.1,hcovers.2,hlt⟩]
      rfl

theorem levelsAt_modify (f : IPFilterEntry κ → IPFilterEntry κ)
    (hf : ∀ e,(f e).start=e.start ∧ (f e).stop=e.stop ∧ (f e).level=e.level)
    (entries : List (IPFilterEntry κ)) (i : Nat) (k : κ) :
    levelsAt (entries.modify i f) k=levelsAt entries k := by
  have hcovers : ∀ e : IPFilterEntry κ, (f e).covers k ↔ e.covers k := fun e => by
    rw [IPFilterEntry.covers,IPFilterEntry.covers,(hf e).1,(hf e).2.1]
  induction entries generalizing i with
  | nil => rw [List.modify_nil]
  | cons e entries ih =>
    ext l
    cases i with
    | zero =>
      rw [List.modify_zero_cons,mem_levelsAt_cons,mem_levelsAt_cons,hcovers,(hf e).2.2]
    | succ i => rw [List.modify_succ_cons,mem_levelsAt_cons,mem_levelsAt_cons,ih]

theorem countHit_levelsAt (entries : List (IPFilterEntry κ)) (i : Nat) (k : κ) :
    levelsAt (countHit entries i) k=levelsAt entries k :=
  levelsAt_modify (fun e => { e with hits := e.hits+1 }) (fun _ => ⟨rfl,rfl,rfl⟩) entries i k

end Levels

namespace IPFilter

variable {f : IPFilter} {ranges : List (IPFilterEntry UInt32)} {ranges6 : List (IPFilterEntry V6Key)}

/-- The tables block what the ranges added so far block. -/
def Holds (f : IPFilter) (ranges : List (IPFilterEntry UInt32))
    (ranges6 : List (IPFilterEntry V6Key)) : Prop :=
  SameLevels f.entries ranges ∧ SameLevels f.entries6 ranges6

theorem isFiltered_entries (f : IPFilter) (addr : Address) (filterLevel : UInt32) :
    (∀ k,levelsAt (f.isFiltered addr filterLevel).2.entries k=levelsAt f.entries k) ∧
      ∀ k,levelsAt (f.isFiltered addr filterLevel).2.entries6 k=levelsAt f.entries6 k := by
  cases addr with
  | none => exact ⟨fun _ => rfl,fun _ => rfl⟩
  | ipv4 ip =>
    unfold isFiltered isFilteredV4
    dsimp only
    split_ifs
    · exact ⟨fun _ => rfl,fun _ => rfl⟩
    · split
      · exact ⟨fun k => countHit_levelsAt f.entries _ k,fun _ => rfl⟩
      · exact ⟨fun _ => rfl,fun _ => rfl⟩
  | ipv6 ip =>
    unfold isFiltered isFilteredV6
    dsimp only
    split_ifs
    · exact ⟨fun _ => rfl,fun _ => rfl⟩
    · split
      · exact ⟨fun _ => rfl,fun k => countHit_levelsAt f.entries6 _ k⟩
      · exact ⟨fun _ => rfl,fun _ => rfl⟩

theorem sortAndMerge_spec (f : IPFilter) :
    (Disjoint f.sortAndMerge.entries ∧ Strictest f.entries f.sortAndMerge.entries) ∧
      Disjoint f.sortAndMerge.entries6 ∧ Strictest f.entries6 f.sortAndMerge.entries6 :=
  ⟨sortAndMergeRanges_spec f.entries f.modified,sortAndMergeRanges_spec f.entries6 _⟩

theorem step_holds (h : f.Holds ranges ranges6) (op : Op) :
    (f.step op).Holds (ranges++added [op]) (ranges6++added6 [op]) := by
  cases op with
  | addIPRange start stop level desc =>
    refine ⟨h.1.append _,?_⟩
    rw [added6,List.filterMap_cons_none rfl,List.filterMap_nil,List.append_nil]
    exact h.2
  | addIPRange6 start stop level desc =>
    refine ⟨?_,?_⟩
    · rw [added,List.filterMap_cons_none rfl,List.filterMap_nil,List.append_nil]
      unfold step addIPRange6
      dsimp only
      split_ifs
      · exact h.1
      · exact h.1
    · change SameLevels _ (ranges6++[⟨start,stop,level,0,desc⟩])
      unfold step addIPRange6
      dsimp only
      split_ifs with hinverted
      · -- an inverted range covers nothing
        refine SameLevels.trans h.2 (SameLevels.of_levelsAt fun k => ?_)
        rw [levelsAt_append]
        refine (Set.union_eq_left.mpr ?_).symm
        rintro l ⟨e,he,hcovers,-⟩
        rw [List.mem_singleton] at he
        rw [he] at hcovers
        exact absurd (hcovers.1.trans hcovers.2) (not_le.mpr hinverted)
      · exact h.2.append _
  | sortAndMerge =>
    obtain ⟨⟨-,hstrictest⟩,-,hstrictest6⟩ := f.sortAndMerge_spec
    simp only [added,added6,List.filterMap_cons,List.filterMap_nil,List.append_nil]
    exact ⟨SameLevels.trans hstrictest.sameLevels h.1,SameLevels.trans hstrictest6.sameLevels h.2⟩
  | isFiltered addr filterLevel =>
    obtain ⟨hentries,hentries6⟩ := f.isFiltered_entries addr filterLevel
    simp only [added,added6,List.filterMap_cons,List.filterMap_nil,List.append_nil]
    exact ⟨SameLevels.trans (SameLevels.of_levelsAt hentries) h.1,
      SameLevels.trans (SameLevels.of_levelsAt hentries6) h.2⟩

theorem run_holds (h : f.Holds ranges ranges6) (ops : List Op) :
    (run step f ops).Holds (ranges++added ops) (ranges6++added6 ops) := by
  induction ops generalizing f ranges ranges6 with
  | nil =>
    simp only [added,added6,List.filterMap_nil,List.append_nil,run_nil]
    exact h
  | cons op ops ih =>
    have hrest := ih (step_holds h op)
    rw [List.append_assoc,List.append_assoc,added,added,added6,added6,
      ← List.filterMap_append,← List.filterMap_append] at hrest
    exact hrest

theorem ntohl_toNetworkUint32 (ip : UInt32) :
    ntohl (UInt32.ofNat (Address.ipv4 ip).toNetworkUint32)=ip := by
  have hswap : ∀ a b c d : Nat, a<256 → b<256 → c<256 → d<256 →
      let v := a*2^24+b*2^16+c*2^8+d
      v/2^24+2^8*(v/2^16%2^8)+2^16*(v/2^8%2^8) +
        2^24*(v%2^8)=d*2^24+c*2^16+b*2^8+a := by
    omega
  have hip := ip.toNat_lt
  obtain ⟨a,b,c,d,ha,hb,hc,hd,hv⟩ : ∃ a b c d : Nat, a<256 ∧ b<256 ∧ c<256 ∧
      d<256 ∧ ip.toNat=a*2^24+b*2^16+c*2^8+d :=
    ⟨ip.toNat/2^24,ip.toNat/2^16%2^8,ip.toNat/2^8%2^8,ip.toNat%2^8,
      by omega,by omega,by omega,by omega,by omega⟩
  have hout := hswap a b c d ha hb hc hd
  have hback := hswap d c b a hd hc hb ha
  apply UInt32.toNat_inj.mp
  simp only [ntohl,Address.toNetworkUint32,UInt32.toNat_ofNat',hv]
  have hsmall : d*2^24+c*2^16+b*2^8+a<2^32 := by omega
  rw [hout,Nat.mod_eq_of_lt hsmall,hback,Nat.mod_eq_of_lt (hv ▸ hip)]

theorem isFilteredV4_iff (h : Disjoint f.entries) (ip L : UInt32) :
    (f.isFilteredV4 ip L).1=true ↔ ip≠0 ∧ ∃ l∈levelsAt f.entries (ntohl ip), l<L := by
  unfold isFilteredV4
  rw [← blockedBy_isSome h]
  split_ifs with hskip
  · refine iff_of_false (by simp) fun hblocks => ?_
    rcases hskip with hempty | hzero
    · rw [hempty] at hblocks
      simp [blockedBy,upperBound] at hblocks
    · exact hblocks.1 hzero
  · rw [and_iff_right fun hzero => hskip (Or.inr hzero)]
    cases blockedBy f.entries (ntohl ip) L <;> simp

theorem isFilteredV6_iff (h : Disjoint f.entries6) (addr : V6Key) (L : UInt32) :
    (f.isFilteredV6 addr L).1=true ↔ ∃ l∈levelsAt f.entries6 addr, l<L := by
  unfold isFilteredV6
  rw [← blockedBy_isSome h]
  split_ifs with hempty
  · rw [hempty]
    simp [blockedBy,upperBound]
  · cases blockedBy f.entries6 addr L <;> simp

/-- The ranges added that cover an address. -/
def Blocked (ops : List Op) (addr : Address) (L : UInt32) : Prop :=
  match addr with
  | .none => False
  | .ipv4 ip => ∃ r ∈ added ops, (r.start ≤ ip ∧ ip ≤ r.stop) ∧ r.level < L
  | .ipv6 ip => ∃ r ∈ added6 ops, (r.start ≤ ip ∧ ip ≤ r.stop) ∧ r.level < L

theorem exists_level_iff {κ : Type} [RangeKey κ] {es : List (IPFilterEntry κ)} {k : κ}
    {L : UInt32} : (∃ l∈levelsAt es k, l<L) ↔ ∃ e∈es, e.covers k ∧ e.level<L := by
  constructor
  · rintro ⟨_,⟨e,he,hcovers,rfl⟩,hlt⟩
    exact ⟨e,he,hcovers,hlt⟩
  · rintro ⟨e,he,hcovers,hlt⟩
    exact ⟨e.level,⟨e,he,hcovers,rfl⟩,hlt⟩

/-- After `sortAndMerge`, whatever was added, merged and looked up before: both tables are in order
and have the strictest level at every key, and an address is blocked exactly if a range that was
added blocks it, the IPv4 address 0 apart. -/
theorem ipFilter_correct (ops : List Op) :
    let f := (run step empty ops).sortAndMerge
    Disjoint f.entries ∧ Disjoint f.entries6 ∧
      Strictest (added ops) f.entries ∧ Strictest (added6 ops) f.entries6 ∧
      (∀ ip L,(f.isFilteredV4 ip L).1=true ↔ ip≠0 ∧ Blocked ops (.ipv4 (ntohl ip)) L) ∧
      ∀ addr L,(f.isFiltered addr L).1=true ↔ addr ≠ .ipv4 0 ∧ Blocked ops addr L := by
  intro f
  have hempty : empty.Holds [] [] := ⟨fun _ _ => Iff.rfl,fun _ _ => Iff.rfl⟩
  obtain ⟨hranges,hranges6⟩ := run_holds hempty ops
  rw [List.nil_append] at hranges hranges6
  obtain ⟨⟨hdisjoint,hstrictest⟩,hdisjoint6,hstrictest6⟩ :=
    (run step empty ops).sortAndMerge_spec
  have hblocks : ∀ k L,(∃ l∈levelsAt f.entries k, l<L) ↔
      ∃ r∈added ops, r.covers k ∧ r.level<L := fun k L =>
    ((hstrictest.sameLevels.trans hranges).blocks_iff k L).trans exists_level_iff
  have hblocks6 : ∀ k L,(∃ l∈levelsAt f.entries6 k, l<L) ↔
      ∃ r∈added6 ops, r.covers k ∧ r.level<L := fun k L =>
    ((hstrictest6.sameLevels.trans hranges6).blocks_iff k L).trans exists_level_iff
  have hv4 : ∀ ip L,(f.isFilteredV4 ip L).1=true ↔
      ip≠0 ∧ Blocked ops (.ipv4 (ntohl ip)) L := fun ip L => by
    rw [isFilteredV4_iff hdisjoint,hblocks]
    rfl
  refine ⟨hdisjoint,hdisjoint6,fun k l => (hstrictest k l).trans (hranges.isLeast_iff k l),
    fun k l => (hstrictest6 k l).trans (hranges6.isLeast_iff k l),hv4,fun addr L => ?_⟩
  cases addr with
  | none => simp [isFiltered,Blocked]
  | ipv4 ip =>
    have hzero : UInt32.ofNat (Address.ipv4 ip).toNetworkUint32=0 ↔ ip=0 := by
      constructor
      · intro h
        have hback := ntohl_toNetworkUint32 ip
        rw [h] at hback
        exact hback.symm
      · rintro rfl
        rfl
    unfold isFiltered
    dsimp only
    rw [hv4,ntohl_toNetworkUint32,ne_eq,hzero,ne_eq,Address.ipv4.injEq]
  | ipv6 ip =>
    unfold isFiltered
    dsimp only
    rw [isFilteredV6_iff hdisjoint6,hblocks6,and_iff_right (by simp)]
    rfl

def isZero : Address → Bool
  | .none => true
  | .ipv4 ip => decide (ip = 0)
  | .ipv6 ip => ip.bytes.all fun b => decide (b = 0)

def unspecified6 : V6Key := ⟨List.replicate 16 0,List.length_replicate⟩

/-- A range that starts at `::` blocks `::`. -/
theorem not_isFiltered_nonzero : ¬ ∀ ops addr L,
    (((run step empty ops).sortAndMerge).isFiltered addr L).1 = true ↔
      isZero addr = false ∧ Blocked ops addr L := by
  intro h
  have hblocked := (h [.addIPRange6 unspecified6 unspecified6 0 ""] (.ipv6 unspecified6) 1).mp
    (by decide)
  have hzero : isZero (.ipv6 unspecified6)=true := by decide
  rw [hzero] at hblocked
  cases hblocked.1

end IPFilter

end EmuleQt.IpFilter
