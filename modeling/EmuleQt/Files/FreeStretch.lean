import EmuleQt.Files.GapList

namespace EmuleQt.Files

open Math Math.Interval

/-- A non-empty run inside one gap that nothing taken meets. -/
structure Stretch (gaps taken : List Interval) (i : Interval) : Prop where
  nonempty : i.start ≤ i.stop
  inGap : ∃ gap ∈ gaps, gap.start ≤ i.start ∧ i.stop ≤ gap.stop
  free : ∀ x, i.start ≤ x → x ≤ i.stop → x ∉ union taken

/-- No stretch is longer, and none in front of it is as long. -/
structure FirstLongest (gaps taken : List Interval) (i : Interval) : Prop where
  stretch : Stretch gaps taken i
  longest : ∀ j, Stretch gaps taken j → j.stop-j.start ≤ i.stop-i.start
  first : ∀ j, Stretch gaps taken j → j.start < i.start → j.stop-j.start < i.stop-i.start

theorem FirstLongest.unique {gaps taken : List Interval} {i j : Interval}
    (hi : FirstLongest gaps taken i) (hj : FirstLongest gaps taken j) : i=j := by
  have hij := hi.longest j hj.stretch
  have hji := hj.longest i hi.stretch
  have hi' := hi.stretch.nonempty
  have hj' := hj.stretch.nonempty
  rcases Nat.lt_trichotomy i.start j.start with hlt | heq | hgt
  · have := hj.first i hi.stretch hlt
    omega
  · obtain ⟨i1,i2⟩ := i
    obtain ⟨j1,j2⟩ := j
    simp only [Interval.mk.injEq] at *
    omega
  · have := hi.first j hj.stretch hgt
    omega

/-- `bestStart`, `bestEnd` and `bestLen`. -/
structure Best where
  start : Nat
  stop : Nat
  len : Nat

def Best.none : Best := ⟨0, 0, 0⟩

def consider (s e : Nat) (best : Best) : Best :=
  if e - s + 1 > best.len then ⟨s, e, e - s + 1⟩ else best

/-- The inner loop: the rest of one gap from `cursor` on, against the reservations still ahead. -/
def sweepGap (gap : Interval) (cursor : Nat) (best : Best) : List Interval → Best
  | [] => if cursor≤gap.stop then consider cursor gap.stop best else best
  | t::taken =>
    if t.start≤gap.stop then
      let best := if t.start>cursor then consider cursor (t.start-1) best else best
      if t.stop≥gap.stop then best else sweepGap gap (max cursor (t.stop+1)) best taken
    else if cursor≤gap.stop then consider cursor gap.stop best
    else best

/-- The outer loop; a reservation that ends before a gap is behind every later one. -/
def sweep (taken : List Interval) (best : Best) : List Interval → Best
  | [] => best
  | gap :: gapList =>
    let ahead := taken.dropWhile fun t => decide (t.stop < gap.start)
    sweep ahead (sweepGap gap gap.start best ahead) gapList

/-- `best` answers for the stretches that end before `bound`. -/
structure BestBelow (gaps taken : List Interval) (bound : Nat) (best : Best) : Prop where
  found : best.len=0 ∨ (Stretch gaps taken ⟨best.start,best.stop⟩ ∧ best.stop<bound ∧
    best.len=best.stop-best.start+1)
  longest : ∀ j, Stretch gaps taken j → j.stop<bound → j.stop-j.start+1≤best.len
  first : ∀ j, Stretch gaps taken j → j.stop<bound → j.start<best.start →
    j.stop-j.start+1<best.len

section Sweep

variable {gaps taken : List Interval} {best : Best} {bound bound' : Nat}

theorem BestBelow.none : BestBelow gaps taken 0 Best.none :=
  ⟨Or.inl rfl,fun _ _ hlt => absurd hlt (Nat.not_lt_zero _),
    fun _ _ hlt => absurd hlt (Nat.not_lt_zero _)⟩

theorem BestBelow.mono (h : BestBelow gaps taken bound best) (hle : bound≤bound')
    (hnew : ∀ j,Stretch gaps taken j → bound≤j.stop → bound'≤j.stop) :
    BestBelow gaps taken bound' best := by
  have hold : ∀ j,Stretch gaps taken j → j.stop<bound' → j.stop<bound := by
    intro j hj hlt
    by_contra hge
    exact absurd (hnew j hj (Nat.le_of_not_lt hge)) (Nat.not_le_of_lt hlt)
  refine ⟨?_,fun j hj hlt => h.longest j hj (hold j hj hlt),
    fun j hj hlt => h.first j hj (hold j hj hlt)⟩
  rcases h.found with hnone | ⟨hstretch,hlt,hlen⟩
  · exact Or.inl hnone
  · exact Or.inr ⟨hstretch,Nat.lt_of_lt_of_le hlt hle,hlen⟩

theorem BestBelow.consider {s e : Nat} (h : BestBelow gaps taken s best)
    (hstretch : Stretch gaps taken ⟨s,e⟩) (hbound : e<bound')
    (hnew : ∀ j,Stretch gaps taken j → s≤j.stop → j.stop<bound' →
      s≤j.start ∧ j.stop≤e) : BestBelow gaps taken bound' (consider s e best) := by
  have hse : s≤e := hstretch.nonempty
  rw [Files.consider]
  split_ifs with hlonger
  · refine ⟨Or.inr ⟨hstretch,hbound,rfl⟩,?_,?_⟩
    · intro j hj hlt
      by_cases hold : j.stop<s
      · have := h.longest j hj hold
        simp only
        omega
      · obtain ⟨hlow,hhigh⟩ := hnew j hj (Nat.le_of_not_lt hold) hlt
        simp only
        omega
    · intro j hj hlt hbefore
      by_cases hold : j.stop<s
      · have := h.longest j hj hold
        simp only
        omega
      · obtain ⟨hlow,-⟩ := hnew j hj (Nat.le_of_not_lt hold) hlt
        exact absurd hbefore (Nat.not_lt_of_le hlow)
  · have hbest : best.len≠0 := by omega
    obtain ⟨hfound,hlt,hlen⟩ := h.found.resolve_left hbest
    refine ⟨Or.inr ⟨hfound,by omega,hlen⟩,?_,?_⟩
    · intro j hj hlt'
      by_cases hold : j.stop<s
      · exact h.longest j hj hold
      · obtain ⟨hlow,hhigh⟩ := hnew j hj (Nat.le_of_not_lt hold) hlt'
        omega
    · intro j hj hlt' hbefore
      by_cases hold : j.stop<s
      · exact h.first j hj hold hbefore
      · obtain ⟨hlow,-⟩ := hnew j hj (Nat.le_of_not_lt hold) hlt'
        have hne := hfound.nonempty
        simp only at hne
        omega

/-- The sweep stands in a gap, at its first byte or behind a taken one. -/
structure AtCursor (gaps taken : List Interval) (gap : Interval) (cursor : Nat) : Prop where
  mem : gap∈gaps
  low : gap.start≤cursor
  high : cursor≤gap.stop
  behind : cursor=gap.start ∨ cursor-1∈union taken

variable {fileSize cursor : Nat} {gap j : Interval}

theorem WellFormed.eq_of_meet (h : WellFormed fileSize gaps) {g : Interval} (hg : g∈gaps)
    (hgap : gap∈gaps) {x : Nat} (hx : g.start≤x ∧ x≤g.stop)
    (hx' : gap.start≤x ∧ x≤gap.stop) : g=gap := by
  induction gaps with
  | nil => exact absurd hg List.not_mem_nil
  | cons first rest ih =>
    obtain ⟨-,hafter,hrest⟩ := h.of_cons
    rcases List.mem_cons.mp hg with hfirst | hlater
    · rcases List.mem_cons.mp hgap with hfirst' | hlater'
      · rw [hfirst,hfirst']
      · have hlt := hafter gap hlater'
        rw [← hfirst] at hlt
        omega
    · rcases List.mem_cons.mp hgap with hfirst' | hlater'
      · have hlt := hafter g hlater
        rw [← hfirst'] at hlt
        omega
      · exact ih hrest hlater hlater'

theorem AtCursor.le_start (h : AtCursor gaps taken gap cursor) (hwell : WellFormed fileSize gaps)
    (hj : Stretch gaps taken j) (hge : cursor≤j.stop) (hle : j.stop≤gap.stop) :
    cursor≤j.start := by
  by_contra hbefore
  obtain ⟨g,hg,hg1,hg2⟩ := hj.inGap
  have hne := hj.nonempty
  have hlow := h.low
  have hsame := hwell.eq_of_meet hg h.mem ⟨Nat.le_trans hg1 hne,hg2⟩ ⟨by omega,hle⟩
  rw [hsame] at hg1
  rcases h.behind with heq | htaken
  · omega
  · exact hj.free (cursor-1) (by omega) (by omega) htaken

theorem AtCursor.finish (h : AtCursor gaps taken gap cursor) (hwell : WellFormed fileSize gaps)
    (hfree : ∀ x,cursor≤x → x≤gap.stop → x∉union taken)
    (hbest : BestBelow gaps taken cursor best) :
    BestBelow gaps taken (gap.stop+1)
      (if cursor≤gap.stop then consider cursor gap.stop best else best) := by
  rw [if_pos h.high]
  refine hbest.consider ⟨h.high,⟨gap,h.mem,h.low,Nat.le_refl _⟩,hfree⟩ (Nat.lt_succ_self _) ?_
  intro j hj hge hlt
  have hle := Nat.le_of_lt_succ hlt
  exact ⟨h.le_start hwell hj hge hle,hle⟩

variable {ahead : List Interval}

theorem AtCursor.cut {t : Interval} (h : AtCursor gaps taken gap cursor)
    (hwell : WellFormed fileSize gaps) (hne : t.start≤t.stop) (hstart : t.start≤gap.stop)
    (hahead : ∀ x,cursor≤x → x≤gap.stop → (x∈union taken ↔ x∈union (t::ahead)))
    (hsorted : ∀ u∈ahead,t.start≤u.start) (hbest : BestBelow gaps taken cursor best) :
    BestBelow gaps taken (max cursor (min t.stop gap.stop+1))
      (if t.start>cursor then consider cursor (t.start-1) best else best) := by
  have htaken : ∀ x,cursor≤x → x≤gap.stop → t.start≤x → x≤t.stop → x∈union taken :=
    fun x hx hx' hl hh => (hahead x hx hx').mpr (mem_union_cons.mpr (Or.inl ⟨hl,hh⟩))
  split_ifs with hfront
  · have hfree : ∀ x,cursor≤x → x≤t.start-1 → x∉union taken := by
      intro x hx hx' hmem
      rcases mem_union_cons.mp ((hahead x hx (by omega)).mp hmem) with hin | hin
      · omega
      · obtain ⟨u,hu,hul,-⟩ := mem_union.mp hin
        have hlater := hsorted u hu
        omega
    refine hbest.consider ⟨by simp only; omega,⟨gap,h.mem,h.low,by simp only; omega⟩,hfree⟩
      (by omega) ?_
    intro j hj hge hlt
    have hle : j.stop≤gap.stop := by omega
    refine ⟨h.le_start hwell hj hge hle,?_⟩
    by_contra hpast
    exact hj.free j.stop hj.nonempty (Nat.le_refl _)
      (htaken j.stop hge hle (by omega) (by omega))
  · refine hbest.mono (Nat.le_max_left _ _) fun j hj hge => ?_
    by_contra hlt
    have hle : j.stop≤t.stop ∧ j.stop≤gap.stop := by omega
    exact hj.free j.stop hj.nonempty (Nat.le_refl _)
      (htaken j.stop hge hle.2 (by omega) hle.1)

theorem AtCursor.sweepGap (h : AtCursor gaps taken gap cursor) (hwell : WellFormed fileSize gaps)
    (hahead : ∀ x,cursor≤x → x≤gap.stop → (x∈union taken ↔ x∈union ahead))
    (hne : ∀ t∈ahead,t.start≤t.stop) (hsorted : ahead.Pairwise fun a b => a.start≤b.start)
    (hbest : BestBelow gaps taken cursor best) :
    BestBelow gaps taken (gap.stop+1) (sweepGap gap cursor best ahead) := by
  induction ahead generalizing cursor best with
  | nil => exact h.finish hwell (fun x hx hx' => by simp [hahead x hx hx']) hbest
  | cons t ahead ih =>
    obtain ⟨hfirst,hrest⟩ := List.pairwise_cons.mp hsorted
    have ht := hne t List.mem_cons_self
    have hne' : ∀ u∈ahead,u.start≤u.stop := fun u hu => hne u (List.mem_cons_of_mem t hu)
    have hhigh := h.high
    rw [Files.sweepGap]
    by_cases hstart : t.start≤gap.stop
    · have hcut := h.cut hwell ht hstart hahead hfirst hbest
      rw [if_pos hstart]
      by_cases hend : t.stop≥gap.stop
      · rw [Nat.min_eq_right hend,Nat.max_eq_right (by omega)] at hcut
        simpa only [if_pos hend] using hcut
      · rw [Nat.min_eq_left (by omega)] at hcut
        simp only [if_neg hend]
        have hnext : AtCursor gaps taken gap (max cursor (t.stop+1)) := by
          refine ⟨h.mem,Nat.le_trans h.low (Nat.le_max_left _ _),
            Nat.max_le.mpr ⟨hhigh,by omega⟩,?_⟩
          by_cases hpast : t.stop+1≤cursor
          · rw [Nat.max_eq_left hpast]
            exact h.behind
          · rw [Nat.max_eq_right (by omega)]
            exact Or.inr ((hahead t.stop (by omega) (by omega)).mpr
              (mem_union_cons.mpr (Or.inl ⟨ht,Nat.le_refl _⟩)))
        refine ih hnext ?_ hne' hrest hcut
        intro x hx hx'
        have hpast := Nat.max_le.mp hx
        rw [hahead x hpast.1 hx',mem_union_cons,or_iff_right (by omega)]
    · rw [if_neg hstart]
      refine h.finish hwell (fun x hx hx' hmem => ?_) hbest
      rcases mem_union_cons.mp ((hahead x hx hx').mp hmem) with hin | hin
      · omega
      · obtain ⟨u,hu,hul,-⟩ := mem_union.mp hin
        have hlater := hfirst u hu
        omega

theorem mem_union_dropWhile {x bound : Nat} (hx : bound≤x) :
    x∈union (ahead.dropWhile fun t => decide (t.stop<bound)) ↔ x∈union ahead := by
  induction ahead with
  | nil => exact Iff.rfl
  | cons t ahead ih =>
    rw [List.dropWhile_cons,mem_union_cons]
    split_ifs with hbehind
    · rw [ih,or_iff_right (by have := of_decide_eq_true hbehind; omega)]
    · rw [mem_union_cons]

/-- The gaps from `bound` on; `ahead` is what is taken there. -/
theorem sweep_bestBelow {rest : List Interval} (hwell : WellFormed fileSize gaps)
    (hrest : ∃ done, gaps=done++rest ∧ ∀ g∈done,g.stop<bound)
    (hlow : ∀ g∈rest,bound≤g.start)
    (hahead : ∀ x,bound≤x → (x∈union taken ↔ x∈union ahead))
    (hne : ∀ t∈ahead,t.start≤t.stop) (hsorted : ahead.Pairwise fun a b => a.start≤b.start)
    (hbest : BestBelow gaps taken bound best) (hsize : bound≤fileSize) :
    BestBelow gaps taken fileSize (sweep ahead best rest) := by
  induction rest generalizing ahead best bound with
  | nil =>
    obtain ⟨done,hdone,hstops⟩ := hrest
    refine hbest.mono hsize fun j hj hge => ?_
    obtain ⟨g,hg,-,hg2⟩ := hj.inGap
    rw [hdone,List.append_nil] at hg
    have hlt := hstops g hg
    omega
  | cons gap rest ih =>
    obtain ⟨done,hdone,hstops⟩ := hrest
    have hgap : gap∈gaps := by
      rw [hdone]
      exact List.mem_append_right _ List.mem_cons_self
    have hinside := hwell.inside gap hgap
    have hgl := hlow gap List.mem_cons_self
    have hasc : (done++gap::rest).Pairwise fun a b => a.stop<b.start := by
      rw [← hdone]
      exact hwell.ascending
    have hafter : ∀ g∈rest,gap.stop+1≤g.start :=
      (List.pairwise_cons.mp (List.pairwise_append.mp hasc).2.1).1
    have hsub := @List.dropWhile_sublist _ ahead fun t => decide (t.stop<gap.start)
    have hcursor : AtCursor gaps taken gap gap.start :=
      ⟨hgap,Nat.le_refl _,hinside.1,Or.inl rfl⟩
    -- no stretch ends between two gaps
    have hbest' : BestBelow gaps taken gap.start best := by
      refine hbest.mono hgl fun j hj hge => ?_
      obtain ⟨g,hg,hg1,hg2⟩ := hj.inGap
      have hjne := hj.nonempty
      rw [hdone] at hg
      rcases List.mem_append.mp hg with hold | hnew
      · have hlt := hstops g hold
        omega
      · rcases List.mem_cons.mp hnew with rfl | hnew
        · omega
        · have hlt := hafter g hnew
          omega
    have hahead' : ∀ x,gap.start≤x → (x∈union taken ↔
        x∈union (ahead.dropWhile fun t => decide (t.stop<gap.start))) := by
      intro x hx
      rw [hahead x (Nat.le_trans hgl hx),mem_union_dropWhile hx]
    have hne' : ∀ t∈ahead.dropWhile fun t => decide (t.stop<gap.start), t.start≤t.stop :=
      fun t ht => hne t (hsub.subset ht)
    have hgapDone := hcursor.sweepGap hwell (fun x hx _ => hahead' x hx) hne'
      (hsorted.sublist hsub) hbest'
    refine ih ⟨done++[gap],by rw [hdone]; simp,?_⟩ hafter
      (fun x hx => hahead' x (by omega)) hne' (hsorted.sublist hsub) hgapDone hinside.2
    intro g hg
    rcases List.mem_append.mp hg with hold | hnew
    · have hlt := hstops g hold
      omega
    · rw [List.mem_singleton.mp hnew]
      exact Nat.lt_succ_self _

theorem sweep_finds {sorted : List Interval} (hwell : WellFormed fileSize gaps)
    (hperm : sorted.Perm taken) (hne : ∀ t∈taken,t.start≤t.stop)
    (hsorted : sorted.Pairwise fun a b => a.start≤b.start) :
    ((sweep sorted Best.none gaps).len=0 ∧ ∀ j,¬Stretch gaps taken j) ∨
      (FirstLongest gaps taken ⟨(sweep sorted Best.none gaps).start,
          (sweep sorted Best.none gaps).stop⟩ ∧
        (sweep sorted Best.none gaps).len =
          (sweep sorted Best.none gaps).stop-(sweep sorted Best.none gaps).start+1) := by
  have hbest : BestBelow gaps taken fileSize (sweep sorted Best.none gaps) :=
    sweep_bestBelow hwell ⟨[],rfl,fun g hg => absurd hg List.not_mem_nil⟩
      (fun g _ => Nat.zero_le g.start) (fun x _ => (mem_union_perm hperm).symm)
      (fun t ht => hne t (hperm.mem_iff.mp ht)) hsorted BestBelow.none (Nat.zero_le _)
  have hend : ∀ j,Stretch gaps taken j → j.stop<fileSize := by
    intro j hj
    obtain ⟨g,hg,-,hg2⟩ := hj.inGap
    exact Nat.lt_of_le_of_lt hg2 (hwell.inside g hg).2
  rcases hbest.found with hnone | ⟨hstretch,-,hlen⟩
  · refine Or.inl ⟨hnone,fun j hj => ?_⟩
    have hlong := hbest.longest j hj (hend j hj)
    omega
  · refine Or.inr ⟨⟨hstretch,fun j hj => ?_,fun j hj hbefore => ?_⟩,hlen⟩
    · have hlong := hbest.longest j hj (hend j hj)
      simp only
      omega
    · have hshort := hbest.first j hj (hend j hj) hbefore
      simp only
      omega

end Sweep

end EmuleQt.Files
