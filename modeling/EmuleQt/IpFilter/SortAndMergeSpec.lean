import EmuleQt.IpFilter.SortAndMerge
import Mathlib.Data.List.TakeWhile

namespace EmuleQt.IpFilter

open RangeKey

variable {κ : Type} {cuts : List κ} {start stop k : κ} {l : UInt32}
  {entries waiting active merged : List (IPFilterEntry κ)} {e top : IPFilterEntry κ}

theorem mem_push {x : IPFilterEntry κ} : x∈push e active ↔ x=e ∨ x∈active := by
  induction active with
  | nil => simp [push]
  | cons top active ih =>
    rw [push]
    split_ifs
    · exact List.mem_cons
    · rw [List.mem_cons,ih,List.mem_cons]
      exact or_left_comm

theorem push_sorted (h : active.Pairwise fun a b => a.level≤b.level) :
    (push e active).Pairwise fun a b => a.level≤b.level := by
  induction active with
  | nil => exact List.pairwise_singleton _ _
  | cons top active ih =>
    obtain ⟨htop,hactive⟩ := List.pairwise_cons.mp h
    rw [push]
    split_ifs with hlt
    · refine List.pairwise_cons.mpr ⟨fun x hx => ?_,h⟩
      rcases List.mem_cons.mp hx with rfl | hx
      · exact le_of_lt hlt
      · exact (le_of_lt hlt).trans (htop x hx)
    · refine List.pairwise_cons.mpr ⟨fun x hx => ?_,ih hactive⟩
      rcases mem_push.mp hx with rfl | hx
      · exact not_lt.mp hlt
      · exact htop x hx

variable [RangeKey κ]

/-- A key that the sweep has passed when these cuts are left. -/
def Before (cuts : List κ) (k : κ) : Prop := ∀ c ∈ cuts, k < c

theorem Before.mono {k' : κ} (h : Before cuts k) (hk : k'≤k) : Before cuts k' :=
  fun c hc => lt_of_le_of_lt hk (h c hc)

theorem before_cons : Before (start::cuts) k ↔ k<start ∧ Before cuts k :=
  List.forall_mem_cons

theorem before_of_lt {next : κ} (h : (next::cuts).Pairwise (· < ·)) (hk : k<next) :
    Before (next::cuts) k :=
  before_cons.mpr ⟨hk,fun c hc => hk.trans ((List.pairwise_cons.mp h).1 c hc)⟩

theorem pushStarting_spec (hwaiting : waiting.Pairwise fun a b => a.start≤b.start)
    (hstart : ∀ e∈waiting,start≤e.start)
    (hactive : active.Pairwise fun a b => a.level≤b.level) :
    let r := pushStarting start waiting active
    r.1.Pairwise (fun a b => a.start≤b.start) ∧
      (∀ e,e∈r.1 ↔ e∈waiting ∧ start<e.start) ∧
      r.2.Pairwise (fun a b => a.level≤b.level) ∧
      ∀ e,e∈r.2 ↔ e∈active ∨ e∈waiting ∧ e.start=start := by
  induction waiting generalizing active with
  | nil => exact ⟨List.Pairwise.nil,by simp [pushStarting],hactive,by simp [pushStarting]⟩
  | cons e waiting ih =>
    obtain ⟨hfirst,hrest⟩ := List.pairwise_cons.mp hwaiting
    obtain ⟨hle,hle'⟩ := List.forall_mem_cons.mp hstart
    rw [pushStarting]
    split_ifs with hnow
    · obtain ⟨hsorted,hlater,hlevels,hpushed⟩ := ih hrest hle' (push_sorted hactive)
      refine ⟨hsorted,fun x => ?_,hlevels,fun x => ?_⟩
      · rw [hlater,List.mem_cons,or_and_right]
        refine (or_iff_right ?_).symm
        rintro ⟨rfl,hlt⟩
        exact lt_irrefl _ (hnow ▸ hlt)
      · rw [hpushed,mem_push,List.mem_cons,or_and_right,or_comm (a := x=e),or_assoc]
        refine or_congr_right (or_congr_left ⟨fun h => ⟨h,h ▸ hnow⟩,And.left⟩)
    · have hlt : start<e.start := lt_of_le_of_ne hle (Ne.symm hnow)
      have hall : ∀ x∈e::waiting, start<x.start := by
        intro x hx
        rcases List.mem_cons.mp hx with rfl | hx
        · exact hlt
        · exact hlt.trans_le (hfirst x hx)
      refine ⟨hwaiting,fun x => (and_iff_left_of_imp (hall x)).symm,hactive,fun x => ?_⟩
      refine (or_iff_left ?_).symm
      rintro ⟨hx,heq⟩
      exact ne_of_gt (hall x hx) heq

/-- The state of the sweep over `entries` when `cuts` are left. -/
structure SweepOk (entries : List (IPFilterEntry κ)) (cuts : List κ)
    (waiting active merged : List (IPFilterEntry κ)) : Prop where
  cutsSorted : cuts.Pairwise (· < ·)
  starts : ∀ e∈entries, Before cuts e.start ∨ e.start∈cuts
  ends : ∀ e∈entries, keyIsMax e.stop=false →
    Before cuts (keyNext e.stop) ∨ keyNext e.stop∈cuts
  waitingSorted : waiting.Pairwise fun a b => a.start≤b.start
  waitingMem : ∀ e, e∈waiting ↔ e∈entries ∧ ¬ Before cuts e.start
  activeSorted : active.Pairwise fun a b => a.level≤b.level
  activeMem : ∀ e∈active, e∈entries ∧ Before cuts e.start
  started : ∀ e∈entries, Before cuts e.start → e∈active ∨ Before cuts e.stop
  mergedSorted : merged.Pairwise fun a b => b.start<a.start ∧ b.stop<a.start
  mergedMem : ∀ m∈merged, m.start ≤ m.stop ∧ Before cuts m.stop
  strictest : ∀ k, Before cuts k → ∀ l, l∈levelsAt merged k ↔ IsLeast (levelsAt entries k) l

theorem mem_levelsAt : l∈levelsAt entries k ↔ ∃ e∈entries, e.covers k ∧ e.level=l := Iff.rfl

theorem mem_levelsAt_cons : l∈levelsAt (e::entries) k ↔
    (e.covers k ∧ e.level=l) ∨ l∈levelsAt entries k := by
  simp only [mem_levelsAt,List.mem_cons,exists_eq_or_imp]

/-- A piece after the last one is covered with its level. -/
theorem extend_spec (top : IPFilterEntry κ) (hle : start ≤ stop)
    (hsorted : merged.Pairwise fun a b => b.start<a.start ∧ b.stop<a.start)
    (hmerged : ∀ m∈merged,m.start ≤ m.stop ∧ m.stop<start) :
    let merged' := extend start stop top merged
    merged'.Pairwise (fun a b => b.start<a.start ∧ b.stop<a.start) ∧
      (∀ m∈merged',m.start ≤ m.stop ∧ m.stop ≤ stop) ∧
      ∀ k l,l∈levelsAt merged' k ↔
        l∈levelsAt merged k ∨ (start≤k ∧ k ≤ stop) ∧ top.level=l := by
  have hpiece : ∀ hits : UInt32,
      let merged' := ⟨start,stop,top.level,hits,top.desc⟩::merged
      merged'.Pairwise (fun a b => b.start<a.start ∧ b.stop<a.start) ∧
        (∀ m∈merged',m.start ≤ m.stop ∧ m.stop ≤ stop) ∧
        ∀ k l,l∈levelsAt merged' k ↔
          l∈levelsAt merged k ∨ (start≤k ∧ k ≤ stop) ∧ top.level=l := by
    intro hits
    refine ⟨List.pairwise_cons.mpr ⟨fun m hm => ?_,hsorted⟩,fun m hm => ?_,fun k l => ?_⟩
    · exact ⟨(hmerged m hm).1.trans_lt (hmerged m hm).2,(hmerged m hm).2⟩
    · rcases List.mem_cons.mp hm with rfl | hm
      · exact ⟨hle,le_refl _⟩
      · exact ⟨(hmerged m hm).1,((hmerged m hm).2.trans_le hle).le⟩
    · rw [mem_levelsAt_cons]
      exact or_comm
  unfold extend
  cases merged with
  | nil => exact hpiece _
  | cons back rest =>
    dsimp only
    by_cases hjoin : back.level=top.level ∧ keyIsMax back.stop=false ∧
        keyNext back.stop=start
    · rw [if_pos hjoin]
      obtain ⟨hlevel,hmax,hnext⟩ := hjoin
      obtain ⟨hback,hrest⟩ := List.forall_mem_cons.mp hmerged
      obtain ⟨hfirst,hsorted'⟩ := List.pairwise_cons.mp hsorted
      refine ⟨List.pairwise_cons.mpr ⟨hfirst,hsorted'⟩,fun m hm => ?_,fun k l => ?_⟩
      · rcases List.mem_cons.mp hm with rfl | hm
        · exact ⟨hback.1.trans (hback.2.le.trans hle),le_refl _⟩
        · exact ⟨(hrest m hm).1,((hrest m hm).2.trans_le hle).le⟩
      · -- the piece begins where the last range has ended
        have htouch : k≤back.stop ↔ k<start := by rw [← hnext,lt_keyNext hmax]
        have hcovers : back.start≤k ∧ k ≤ stop ↔
            (back.start≤k ∧ k≤back.stop) ∨ start≤k ∧ k ≤ stop := by
          rw [htouch]
          constructor
          · rintro ⟨hk,hk'⟩
            exact (lt_or_ge k start).imp (fun h => ⟨hk,h⟩) fun h => ⟨h,hk'⟩
          · rintro (⟨hk,hk'⟩ | ⟨hk,hk'⟩)
            · exact ⟨hk,(hk'.trans_le hle).le⟩
            · exact ⟨hback.1.trans (hback.2.le.trans hk),hk'⟩
        rw [mem_levelsAt_cons,mem_levelsAt_cons,IPFilterEntry.covers,IPFilterEntry.covers,
          hcovers,hlevel,or_and_right]
        exact or_right_comm
    · rw [if_neg hjoin]
      exact hpiece _

section Step

variable (h : SweepOk entries (start::cuts) waiting active merged)

include h

theorem SweepOk.covers_iff (he : e∈entries) (hk : start≤k) (hbefore : Before cuts k) :
    e.covers k ↔ e.covers start := by
  constructor
  · rintro ⟨hlow,hhigh⟩
    refine ⟨?_,hk.trans hhigh⟩
    rcases h.starts e he with hpassed | hcut
    · exact (before_cons.mp hpassed).1.le
    · rcases List.mem_cons.mp hcut with heq | hcut
      · exact heq.le
      · exact absurd (hbefore _ hcut) (not_lt.mpr hlow)
  · rintro ⟨hlow,hhigh⟩
    refine ⟨hlow.trans hk,?_⟩
    cases hmax : keyIsMax e.stop with
    | true => exact keyIsMax_iff.mp hmax k
    | false =>
      have hafter : start<keyNext e.stop := (lt_keyNext hmax).mpr hhigh
      rcases h.ends e he hmax with hpassed | hcut
      · exact absurd (before_cons.mp hpassed).1 (not_lt.mpr hafter.le)
      · rcases List.mem_cons.mp hcut with heq | hcut
        · exact absurd heq hafter.ne'
        · exact (lt_keyNext hmax).mp (hbefore _ hcut)

theorem SweepOk.levelsAt_eq (hk : start≤k) (hbefore : Before cuts k) :
    levelsAt entries k=levelsAt entries start :=
  Set.ext fun _ => exists_congr fun _ => and_congr_right fun he =>
    and_congr_left' (h.covers_iff he hk hbefore)

/-- The heap after the ranges that start here have come and those on top that ended have gone. -/
theorem SweepOk.heap :
    let r := pushStarting start waiting active
    let heap := r.2.dropWhile fun e => decide (e.stop<start)
    (r.1.Pairwise fun a b => a.start≤b.start) ∧
      (∀ e,e∈r.1 ↔ e∈entries ∧ ¬ Before cuts e.start) ∧
      (heap.Pairwise fun a b => a.level≤b.level) ∧
      (∀ e∈heap,e∈entries ∧ e.start ≤ start) ∧
      (∀ e∈entries,Before cuts e.start → e∈heap ∨ e.stop<start) := by
  intro r heap
  have hahead : ∀ e∈waiting,start≤e.start := by
    intro e he
    obtain ⟨hmem,hnot⟩ := (h.waitingMem e).mp he
    rcases h.starts e hmem with hpassed | hcut
    · exact absurd hpassed hnot
    · rcases List.mem_cons.mp hcut with heq | hcut
      · exact heq.ge
      · exact ((List.pairwise_cons.mp h.cutsSorted).1 _ hcut).le
  obtain ⟨hsorted,hlater,hlevels,hpushed⟩ :=
    pushStarting_spec h.waitingSorted hahead h.activeSorted
  have hsub : heap.Sublist r.2 := List.dropWhile_sublist _
  -- a range starts before the next cut if it starts at this one or before
  have hbefore : ∀ e∈entries,Before cuts e.start ↔ e.start ≤ start := by
    intro e he
    constructor
    · intro hb
      rcases h.starts e he with hpassed | hcut
      · exact (before_cons.mp hpassed).1.le
      · rcases List.mem_cons.mp hcut with heq | hcut
        · exact heq.le
        · exact absurd (hb _ hcut) (lt_irrefl _)
    · exact fun hle c hc => hle.trans_lt ((List.pairwise_cons.mp h.cutsSorted).1 c hc)
  refine ⟨hsorted,fun e => ?_,hlevels.sublist hsub,fun e he => ?_,fun e he hb => ?_⟩
  · rw [hlater,h.waitingMem,and_assoc]
    refine and_congr_right fun he => ?_
    rw [hbefore e he,not_le]
    exact and_iff_right_of_imp fun hlt hb => absurd (before_cons.mp hb).1 (not_lt.mpr hlt.le)
  · rcases (hpushed e).mp (hsub.subset he) with hold | ⟨hnew,heq⟩
    · obtain ⟨hmem,hpassed⟩ := h.activeMem e hold
      exact ⟨hmem,(before_cons.mp hpassed).1.le⟩
    · exact ⟨((h.waitingMem e).mp hnew).1,heq.le⟩
  · have hin : e∈r.2 ∨ e.stop<start := by
      by_cases hpassed : Before (start::cuts) e.start
      · exact (h.started e he hpassed).imp (fun ha => (hpushed e).mpr (Or.inl ha))
          fun hended => (before_cons.mp hended).1
      · refine Or.inl ((hpushed e).mpr (Or.inr ⟨(h.waitingMem e).mpr ⟨he,hpassed⟩,?_⟩))
        refine le_antisymm ((hbefore e he).mp hb) (hahead e ((h.waitingMem e).mpr ⟨he,hpassed⟩))
    rcases hin with hin | hended
    · rw [← List.takeWhile_append_dropWhile (p := fun e => decide (e.stop<start)) (l := r.2)]
        at hin
      rcases List.mem_append.mp hin with hgone | hstays
      · have hended := List.mem_takeWhile_imp hgone
        exact Or.inr (by simpa using hended)
      · exact Or.inl hstays
    · exact Or.inr hended

theorem SweepOk.after (hk : k ≤ start) : Before cuts k := fun c hc =>
  hk.trans_lt ((List.pairwise_cons.mp h.cutsSorted).1 c hc)

theorem SweepOk.next {waiting' heap merged' : List (IPFilterEntry κ)}
    (hsorted : waiting'.Pairwise fun a b => a.start≤b.start)
    (hwaiting : ∀ e,e∈waiting' ↔ e∈entries ∧ ¬ Before cuts e.start)
    (hlevels : heap.Pairwise fun a b => a.level≤b.level)
    (hheap : ∀ e∈heap,e∈entries ∧ e.start ≤ start)
    (hstarted : ∀ e∈entries,Before cuts e.start → e∈heap ∨ e.stop<start)
    (hmerged : merged'.Pairwise fun a b => b.start<a.start ∧ b.stop<a.start)
    (hmem : ∀ m∈merged',m.start ≤ m.stop ∧ Before cuts m.stop)
    (hold : ∀ k,k<start → ∀ l,l∈levelsAt merged' k ↔ l∈levelsAt merged k)
    (hpiece : ∀ k,start≤k → Before cuts k → ∀ l,
      l∈levelsAt merged' k ↔ IsLeast (levelsAt entries start) l) :
    SweepOk entries cuts waiting' heap merged' where
  cutsSorted := (List.pairwise_cons.mp h.cutsSorted).2
  starts e he := by
    rcases h.starts e he with hpassed | hcut
    · exact Or.inl (before_cons.mp hpassed).2
    · rcases List.mem_cons.mp hcut with heq | hcut
      · exact Or.inl (h.after heq.le)
      · exact Or.inr hcut
  ends e he hmax := by
    rcases h.ends e he hmax with hpassed | hcut
    · exact Or.inl (before_cons.mp hpassed).2
    · rcases List.mem_cons.mp hcut with heq | hcut
      · exact Or.inl (h.after heq.le)
      · exact Or.inr hcut
  waitingSorted := hsorted
  waitingMem := hwaiting
  activeSorted := hlevels
  activeMem e he := ⟨(hheap e he).1,h.after (hheap e he).2⟩
  started e he hb := (hstarted e he hb).imp_right fun hended => h.after hended.le
  mergedSorted := hmerged
  mergedMem := hmem
  strictest k hk l := by
    rcases lt_or_ge k start with hlt | hge
    · rw [hold k hlt]
      exact h.strictest k (before_cons.mpr ⟨hlt,hk⟩) l
    · rw [hpiece k hge hk,h.levelsAt_eq hge hk]

theorem SweepOk.levelsAt_merged (hk : start≤k) : l∉levelsAt merged k := by
  rintro ⟨m,hm,hcovers,-⟩
  exact absurd (before_cons.mp (h.mergedMem m hm).2).1 (not_lt.mpr (hk.trans hcovers.2))

theorem SweepOk.isLeast_top {rest : List (IPFilterEntry κ)}
    (hlevels : (top::rest).Pairwise fun a b => a.level≤b.level)
    (hheap : ∀ e∈top::rest, e∈entries ∧ e.start ≤ start) (htop : start≤top.stop)
    (hstarted : ∀ e∈entries,Before cuts e.start → e∈top::rest ∨ e.stop<start) :
    IsLeast (levelsAt entries start) top.level := by
  obtain ⟨hmem,hle⟩ := hheap top List.mem_cons_self
  refine ⟨⟨top,hmem,⟨hle,htop⟩,rfl⟩,?_⟩
  rintro _ ⟨e,he,hcovers,rfl⟩
  rcases hstarted e he (h.after hcovers.1) with hin | hended
  · rcases List.mem_cons.mp hin with rfl | hin
    · exact le_refl _
    · exact (List.pairwise_cons.mp hlevels).1 e hin
  · exact absurd hended (not_lt.mpr hcovers.2)

theorem SweepOk.piece_stop (htop : top∈entries) (hcovers : top.covers start) :
    start≤pieceStop cuts top ∧ Before cuts (pieceStop cuts top) ∧
      ∀ k,Before cuts k → k≤pieceStop cuts top := by
  cases cuts with
  | nil =>
    refine ⟨hcovers.2,by simp [Before],fun k _ => ?_⟩
    cases hmax : keyIsMax top.stop with
    | true => exact keyIsMax_iff.mp hmax k
    | false =>
      have hafter : start<keyNext top.stop := (lt_keyNext hmax).mpr hcovers.2
      rcases h.ends top htop hmax with hpassed | hcut
      · exact absurd (before_cons.mp hpassed).1 (not_lt.mpr hafter.le)
      · exact absurd (List.mem_singleton.mp hcut) hafter.ne'
  | cons next later =>
    obtain ⟨hstart,hsorted⟩ := List.pairwise_cons.mp h.cutsSorted
    have hlt := hstart next List.mem_cons_self
    refine ⟨(le_keyPrev hlt).mpr hlt,before_of_lt hsorted ((le_keyPrev hlt).mp (le_refl _)),
      fun k hk => (le_keyPrev hlt).mpr (hk next List.mem_cons_self)⟩

end Step

theorem sweepCuts_spec (h : SweepOk entries cuts waiting active merged) :
    let merged := sweepCuts cuts waiting active merged
    merged.Pairwise (fun a b => b.start<a.start ∧ b.stop<a.start) ∧
      (∀ m∈merged,m.start ≤ m.stop) ∧ Strictest entries merged := by
  induction cuts generalizing waiting active merged with
  | nil =>
    exact ⟨h.mergedSorted,fun m hm => (h.mergedMem m hm).1,fun k => h.strictest k (by simp [Before])⟩
  | cons start cuts ih =>
    obtain ⟨hsorted,hwaiting,hlevels,hheap,hstarted⟩ := h.heap
    have htop := List.head?_dropWhile_not (fun e => decide (e.stop<start))
      (pushStarting start waiting active).2
    rw [sweepCuts]
    generalize pushStarting start waiting active=r at *
    dsimp only at *
    generalize r.2.dropWhile (fun e => decide (e.stop<start))=heap at *
    cases heap with
    | nil =>
      refine ih (h.next hsorted hwaiting hlevels hheap hstarted h.mergedSorted
        (fun m hm => ⟨(h.mergedMem m hm).1,(before_cons.mp (h.mergedMem m hm).2).2⟩)
        (fun _ _ _ => Iff.rfl) fun k hk _ l => ?_)
      refine iff_of_false (h.levelsAt_merged hk) ?_
      rintro ⟨⟨e,he,hcovers,-⟩,-⟩
      rcases hstarted e he (h.after hcovers.1) with hin | hended
      · cases hin
      · exact absurd hended (not_lt.mpr hcovers.2)
    | cons top rest =>
      have hend : start≤top.stop := by simpa using htop
      obtain ⟨hmem,hle⟩ := hheap top List.mem_cons_self
      have hleast := h.isLeast_top hlevels hheap hend hstarted
      obtain ⟨hlow,hbefore,hhigh⟩ := h.piece_stop hmem ⟨hle,hend⟩
      obtain ⟨hmerged,hends,hcover⟩ := extend_spec top hlow h.mergedSorted fun m hm =>
        ⟨(h.mergedMem m hm).1,(before_cons.mp (h.mergedMem m hm).2).1⟩
      refine ih (h.next hsorted hwaiting hlevels hheap hstarted hmerged
        (fun m hm => ⟨(hends m hm).1,hbefore.mono (hends m hm).2⟩) (fun k hk l => ?_)
        fun k hk hkb l => ?_)
      · rw [hcover]
        exact or_iff_left fun hpiece => absurd hpiece.1.1 (not_le.mpr hk)
      · rw [hcover,or_iff_right (h.levelsAt_merged hk),and_iff_right ⟨hk,hhigh k hkb⟩]
        exact ⟨fun heq => heq ▸ hleast,fun hl => hleast.unique hl⟩

theorem mem_unique {x : κ} {xs : List κ} : x∈unique xs ↔ x∈xs := by
  induction xs using unique.induct with
  | case1 => rfl
  | case2 => rfl
  | case3 y l ih =>
    rw [unique,if_pos rfl,ih]
    simp
  | case4 y z l hne ih => rw [unique,if_neg hne,List.mem_cons,ih,List.mem_cons (a := x) (b := y)]

theorem unique_sorted {xs : List κ} (h : xs.Pairwise (· ≤ ·)) : (unique xs).Pairwise (· < ·) := by
  induction xs using unique.induct with
  | case1 => exact List.Pairwise.nil
  | case2 x => exact List.pairwise_singleton _ x
  | case3 y l ih =>
    rw [unique,if_pos rfl]
    exact ih (List.pairwise_cons.mp h).2
  | case4 y z l hne ih =>
    obtain ⟨hle,hrest⟩ := List.pairwise_cons.mp h
    rw [unique,if_neg hne]
    refine List.pairwise_cons.mpr ⟨fun x hx => ?_,ih hrest⟩
    have hyz : y<z := lt_of_le_of_ne (hle z List.mem_cons_self) hne
    rcases List.mem_cons.mp (mem_unique.mp hx) with rfl | hx
    · exact hyz
    · exact hyz.trans_le ((List.pairwise_cons.mp hrest).1 x hx)

theorem precedes_iff (a b : IPFilterEntry κ) : a.precedes b=true ↔
    toLex (a.start, toLex (a.stop, a.level))<toLex (b.start, toLex (b.stop, b.level)) := by
  rw [Prod.Lex.toLex_lt_toLex,Prod.Lex.toLex_lt_toLex]
  unfold IPFilterEntry.precedes
  split_ifs with hstart hstop
  · simp [hstart]
  · rw [decide_eq_true_eq,not_not.mp hstart]
    simp [hstop]
  · rw [decide_eq_true_eq,not_not.mp hstart,not_not.mp hstop]
    simp

theorem sorted_starts (es : List (IPFilterEntry κ)) :
    (es.mergeSort fun a b => !b.precedes a).Pairwise fun a b => a.start≤b.start := by
  have hle : ∀ a b : IPFilterEntry κ, (!b.precedes a)=true ↔
      toLex (a.start, toLex (a.stop, a.level))≤toLex (b.start, toLex (b.stop, b.level)) := by
    intro a b
    rw [Bool.not_eq_true',Bool.eq_false_iff,ne_eq,precedes_iff,not_lt]
  have hsorted := @List.pairwise_mergeSort _ (fun a b : IPFilterEntry κ => !b.precedes a)
    (fun a b c hab hbc => (hle a c).mpr (((hle a b).mp hab).trans ((hle b c).mp hbc)))
    (fun a b => by
      rw [Bool.or_eq_true,hle,hle]
      exact le_total _ _) es
  refine hsorted.imp fun {a b} hab => ?_
  rcases Prod.Lex.toLex_le_toLex.mp ((hle a b).mp hab) with hlt | ⟨heq,-⟩
  · exact hlt.le
  · exact heq.le

theorem sweepOk_init (hsorted : entries.Pairwise fun a b => a.start≤b.start) :
    SweepOk entries (unique ((cutsOf entries).mergeSort fun a b => decide (a≤b)))
      entries [] [] := by
  have hcuts : ∀ x,x∈unique ((cutsOf entries).mergeSort fun a b => decide (a≤b)) ↔
      x∈cutsOf entries := fun x => mem_unique.trans List.mem_mergeSort
  have hstart : ∀ e∈entries,e.start∈cutsOf entries := fun e he =>
    List.mem_flatMap.mpr ⟨e,he,List.mem_cons_self⟩
  have hnot : ∀ e∈entries,∀ k,e.start≤k →
      ¬ Before (unique ((cutsOf entries).mergeSort fun a b => decide (a≤b))) k :=
    fun e he k hk hb => absurd (hb _ ((hcuts _).mpr (hstart e he))) (not_lt.mpr hk)
  refine ⟨unique_sorted ?_,fun e he => Or.inr ((hcuts _).mpr (hstart e he)),
    fun e he hmax => Or.inr ((hcuts _).mpr ?_),hsorted,
    fun e => (and_iff_left_of_imp fun he => hnot e he _ (le_refl _)).symm,List.Pairwise.nil,
    by simp,fun e he hb => absurd hb (hnot e he _ (le_refl _)),List.Pairwise.nil,by simp,
    fun k hk l => iff_of_false (by simp [mem_levelsAt]) ?_⟩
  · have hsort := @List.pairwise_mergeSort _ (fun a b : κ => decide (a≤b))
      (fun a b c hab hbc => by
        rw [decide_eq_true_eq] at hab hbc ⊢
        exact hab.trans hbc)
      (fun a b => by
        rw [Bool.or_eq_true,decide_eq_true_eq,decide_eq_true_eq]
        exact le_total a b) (cutsOf entries)
    exact hsort.imp of_decide_eq_true
  · refine List.mem_flatMap.mpr ⟨e,he,?_⟩
    rw [hmax]
    exact List.mem_cons_of_mem _ List.mem_cons_self
  · rintro ⟨⟨e,he,hcovers,-⟩,-⟩
    exact hnot e he k hcovers.1 hk

theorem levelsAt_congr {es es' : List (IPFilterEntry κ)}
    (h : ∀ e,e.start≤e.stop → (e∈es ↔ e∈es')) (k : κ) : levelsAt es k=levelsAt es' k := by
  refine Set.ext fun l => exists_congr fun e => ?_
  constructor
  · rintro ⟨he,hcovers,hl⟩
    exact ⟨(h e (hcovers.1.trans hcovers.2)).mp he,hcovers,hl⟩
  · rintro ⟨he,hcovers,hl⟩
    exact ⟨(h e (hcovers.1.trans hcovers.2)).mpr he,hcovers,hl⟩

theorem sortAndMergeRanges_spec (entries : List (IPFilterEntry κ)) (modified : Bool) :
    Disjoint (sortAndMergeRanges entries modified).1 ∧
      Strictest entries (sortAndMergeRanges entries modified).1 := by
  unfold sortAndMergeRanges
  by_cases hfew : entries.length<2
  · rw [if_pos hfew]
    have hone : entries=[] ∨ ∃ e, entries=[e] := by
      rcases entries with _ | ⟨e,_ | ⟨e',es⟩⟩
      · exact Or.inl rfl
      · exact Or.inr ⟨e,rfl⟩
      · simp only [List.length_cons] at hfew
        omega
    rcases hone with rfl | ⟨e,rfl⟩
    · exact ⟨List.Pairwise.nil,fun k l => iff_of_false (by simp [mem_levelsAt])
        (by simp [levelsAt,IsLeast])⟩
    · refine ⟨List.pairwise_singleton _ _,fun k l => ⟨fun hl => ⟨hl,?_⟩,fun hl => hl.1⟩⟩
      obtain ⟨e',he',-,rfl⟩ := hl
      rintro _ ⟨e'',he'',-,rfl⟩
      rw [List.mem_singleton.mp he',List.mem_singleton.mp he'']
  · rw [if_neg hfew]
    dsimp only
    generalize hsort : (entries.filter fun e => !decide (e.stop<e.start)).mergeSort
      (fun a b => !b.precedes a)=sorted
    have hsorted : sorted.Pairwise fun a b => a.start≤b.start := hsort ▸ sorted_starts _
    have hmem : ∀ e,e.start≤e.stop → (e∈sorted ↔ e∈entries) := by
      intro e he
      rw [← hsort,List.mem_mergeSort,List.mem_filter]
      exact and_iff_left_of_imp fun _ => by simpa using he
    obtain ⟨hmerged,-,hstrictest⟩ := sweepCuts_spec (sweepOk_init hsorted)
    refine ⟨List.pairwise_reverse.mpr hmerged,fun k l => ?_⟩
    rw [← levelsAt_congr hmem k,← hstrictest k l,mem_levelsAt,mem_levelsAt]
    simp only [List.mem_reverse]

end EmuleQt.IpFilter
