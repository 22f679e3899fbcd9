import Mathlib.Algebra.Order.BigOperators.Ring.Finset
import Mathlib.Order.Interval.Finset.Nat

namespace EmuleQt.Math

open Finset

/-- The blocks of a file of some bytes. -/
def blockCount (size width : Nat) : Nat := (size + width - 1) / width

/-- The bytes of a block; the last one may be short. -/
def blockBytes (size width b : Nat) : Nat := min width (size-b*width)

def weigh (size width : Nat) (blocks : Finset Nat) : Nat := ∑ b∈blocks, blockBytes size width b

def lastBlock (size width : Nat) : Nat := blockCount size width-1

/-- What is left of a file for its last block. -/
def lastBytes (size width : Nat) : Nat := blockBytes size width (lastBlock size width)

/-- How many blocks some copies of a file can hold between them, from the bytes of each: what
fits of whole blocks, and the short one if a remainder takes it. -/
def reach {ι : Type*} (size width : Nat) (copies : Finset ι) (bytes : ι → Nat) : Nat :=
  ∑ c ∈ copies, bytes c / width +
    if ∃ c ∈ copies, lastBytes size width ≤ bytes c % width then 1 else 0

variable {ι : Type*} {size width b n : Nat} {blocks : Finset Nat} {copies : Finset ι}
  {bytes : ι → Nat} {good : ι → Finset Nat}

theorem blockCount_pos (hwidth : 0<width) (hsize : 0<size) : 0<blockCount size width :=
  Nat.div_pos (by omega) hwidth

theorem blockBytes_le : blockBytes size width b≤width := Nat.min_le_left ..

/-- Every block but the last is whole. -/
theorem blockBytes_of_lt (hwidth : 0<width) (h : b+1<blockCount size width) :
    blockBytes size width b=width := by
  have hsize : (b+2)*width ≤ size+width-1 :=
    (Nat.le_div_iff_mul_le hwidth).mp h
  have hmul : (b+2)*width=b*width+2*width := by ring
  rw [blockBytes,Nat.min_eq_left]
  omega

theorem weigh_le (blocks : Finset Nat) : weigh size width blocks≤blocks.card*width :=
  sum_le_card_nsmul blocks _ width fun _ _ => blockBytes_le

theorem weigh_eq (hwidth : 0<width) (h : ∀ b∈blocks,b+1<blockCount size width) :
    weigh size width blocks=blocks.card*width := by
  rw [weigh,sum_congr rfl fun b hb => blockBytes_of_lt hwidth (h b hb),sum_const,nsmul_eq_mul,
    Nat.cast_id]

/-- What is not the last block takes whole blocks of bytes. -/
theorem card_erase_mul (hwidth : 0<width) (hblocks : blocks ⊆ range (blockCount size width)) :
    (blocks.erase (lastBlock size width)).card*width +
      (if lastBlock size width∈blocks then lastBytes size width else 0) =
        weigh size width blocks := by
  have hrest : ∀ b∈blocks.erase (lastBlock size width), b+1<blockCount size width := by
    intro b hb
    obtain ⟨hne,hmem⟩ := mem_erase.mp hb
    have hlt := mem_range.mp (hblocks hmem)
    unfold lastBlock at hne
    omega
  rw [← weigh_eq hwidth hrest]
  split_ifs with hlast
  · exact sum_erase_add blocks _ hlast
  · rw [erase_eq_of_notMem hlast,Nat.add_zero]

/-- What bytes that are short of a file leave over, in blocks. -/
theorem blockCount_sub (hwidth : 0<width) {held : Nat} (hheld : held<size) :
    blockCount size width -
        (held/width+if lastBytes size width≤held%width then 1 else 0) =
      (size-held+width-1)/width := by
  have hlow : blockCount size width*width ≤ size+width-1 := Nat.div_mul_le_self ..
  have hhigh : size+width-1<blockCount size width*width+width :=
    Nat.lt_div_mul_add hwidth
  have hsplit := Nat.div_add_mod' held width
  have hmod := Nat.mod_lt held hwidth
  have hlast : lastBytes size width=size+width-blockCount size width*width := by
    rw [lastBytes,blockBytes,lastBlock,Nat.sub_mul,Nat.one_mul]
    have := Nat.mul_le_mul_right width (blockCount_pos hwidth (Nat.zero_lt_of_lt hheld))
    omega
  have hfull : held/width<blockCount size width := by
    refine lt_of_mul_lt_mul_right ?_ (Nat.zero_le width)
    omega
  obtain ⟨k,hk⟩ := Nat.exists_eq_add_of_lt hfull
  have hmul : blockCount size width*width=held/width*width+k*width+width := by
    rw [hk]
    ring
  split_ifs with hfits
  · have hgoal : blockCount size width-(held/width+1)=k := by omega
    rw [hgoal]
    refine (Nat.div_eq_of_lt_le ?_ ?_).symm
    · omega
    · rw [Nat.succ_mul]
      omega
  · have hgoal : blockCount size width-(held/width+0)=k+1 := by omega
    rw [hgoal]
    refine (Nat.div_eq_of_lt_le ?_ ?_).symm
    · rw [Nat.succ_mul]
      omega
    · rw [Nat.succ_mul,Nat.succ_mul]
      omega

/-- A file in one copy that lacks a byte at least: what is short of it, in blocks. -/
theorem blockCount_sub_reach (hwidth : 0<width) (hsize : 0<size) (c : ι) (held : ι → Nat) :
    blockCount size width-reach size width {c} (fun c => min (held c) (size-1)) =
      max 1 ((size-held c+width-1)/width) := by
  have hreach : reach size width {c} (fun c => min (held c) (size-1)) =
      min (held c) (size-1)/width +
        if lastBytes size width ≤ min (held c) (size-1)%width then 1 else 0 := by
    simp [reach]
  rw [hreach,blockCount_sub hwidth (by omega)]
  by_cases hshort : held c<size
  · have hone : 1≤(size-held c+width-1)/width := Nat.div_pos (by omega) hwidth
    rw [Nat.min_eq_left (by omega),Nat.max_eq_right hone]
  · have hnone : (size-held c+width-1)/width=0 := Nat.div_eq_of_lt (by omega)
    have hbyte : (size-(size-1)+width-1)/width=1 := by
      rw [show size-(size-1)+width-1=width by omega]
      exact Nat.div_self hwidth
    rw [Nat.min_eq_right (by omega),hnone,hbyte]
    rfl

variable [DecidableEq ι]

/-- The copies hold no more blocks between them. -/
theorem card_biUnion_le_reach (hwidth : 0<width)
    (hgood : ∀ c∈copies,good c ⊆ range (blockCount size width))
    (hbytes : ∀ c∈copies,weigh size width (good c)≤bytes c) :
    (copies.biUnion good).card≤reach size width copies bytes := by
  have hrest : ∀ c∈copies,((good c).erase (lastBlock size width)).card≤bytes c/width := by
    intro c hc
    rw [Nat.le_div_iff_mul_le hwidth]
    have hweigh := card_erase_mul hwidth (hgood c hc)
    have := hbytes c hc
    omega
  by_cases hlast : ∃ c∈copies, lastBlock size width∈good c
  · obtain ⟨c,hc,hmem⟩ := hlast
    have hcover : copies.biUnion good ⊆
        insert (lastBlock size width)
          (copies.biUnion fun c => (good c).erase (lastBlock size width)) := by
      intro b hb
      obtain ⟨d,hd,hbd⟩ := mem_biUnion.mp hb
      by_cases hb : b=lastBlock size width
      · exact mem_insert.mpr (.inl hb)
      · exact mem_insert.mpr (.inr (mem_biUnion.mpr ⟨d,hd,mem_erase.mpr ⟨hb,hbd⟩⟩))
    have hcard : (copies.biUnion good).card ≤
        ∑ d∈copies, ((good d).erase (lastBlock size width)).card+1 :=
      (card_le_card hcover).trans ((card_insert_le _ _).trans
        (Nat.succ_le_succ card_biUnion_le))
    have hsplit := add_sum_erase copies (fun d => ((good d).erase (lastBlock size width)).card) hc
    have hsplit' := add_sum_erase copies (fun d => bytes d/width) hc
    have hothers : ∑ d∈copies.erase c, ((good d).erase (lastBlock size width)).card ≤
        ∑ d∈copies.erase c, bytes d/width :=
      sum_le_sum fun d hd => hrest d (mem_of_mem_erase hd)
    have hweigh := card_erase_mul hwidth (hgood c hc)
    rw [if_pos hmem] at hweigh
    have hroom := hbytes c hc
    unfold reach
    split_ifs with hfits
    · have := hrest c hc
      omega
    · have hshort : bytes c%width<lastBytes size width :=
        Nat.lt_of_not_le fun h => hfits ⟨c,hc,h⟩
      have hless : ((good c).erase (lastBlock size width)).card<bytes c/width := by
        have hdiv := Nat.div_add_mod' (bytes c) width
        refine lt_of_mul_lt_mul_right ?_ (Nat.zero_le width)
        omega
      omega
  · have hall : ∀ c∈copies,(good c).erase (lastBlock size width)=good c := by
      intro c hc
      exact erase_eq_of_notMem fun hmem => hlast ⟨c,hc,hmem⟩
    refine (card_biUnion_le.trans (sum_le_sum fun c hc => ?_)).trans (Nat.le_add_right ..)
    rw [← hall c hc]
    exact hrest c hc

/-- Blocks are dealt out one copy after the other. -/
theorem exists_dealt (n : Nat) (copies : Finset ι) (counts : ι → Nat) :
    ∃ good : ι → Finset Nat, (∀ c∈copies,good c ⊆ range n ∧ (good c).card≤counts c) ∧
      copies.biUnion good=range (min n (∑ c∈copies, counts c)) := by
  induction copies using Finset.induction_on with
  | empty => exact ⟨fun _ => ∅,by simp,by simp⟩
  | insert c copies hc ih =>
    obtain ⟨good,hgood,hunion⟩ := ih
    set k := min n (∑ c∈copies, counts c) with hk
    refine ⟨Function.update good c (Ico k (min n (k+counts c))),?_,?_⟩
    · intro d hd
      by_cases heq : d=c
      · subst heq
        rw [Function.update_self]
        refine ⟨fun b hb => ?_,by rw [Nat.card_Ico]; omega⟩
        have := (mem_Ico.mp hb).2
        exact mem_range.mpr (by omega)
      · rw [Function.update_of_ne heq]
        exact hgood d ((mem_insert.mp hd).resolve_left heq)
    · have hothers : copies.biUnion (Function.update good c (Ico k (min n (k+counts c)))) =
          copies.biUnion good :=
        biUnion_congr rfl fun d hd => Function.update_of_ne (ne_of_mem_of_not_mem hd hc) ..
      rw [biUnion_insert,Function.update_self,hothers,hunion,sum_insert hc]
      ext b
      simp only [mem_union,mem_Ico,mem_range]
      omega

/-- And they can hold as many. -/
theorem exists_reach (size width : Nat) (copies : Finset ι) (bytes : ι → Nat) :
    ∃ good : ι → Finset Nat,
      (∀ c∈copies,good c ⊆ range (blockCount size width) ∧
        weigh size width (good c)≤bytes c) ∧
      (copies.biUnion good).card=min (blockCount size width) (reach size width copies bytes) := by
  have hfit : ∀ c (blocks : Finset Nat), blocks.card≤bytes c/width →
      weigh size width blocks≤bytes c/width*width := fun c blocks h =>
    (weigh_le blocks).trans (Nat.mul_le_mul_right width h)
  by_cases hlast : 0<blockCount size width ∧
      ∃ c∈copies, lastBytes size width≤bytes c%width
  · obtain ⟨hpos,c,hc,hshort⟩ := hlast
    have hcount : blockCount size width=lastBlock size width+1 := (Nat.sub_add_cancel hpos).symm
    obtain ⟨good,hgood,hunion⟩ :=
      exists_dealt (lastBlock size width) copies fun c => bytes c/width
    have hnot : ∀ d∈copies,lastBlock size width∉good d := fun d hd hmem =>
      absurd (mem_range.mp ((hgood d hd).1 hmem)) (Nat.lt_irrefl _)
    have hsub : range (lastBlock size width) ⊆ range (blockCount size width) :=
      range_subset_range.mpr (Nat.sub_le ..)
    refine ⟨Function.update good c (insert (lastBlock size width) (good c)),?_,?_⟩
    · intro d hd
      by_cases heq : d=c
      · subst heq
        rw [Function.update_self]
        refine ⟨insert_subset (mem_range.mpr (by omega)) ((hgood d hd).1.trans hsub),?_⟩
        rw [weigh,sum_insert (hnot d hd)]
        have hrest := hfit d _ (hgood d hd).2
        have hdiv := Nat.div_add_mod' (bytes d) width
        unfold weigh at hrest
        unfold lastBytes at hshort
        omega
      · rw [Function.update_of_ne heq]
        refine ⟨(hgood d hd).1.trans hsub,?_⟩
        exact (hfit d _ (hgood d hd).2).trans (Nat.div_mul_le_self ..)
    · have hinsert : copies.biUnion
          (Function.update good c (insert (lastBlock size width) (good c))) =
            insert (lastBlock size width) (copies.biUnion good) := by
        ext b
        simp only [mem_biUnion,mem_insert]
        constructor
        · rintro ⟨d,hd,hb⟩
          by_cases heq : d=c
          · subst heq
            rw [Function.update_self,mem_insert] at hb
            exact hb.imp_right fun hb => ⟨d,hd,hb⟩
          · rw [Function.update_of_ne heq] at hb
            exact .inr ⟨d,hd,hb⟩
        · rintro (hb | ⟨d,hd,hb⟩)
          · exact ⟨c,hc,by rw [Function.update_self,hb]; exact mem_insert_self ..⟩
          · refine ⟨d,hd,?_⟩
            by_cases heq : d=c
            · subst heq
              rw [Function.update_self]
              exact mem_insert_of_mem hb
            · rwa [Function.update_of_ne heq]
      rw [hinsert,hunion,card_insert_of_notMem (by simp),card_range,reach,
        if_pos ⟨c,hc,hshort⟩]
      omega
  · obtain ⟨good,hgood,hunion⟩ :=
      exists_dealt (blockCount size width) copies fun c => bytes c/width
    refine ⟨good,fun d hd => ⟨(hgood d hd).1,?_⟩,?_⟩
    · exact (hfit d _ (hgood d hd).2).trans (Nat.div_mul_le_self ..)
    · rw [hunion,card_range,reach]
      split_ifs with hfits
      · have hzero : blockCount size width=0 := Nat.eq_zero_of_not_pos fun h => hlast ⟨h,hfits⟩
        rw [hzero,Nat.zero_min,Nat.zero_min]
      · rw [Nat.add_zero]

end EmuleQt.Math
