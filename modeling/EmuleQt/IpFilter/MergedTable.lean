import EmuleQt.IpFilter.IPFilter
import Mathlib.Data.List.Chain

namespace EmuleQt.IpFilter

open Framework Net RangeKey

variable {κ : Type} [RangeKey κ] {a b : IPFilterEntry κ} {es es' : List (IPFilterEntry κ)}

/-- What of a range decides which addresses are blocked. -/
def IPFilterEntry.range (e : IPFilterEntry κ) : κ × κ × UInt32 := (e.start, e.stop, e.level)

/-- One range goes on where the other ends. -/
def Touches (a b : IPFilterEntry κ) : Prop :=
  a.level = b.level ∧ keyIsMax a.stop = false ∧ keyNext a.stop = b.start

instance (a b : IPFilterEntry κ) : Decidable (Touches a b) := inferInstanceAs (Decidable (_ ∧ _))

/-- Ranges in order that could not be fewer. -/
structure Separated (es : List (IPFilterEntry κ)) : Prop where
  nonempty : ∀ e ∈ es, e.start ≤ e.stop
  sorted : es.Pairwise fun a b => a.stop < b.start
  apart : es.IsChain fun a b => ¬ Touches a b

/-- A table as merging leaves it; a single range is left as it is. -/
def Merged (es : List (IPFilterEntry κ)) : Prop := es.length < 2 ∨ Separated es

theorem Separated.tail (h : Separated (a::es)) : Separated es :=
  ⟨(List.forall_mem_cons.mp h.nonempty).2,(List.pairwise_cons.mp h.sorted).2,h.apart.tail⟩

theorem Separated.levelsAt_cons (h : Separated (a::es)) (k : κ) :
    levelsAt (a::es) k =
      if k≤a.stop then {l | a.start≤k ∧ a.level=l} else levelsAt es k := by
  ext l
  rw [mem_levelsAt_cons]
  split_ifs with hk
  · have hnot : l∉levelsAt es k := by
      rintro ⟨e,he,hcovers,-⟩
      exact absurd (hcovers.1.trans hk) (not_le.mpr ((List.pairwise_cons.mp h.sorted).1 e he))
    simp [hnot,IPFilterEntry.covers,hk]
  · simp [IPFilterEntry.covers,hk]

theorem Separated.start_le (h : Separated (a::es)) {l : UInt32} {k : κ}
    (hl : l∈levelsAt (a::es) k) : a.start≤k := by
  rw [h.levelsAt_cons] at hl
  split_ifs at hl with hk
  · exact hl.1
  · exact (h.nonempty a List.mem_cons_self).trans (not_le.mp hk).le

theorem Separated.level_next (h : Separated (a::es)) (hmax : keyIsMax a.stop=false) :
    a.level∉levelsAt (a::es) (keyNext a.stop) := by
  have hlt : a.stop<keyNext a.stop := (lt_keyNext hmax).mpr (le_refl _)
  rw [h.levelsAt_cons,if_neg (not_le.mpr hlt)]
  cases es with
  | nil => simp [levelsAt]
  | cons c es =>
    intro hl
    have hstart := h.tail.start_le hl
    have hnext : keyNext a.stop=c.start := le_antisymm (not_lt.mp fun hc =>
      absurd ((lt_keyNext hmax).mp hc)
        (not_le.mpr ((List.pairwise_cons.mp h.sorted).1 c List.mem_cons_self))) hstart
    rw [h.tail.levelsAt_cons,hnext,if_pos (h.nonempty c (by simp))] at hl
    exact (List.isChain_cons_cons.mp h.apart).1 ⟨hl.2.symm,hmax,hnext⟩

theorem Separated.stop_le (h : Separated (a::es)) (h' : Separated (b::es'))
    (hlevels : ∀ k,levelsAt (a::es) k=levelsAt (b::es') k) (hstart : a.start=b.start)
    (hlevel : a.level=b.level) : b.stop≤a.stop := by
  by_contra hlt
  rw [not_le] at hlt
  have hmax : keyIsMax a.stop=false := by
    rw [Bool.eq_false_iff,ne_eq,keyIsMax_iff]
    exact fun hall => absurd (hall b.stop) (not_le.mpr hlt)
  have hle : keyNext a.stop≤b.stop := not_lt.mp fun hnext =>
    absurd ((lt_keyNext hmax).mp hnext) (not_le.mpr hlt)
  have hlow : a.start≤keyNext a.stop :=
    (h.nonempty a List.mem_cons_self).trans ((lt_keyNext hmax).mpr (le_refl _)).le
  refine h.level_next hmax ?_
  rw [hlevels,h'.levelsAt_cons,if_pos hle]
  exact ⟨hstart ▸ hlow,hlevel.symm⟩

theorem Separated.range_eq (h : Separated es) (h' : Separated es')
    (hlevels : ∀ k,levelsAt es k=levelsAt es' k) :
    es.map IPFilterEntry.range=es'.map IPFilterEntry.range := by
  have hfirst : ∀ {a : IPFilterEntry κ} {es : List (IPFilterEntry κ)}, Separated (a::es) →
      a.level∈levelsAt (a::es) a.start := fun {a es} h =>
    ⟨a,List.mem_cons_self,⟨le_refl _,h.nonempty a List.mem_cons_self⟩,rfl⟩
  induction es generalizing es' with
  | nil =>
    cases es' with
    | nil => rfl
    | cons b es' =>
      obtain ⟨_,he,-⟩ := (hlevels b.start).symm ▸ hfirst h'
      cases he
  | cons a es ih =>
    cases es' with
    | nil =>
      obtain ⟨_,he,-⟩ := hlevels a.start ▸ hfirst h
      cases he
    | cons b es' =>
      have hstart : a.start=b.start := le_antisymm
        (h.start_le ((hlevels b.start).symm ▸ hfirst h')) (h'.start_le (hlevels a.start ▸ hfirst h))
      have hlevel : a.level=b.level := by
        have hl := hlevels a.start ▸ hfirst h
        rw [h'.levelsAt_cons,hstart,if_pos (h'.nonempty b List.mem_cons_self)] at hl
        exact hl.2.symm
      have hstop : a.stop=b.stop := le_antisymm
        (h'.stop_le h (fun k => (hlevels k).symm) hstart.symm hlevel.symm)
        (h.stop_le h' hlevels hstart hlevel)
      rw [List.map_cons,List.map_cons,ih h.tail h'.tail fun k => ?_]
      · simp [IPFilterEntry.range,hstart,hstop,hlevel]
      · have hk := hlevels k
        rw [h.levelsAt_cons,h'.levelsAt_cons,hstop] at hk
        by_cases hle : k≤b.stop
        · have hnone : ∀ {c : IPFilterEntry κ} {es}, Separated (c::es) → k≤c.stop →
              levelsAt es k = ∅ := by
            intro c es hs hc
            ext l
            refine iff_of_false ?_ id
            rintro ⟨e,he,hcovers,-⟩
            exact absurd (hcovers.1.trans hc)
              (not_le.mpr ((List.pairwise_cons.mp hs.sorted).1 e he))
          rw [hnone h (hstop ▸ hle),hnone h' hle]
        · rwa [if_neg hle,if_neg hle] at hk

theorem levelsAt_range (h : es'.map IPFilterEntry.range=es.map IPFilterEntry.range) (k : κ) :
    levelsAt es' k=levelsAt es k := by
  have hrange : ∀ (es : List (IPFilterEntry κ)) l, l∈levelsAt es k ↔
      ∃ r∈es.map IPFilterEntry.range, (r.1≤k ∧ k≤r.2.1) ∧ r.2.2=l := by
    simp [mem_levelsAt,IPFilterEntry.covers,IPFilterEntry.range]
  ext l
  rw [hrange,hrange,h]

theorem Separated.isLeast_iff (h : Separated es) {k : κ} {l : UInt32} :
    IsLeast (levelsAt es k) l ↔ l∈levelsAt es k := by
  refine ⟨fun hl => hl.1,fun hl => ⟨hl,fun l' hl' => ?_⟩⟩
  induction es with
  | nil => obtain ⟨_,he,-⟩ := hl; cases he
  | cons a es ih =>
    rw [h.levelsAt_cons] at hl hl'
    split_ifs at hl hl' with hk
    · exact (hl.2.symm.trans hl'.2).le
    · exact ih h.tail hl hl'

theorem extend_apart {start stop : κ} (top : IPFilterEntry κ) {merged : List (IPFilterEntry κ)}
    (h : merged.IsChain fun back prev => ¬ Touches prev back) :
    (extend start stop top merged).IsChain fun back prev => ¬ Touches prev back := by
  unfold extend
  cases merged with
  | nil => exact List.isChain_singleton _
  | cons back rest =>
    dsimp only
    split_ifs with hjoin
    · cases rest with
      | nil => exact List.isChain_singleton _
      | cons prev rest =>
        obtain ⟨hfirst,hrest⟩ := List.isChain_cons_cons.mp h
        exact List.isChain_cons_cons.mpr ⟨hfirst,hrest⟩
    all_goals exact List.isChain_cons_cons.mpr ⟨hjoin,h⟩

theorem sweepCuts_apart {cuts : List κ} {waiting active merged : List (IPFilterEntry κ)}
    (h : merged.IsChain fun back prev => ¬ Touches prev back) :
    (sweepCuts cuts waiting active merged).IsChain fun back prev => ¬ Touches prev back := by
  induction cuts generalizing waiting active merged with
  | nil => exact h
  | cons start cuts ih =>
    rw [sweepCuts]
    dsimp only
    split
    · exact ih h
    · exact ih (extend_apart _ h)

theorem sortAndMergeRanges_separated (hmany : ¬ es.length<2) (modified : Bool) :
    Separated (sortAndMergeRanges es modified).1 := by
  unfold sortAndMergeRanges
  rw [if_neg hmany]
  obtain ⟨hsorted,hnonempty,-⟩ := sweepCuts_spec (sweepOk_init (sorted_starts
    (es.filter fun e => !decide (e.stop<e.start))))
  exact ⟨fun e he => hnonempty e (List.mem_reverse.mp he),
    List.pairwise_reverse.mpr (hsorted.imp fun hab => hab.2),
    List.isChain_reverse.mpr (sweepCuts_apart List.isChain_nil)⟩

theorem Merged.range_eq (h : Merged es) (hsame : es'.map IPFilterEntry.range=es.map
    IPFilterEntry.range) (modified : Bool) :
    (sortAndMergeRanges es' modified).1.map IPFilterEntry.range=es.map IPFilterEntry.range := by
  have hlength : es'.length=es.length := by simpa using congrArg List.length hsame
  by_cases hfew : es'.length<2
  · rw [sortAndMergeRanges,if_pos hfew,hsame]
  · have hsep := h.resolve_left (by rwa [hlength] at hfew)
    refine (sortAndMergeRanges_separated hfew modified).range_eq hsep fun k => ?_
    ext l
    rw [(sortAndMergeRanges_spec es' modified).2,levelsAt_range hsame,hsep.isLeast_iff]

theorem SameLevels.range_eq (hsame : SameLevels es es') (h : Separated es) (h' : Separated es') :
    es.map IPFilterEntry.range=es'.map IPFilterEntry.range := by
  refine h.range_eq h' fun k => Set.ext fun l => ?_
  rw [← h.isLeast_iff,← h'.isLeast_iff]
  exact hsame.isLeast_iff k l

namespace IPFilter

variable {f : IPFilter}

end IPFilter

end EmuleQt.IpFilter
