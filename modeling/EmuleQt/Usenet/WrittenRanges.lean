import EmuleQt.Framework.Run
import EmuleQt.Math.HalfOpen
import Mathlib.Data.Int.ConditionallyCompleteOrder
import Mathlib.Order.Lattice.Nat

namespace EmuleQt.Usenet

open Framework Math Math.Span

/-- The ranges of a file that are on disk. -/
structure UsenetFileState where
  written : List (Span Int)

namespace UsenetFileState

variable {st : UsenetFileState} {start length offset : Int}

def addWritten (start length : Int) (st : UsenetFileState) : UsenetFileState :=
  if start < 0 ∨ length ≤ 0 then st
  else { st with written := coalesce (insertFirst ⟨start, start + length⟩ st.written) }

def removeWritten (start length : Int) (st : UsenetFileState) : UsenetFileState :=
  if start < 0 ∨ length ≤ 0 then st
  else { st with written := cut start (start + length) st.written }

/-- The loop of `availableFrom`. -/
def endOfRun (offset : Int) : List (Span Int) → Int
  | [] => offset
  | r::rs =>
    if r.first>offset then offset
    else if r.second>offset then r.second
    else endOfRun offset rs

def availableFrom (offset : Int) (st : UsenetFileState) : Int :=
  if offset < 0 then 0 else endOfRun offset st.written

def onDisk (st : UsenetFileState) : Set Int := union st.written

theorem addWritten_spec (h : Separated st.written) :
    Separated (st.addWritten start length).written ∧
      (st.addWritten start length).onDisk =
        st.onDisk ∪ if 0 ≤ start then Set.Ico start (start+length) else ∅ := by
  unfold addWritten
  split_ifs with hskip hstart hstart
  · refine ⟨h,?_⟩
    rw [Set.Ico_eq_empty (by omega),Set.union_empty]
  · exact ⟨h,(Set.union_empty _).symm⟩
  · obtain ⟨hseparated,hunion⟩ :=
      coalesce_insertFirst (r := ⟨start,start+length⟩) (by dsimp only; omega) h
    refine ⟨hseparated,Set.ext fun x => ?_⟩
    rw [Set.union_comm]
    exact hunion x
  · omega

theorem removeWritten_spec (h : Separated st.written) :
    Separated (st.removeWritten start length).written ∧
      (st.removeWritten start length).onDisk =
        st.onDisk \ if 0 ≤ start then Set.Ico start (start+length) else ∅ := by
  unfold removeWritten
  split_ifs with hskip hstart hstart
  · refine ⟨h,?_⟩
    rw [Set.Ico_eq_empty (by omega),Set.sdiff_empty]
  · exact ⟨h,Set.sdiff_empty.symm⟩
  · obtain ⟨hseparated,hunion⟩ := cut_spec (a := start) (b := start+length) (by omega) h
    exact ⟨hseparated,Set.ext hunion⟩
  · omega

/-- `stop` is where the bytes that follow `offset` without a hole end. -/
structure RunEnds (bytes : Set Int) (offset stop : Int) : Prop where
  covered : offset∈bytes → offset<stop ∧ Set.Ico offset stop ⊆ bytes ∧ stop∉bytes
  uncovered : offset∉bytes → stop=offset

theorem endOfRun_spec {rs : List (Span Int)} (h : Separated rs) (offset : Int) :
    RunEnds (union rs) offset (endOfRun offset rs) := by
  induction rs with
  | nil => exact ⟨fun hin => absurd hin mem_union_nil,fun _ => rfl⟩
  | cons r rs ih =>
    obtain ⟨hafter,-⟩ := List.pairwise_cons.mp h.apart
    have hlater : ∀ x,x≤r.second → x∉union rs := by
      intro x hx hin
      obtain ⟨t,ht,hfirst,-⟩ := hin
      have hrt := hafter t ht
      omega
    have hr := h.nonempty r List.mem_cons_self
    rw [endOfRun]
    split_ifs with hbefore hinside
    · have hout : offset∉union (r::rs) := by
        rw [mem_union_cons,not_or]
        exact ⟨by omega,hlater offset (by omega)⟩
      exact ⟨fun hin => absurd hin hout,fun _ => rfl⟩
    · have hin : offset∈union (r::rs) := mem_union_cons.mpr (Or.inl ⟨by omega,hinside⟩)
      refine ⟨fun _ => ⟨hinside,?_,?_⟩,fun hout => absurd hin hout⟩
      · intro x hx
        obtain ⟨hlow,hhigh⟩ := hx
        exact mem_union_cons.mpr (Or.inl ⟨by omega,hhigh⟩)
      · rw [mem_union_cons,not_or]
        exact ⟨by omega,hlater r.second (Int.le_refl _)⟩
    · -- The span lies before the offset, and so does every byte of it.
      have hrest : ∀ x,offset≤x → (x∈union (r::rs) ↔ x∈union rs) := by
        intro x hx
        rw [mem_union_cons]
        exact or_iff_right (by omega)
      obtain ⟨hcovered,huncovered⟩ := ih h.tail
      constructor
      · intro hin
        obtain ⟨hlt,hrun,hend⟩ := hcovered ((hrest offset (Int.le_refl _)).mp hin)
        exact ⟨hlt,fun x hx => (hrest x hx.1).mpr (hrun hx),fun hstop =>
          hend ((hrest _ (Int.le_of_lt hlt)).mp hstop)⟩
      · intro hout
        exact huncovered fun hin => hout ((hrest offset (Int.le_refl _)).mpr hin)

/-- The calls that change the list. -/
inductive RangeCall
  | addWritten (start length : Int)
  | removeWritten (start length : Int)

namespace RangeCall

def apply (st : UsenetFileState) : RangeCall → UsenetFileState
  | addWritten start length => st.addWritten start length
  | removeWritten start length => st.removeWritten start length

/-- What a call is for: bytes come, or go. One that starts before the file does nothing. -/
def effect (bytes : Set Int) : RangeCall → Set Int
  | addWritten start length => bytes ∪ if 0 ≤ start then Set.Ico start (start + length) else ∅
  | removeWritten start length => bytes \ if 0 ≤ start then Set.Ico start (start + length) else ∅

theorem apply_spec (call : RangeCall) (h : Separated st.written) :
    Separated (call.apply st).written ∧ (call.apply st).onDisk=call.effect st.onDisk := by
  cases call with
  | addWritten start length => exact addWritten_spec h
  | removeWritten start length => exact removeWritten_spec h

end RangeCall

/-- A file of which nothing has come. -/
def empty : UsenetFileState := ⟨[]⟩

theorem run_spec (calls : List RangeCall) :
    Separated (run (fun st call => call.apply st) empty calls).written ∧
      (run (fun st call => call.apply st) empty calls).onDisk =
        calls.foldl (fun bytes call => call.effect bytes) ∅ := by
  have hempty : empty.onDisk = ∅ := Set.eq_empty_of_forall_notMem fun x => mem_union_nil
  rw [← hempty]
  have hseparated : Separated empty.written := separated_nil
  generalize empty=st at hseparated ⊢
  induction calls generalizing st with
  | nil => exact ⟨hseparated,rfl⟩
  | cons call calls ih =>
    obtain ⟨hkeeps,hdisk⟩ := call.apply_spec hseparated
    rw [run_cons,List.foldl_cons,← hdisk]
    exact ih _ hkeeps

/-- After any calls the list is sorted, its ranges lie apart and hold what was added and not taken
away later, and a lookup answers with the end of the run it falls into. -/
theorem writtenRanges_correct (calls : List RangeCall) :
    let st := run (fun st call => RangeCall.apply st call) empty calls
    Separated st.written ∧
      st.onDisk=calls.foldl (fun bytes call => call.effect bytes) ∅ ∧
        ∀ offset,if offset<0 then st.availableFrom offset=0
          else RunEnds st.onDisk offset (st.availableFrom offset) := by
  obtain ⟨hseparated,hdisk⟩ := run_spec calls
  refine ⟨hseparated,hdisk,?_⟩
  intro offset
  rw [availableFrom]
  split_ifs
  · rfl
  · exact endOfRun_spec hseparated offset

/-- Bytes before the file: none of a range that starts there is taken, and a lookup there finds the
start of the file. -/
theorem negative_ignored :
    (0 : Int) ∈ Set.Ico (-1 : Int) (-1 + 2) ∧ (0 : Int) ∉ (empty.addWritten (-1) 2).onDisk ∧
      (-1 : Int) ∉ (empty.addWritten (-1) 2).onDisk ∧
        (empty.addWritten (-1) 2).availableFrom (-1) = 0 :=
  ⟨⟨by decide,by decide⟩,mem_union_nil,mem_union_nil,rfl⟩

end UsenetFileState

end EmuleQt.Usenet
