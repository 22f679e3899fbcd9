import EmuleQt.Usenet.WrittenRanges
import EmuleQt.Utils.QtFormat

namespace EmuleQt.Usenet

open Framework Math Math.Span Utils Utils.QString

-- The sidecar of an item, as far as the ranges of a file that are on disk go.

/-- `QString::toLongLong`, where it is `ok`. -/
def toLongLong (s : QString) : Option Int :=
  let s := trimmed s
  let negative := decide (s.head? = some 0x2D)
  let digits := if negative ∨ s.head? = some 0x2B then s.tail else s
  (digits.mapM digit?).bind fun ds =>
    let value : Int := if negative then -(ofDigits ds : Int) else ofDigits ds
    if ds = [] ∨ value < -2 ^ 63 ∨ 2 ^ 63 ≤ value then none else some value

/-- `num` of the writer. -/
def num (n : Int) : QString := if n < 0 then 0x2D :: number n.natAbs else number n.natAbs

/-- A range that `load` takes from an entry. -/
def readRange (text : QString) : Option (Int × Int) :=
  match text.idxOf? 0x2D with
  | none => none
  | some dash =>
    if dash = 0 then none
    else
      match toLongLong (text.take dash), toLongLong (text.drop (dash + 1)) with
      | some start, some stop => if stop > start then some (start, stop) else none
      | _, _ => none

namespace UsenetFileState

/-- The entries of `written`; none where there is no such key. -/
def saveWritten (st : UsenetFileState) : List QString :=
  st.written.map fun r => num r.first++0x2D::num r.second

def loadEntry (st : UsenetFileState) (text : QString) : UsenetFileState :=
  match readRange text with
  | some (start, stop) => st.addWritten start (stop-start)
  | none => st

def loadWritten (entries : List QString) : UsenetFileState := entries.foldl loadEntry empty

end UsenetFileState

/-- The end of the range is a number of 64 bits with a sign, as the code reckons it. -/
def UsenetFileState.RangeCall.Fits : RangeCall → Prop
  | addWritten start length => start + length < 2 ^ 63
  | removeWritten start length => start + length < 2 ^ 63

theorem toLongLong_number {n : Nat} (h : n<2^63) : toLongLong (number n)=some (n : Int) := by
  obtain ⟨ds,hne,hsmall,hnumber,hvalue⟩ := number_digits n
  unfold toLongLong
  dsimp only
  rw [trimmed_number,decide_eq_false (number_head rfl n),
    if_neg (not_or.mpr ⟨Bool.false_ne_true,number_head rfl n⟩),hnumber,mapM_digit? hsmall]
  dsimp only [Option.bind_some]
  rw [hvalue,if_neg Bool.false_ne_true,if_neg (by simp only [hne,false_or]; omega)]

theorem readRange_num {start stop : Int} (hstart : 0 ≤ start) (hlt : start<stop)
    (hstop : stop<2^63) : readRange (num start++0x2D::num stop)=some (start, stop) := by
  have hnum : ∀ n : Int, 0≤n → num n=number n.natAbs := fun n hn => if_neg (by omega)
  have hread : ∀ n : Int, 0≤n → n<2^63 → toLongLong (num n)=some n := by
    intro n hn hlt
    rw [hnum n hn,toLongLong_number (by omega),Int.natAbs_of_nonneg hn]
  have hdash : (num start++0x2D::num stop).idxOf? 0x2D=some (num start).length := by
    have hdigit : ∀ u∈num start,u≠0x2D := by
      rintro u hu rfl
      rw [hnum start hstart] at hu
      obtain ⟨d,hd⟩ := number_digit hu
      cases hd
    refine List.idxOf?_eq_some_iff.mpr ⟨by simp,by simp,fun j hj => ?_⟩
    rw [List.getElem_append_left hj]
    exact hdigit _ (List.getElem_mem hj)
  have hne : (num start).length≠0 := by
    rw [hnum start hstart]
    exact fun hnil => number_ne_nil _ (List.length_eq_zero_iff.mp hnil)
  unfold readRange
  rw [hdash]
  dsimp only
  rw [if_neg hne,List.take_left,List.drop_append,List.drop_eq_nil_of_le (Nat.le_succ _),
    Nat.add_sub_cancel_left,hread start hstart (by omega),List.nil_append,List.drop_one,
    List.tail_cons,hread stop (by omega) hstop]
  dsimp only
  rw [if_pos hlt]

namespace UsenetFileState

theorem loadEntry_separated {st : UsenetFileState} (h : Separated st.written) (text : QString) :
    Separated (st.loadEntry text).written := by
  unfold loadEntry
  split
  · exact (addWritten_spec h).1
  · exact h

/-- The ranges of a list that is read back are added to what is there. -/
theorem loadEntry_ranges {rs : List (Span Int)}
    (hrs : ∀ r∈rs,0≤r.first ∧ r.first<r.second ∧ r.second<2^63)
    {st : UsenetFileState} (h : Separated st.written) :
    Separated ((saveWritten ⟨rs⟩).foldl loadEntry st).written ∧
      ∀ x,x∈((saveWritten ⟨rs⟩).foldl loadEntry st).onDisk ↔ x∈st.onDisk ∨ x∈union rs := by
  induction rs generalizing st with
  | nil => exact ⟨h,fun x => by simp [saveWritten]⟩
  | cons r rs ih =>
    obtain ⟨⟨hfirst,hlt,hsecond⟩,hrs⟩ := List.forall_mem_cons.mp hrs
    obtain ⟨hkeeps,hadded⟩ := @addWritten_spec _ r.first (r.second-r.first) h
    have hentry : st.loadEntry (num r.first++0x2D::num r.second) =
        st.addWritten r.first (r.second-r.first) := by
      rw [loadEntry,readRange_num hfirst hlt hsecond]
    obtain ⟨hseparated,hdisk⟩ := ih hrs hkeeps
    rw [saveWritten,List.map_cons,List.foldl_cons,hentry]
    refine ⟨hseparated,fun x => (hdisk x).trans ?_⟩
    rw [hadded,if_pos hfirst,add_sub_cancel,Set.mem_union,mem_union_cons,or_assoc]
    rfl

theorem run_bounded {calls : List RangeCall} (hfits : ∀ call∈calls,call.Fits) :
    ∀ r∈(run (fun st call => RangeCall.apply st call) empty calls).written,
      0≤r.first ∧ r.first<r.second ∧ r.second<2^63 := by
  obtain ⟨hseparated,hdisk⟩ := run_spec calls
  have hbytes : ∀ (bytes : Set Int) (calls : List RangeCall), (∀ call∈calls,call.Fits) →
      bytes ⊆ Set.Ico 0 (2^63-1) →
        calls.foldl (fun bytes call => call.effect bytes) bytes ⊆ Set.Ico 0 (2^63-1) := by
    intro bytes calls hfits hin
    induction calls generalizing bytes with
    | nil => exact hin
    | cons call calls ih =>
      obtain ⟨hcall,hcalls⟩ := List.forall_mem_cons.mp hfits
      refine ih _ hcalls ?_
      cases call with
      | addWritten start length =>
        refine Set.union_subset hin ?_
        split_ifs with hstart
        · have hend : start+length<2^63 := hcall
          exact Set.Ico_subset_Ico hstart (by omega)
        · exact Set.empty_subset _
      | removeWritten start length => exact Set.sdiff_subset.trans hin
  intro r hr
  have hlt := hseparated.nonempty r hr
  have hin : ∀ x,r.first≤x → x<r.second → x∈Set.Ico (0 : Int) (2^63-1) :=
    fun x hx hx' => hbytes ∅ calls hfits (Set.empty_subset _) (hdisk ▸ ⟨r,hr,hx,hx'⟩)
  have hfirst := (hin r.first (le_refl _) hlt).1
  have hlast := (hin (r.second-1) (by omega) (by omega)).2
  exact ⟨hfirst,hlt,by omega⟩

/-- Whatever the sidecar says, the ranges that are read from it lie apart; and what any calls have
left is read back as it was. -/
theorem loadWritten_saveWritten :
    (∀ entries,Separated (loadWritten entries).written) ∧
      ∀ calls : List RangeCall, (∀ call∈calls,call.Fits) →
        let st := run (fun st call => RangeCall.apply st call) empty calls
        loadWritten st.saveWritten=st := by
  constructor
  · intro entries
    have hall : ∀ st : UsenetFileState, Separated st.written →
        Separated (entries.foldl loadEntry st).written := by
      induction entries with
      | nil => exact fun st h => h
      | cons text entries ih => exact fun st h => ih _ (loadEntry_separated h text)
    exact hall empty separated_nil
  · intro calls hfits st
    obtain ⟨hseparated,hdisk⟩ := loadEntry_ranges (run_bounded hfits) separated_nil
    have hsame : (loadWritten st.saveWritten).written=st.written :=
      hseparated.eq_of_union (run_spec calls).1 fun x =>
        (hdisk x).trans (or_iff_right mem_union_nil)
    exact congrArg UsenetFileState.mk hsame

/-- Two articles that touch, a later one, and a bad middle taken away again. -/
theorem loadWritten_saveWritten_four :
    let st := run (fun st call => RangeCall.apply st call) empty
      [.addWritten 100 50,.addWritten 0 100,.addWritten 400 20,.removeWritten 90 30]
    st.saveWritten=[lit "0-90",lit "120-150",lit "400-420"] ∧
      loadWritten st.saveWritten=st :=
  ⟨by decide,loadWritten_saveWritten.2 _ (by simp [RangeCall.Fits])⟩

end UsenetFileState

end EmuleQt.Usenet
