import EmuleQt.Client.CorruptionBlackBox

namespace EmuleQt.Client

open Net Utils

/-- The record speaks for the byte: in this status, for one of these senders. -/
def BlockRecord.Holds (p : Address → Bool) (st : BlockRecordStatus) (b : Nat)
    (rec : BlockRecord) : Prop :=
  p rec.sender = true ∧ rec.status = st ∧ rec.startPos ≤ b ∧ b ≤ rec.endPos

instance (p : Address → Bool) (st : BlockRecordStatus) (b : Nat) (rec : BlockRecord) :
    Decidable (rec.Holds p st b) := by
  unfold BlockRecord.Holds
  infer_instance

/-- A non-empty interval inside its part. -/
def BlockRecord.InPart (rec : BlockRecord) : Prop :=
  rec.startPos≤rec.endPos ∧ rec.endPos<PARTSIZE

/-- How many records of a part speak for a byte. -/
def held (p : Address → Bool) (st : BlockRecordStatus) (b : Nat) (rs : List BlockRecord) : Nat :=
  rs.countP fun rec => decide (rec.Holds p st b)

section Held

variable (p : Address → Bool) (st : BlockRecordStatus) (b : Nat)

@[simp] theorem held_nil : held p st b []=0 := rfl

@[simp] theorem held_cons (rec : BlockRecord) (rs : List BlockRecord) :
    held p st b (rec::rs)=(if rec.Holds p st b then 1 else 0)+held p st b rs := by
  simp [held,List.countP_cons,Nat.add_comm]

@[simp] theorem held_append (rs ts : List BlockRecord) :
    held p st b (rs++ts)=held p st b rs+held p st b ts := by
  simp [held]

variable {p st b}

variable {rs : List BlockRecord}

theorem held_pos :
    0<held p st b rs ↔ ∃ rec∈rs, rec.Holds p st b := by
  simp [held,List.countP_pos_iff]

theorem held_eq_zero :
    held p st b rs=0 ↔ ∀ rec∈rs,¬rec.Holds p st b := by
  simp [held]

theorem held_le_all (rs : List BlockRecord) : held p st b rs≤held (fun _ => true) st b rs := by
  refine List.countP_mono_left fun rec _ h => ?_
  obtain ⟨-,hrest⟩ := of_decide_eq_true h
  exact decide_eq_true ⟨rfl,hrest⟩

theorem held_modify {k : Nat} {rec : BlockRecord} (h : rs[k]? = some rec)
    (f : BlockRecord → BlockRecord) :
    held p st b (rs.modify k f)+(if rec.Holds p st b then 1 else 0) =
      held p st b rs+(if (f rec).Holds p st b then 1 else 0) := by
  induction rs generalizing k with
  | nil => simp at h
  | cons r rs ih =>
    cases k with
    | zero =>
      obtain rfl : r=rec := by simpa using h
      simp only [List.modify_zero_cons,held_cons]
      omega
    | succ k =>
      have hrest := ih (k := k) (by simpa using h)
      simp only [List.modify_succ_cons,held_cons]
      omega

end Held

/-- No byte has two pending records. -/
def PendingOnce (rs : List BlockRecord) : Prop :=
  ∀ b, held (fun _ => true) .None b rs≤1

/-- A pending record that reaches over both ends of the range. -/
def BlockRecord.Straddles (rec : BlockRecord) (relStart relEnd : Nat) : Prop :=
  rec.status = .None ∧ rec.startPos < relStart ∧ relEnd < rec.endPos

/-- The loop passes the record by. -/
def BlockRecord.Untouched (rec : BlockRecord) (relStart relEnd : Nat) (sender : Address) : Prop :=
  rec.canMerge relStart relEnd sender .None = false ∧
    (rec.status = .None → rec.endPos < relStart ∨ relEnd < rec.startPos)

section Overlap

variable {relStart relEnd : Nat} {sender : Address}

/-- What a walk over `todo` adds behind `done` when it takes the range out of every pending
record: the neighbour to merge with is the one the walk came with or one of those it kept. -/
structure Trimmed (relStart relEnd : Nat) (sender : Address) (posMerge : Option Nat)
    (start : Nat) (todo rest : List BlockRecord) (posMerge' : Option Nat) : Prop where
  inPart : ∀ rec ∈ rest, rec.InPart
  held : ∀ p st b, held p st b rest =
    if st = .None ∧ relStart ≤ b ∧ b ≤ relEnd then 0 else held p st b todo
  merge : posMerge' = posMerge ∨ ∃ k rec, posMerge' = some (start + k) ∧
    rest[k]? = some rec ∧ rec.canMerge relStart relEnd sender .None = true

variable {rec : BlockRecord}

theorem Trimmed.keep {posMerge pm pm' : Option Nat} {start : Nat} {rec' : BlockRecord}
    {todo rest : List BlockRecord} (hin : rec'.InPart)
    (hholds : ∀ p st b,rec'.Holds p st b ↔
      ¬(st = .None ∧ relStart≤b ∧ b≤relEnd) ∧ rec.Holds p st b)
    (hpm : pm=posMerge ∨
      pm=some start ∧ rec'.canMerge relStart relEnd sender .None=true)
    (h : Trimmed relStart relEnd sender pm (start+1) todo rest pm') :
    Trimmed relStart relEnd sender posMerge start (rec::todo) (rec'::rest) pm' := by
  refine ⟨List.forall_mem_cons.mpr ⟨hin,h.inPart⟩,?_,?_⟩
  · intro p st b
    rw [held_cons,held_cons,h.held]
    by_cases hc : st = .None ∧ relStart≤b ∧ b≤relEnd
    · rw [if_pos hc,if_pos hc,if_neg fun hr => ((hholds p st b).mp hr).1 hc]
    · rw [if_neg hc,if_neg hc]
      by_cases hr : rec.Holds p st b
      · rw [if_pos hr,if_pos ((hholds p st b).mpr ⟨hc,hr⟩)]
      · rw [if_neg hr,if_neg fun hr' => hr ((hholds p st b).mp hr').2]
  · rcases h.merge with rfl | ⟨k,r,hk,hget,hcan⟩
    · rcases hpm with rfl | ⟨rfl,hcan⟩
      · exact Or.inl rfl
      · exact Or.inr ⟨0,rec',by simp,by simp,hcan⟩
    · exact Or.inr ⟨k+1,r,by rw [hk,Nat.add_right_comm,Nat.add_assoc],by simpa using hget,hcan⟩

theorem Trimmed.erase {posMerge pm' : Option Nat} {start : Nat} {todo rest : List BlockRecord}
    (hst : rec.status = .None) (hin : relStart≤rec.startPos ∧ rec.endPos≤relEnd)
    (h : Trimmed relStart relEnd sender posMerge start todo rest pm') :
    Trimmed relStart relEnd sender posMerge start (rec::todo) rest pm' := by
  refine ⟨h.inPart,?_,h.merge⟩
  intro p st b
  rw [held_cons,h.held]
  by_cases hc : st = .None ∧ relStart≤b ∧ b≤relEnd
  · rw [if_pos hc,if_pos hc]
  · have hout : ¬rec.Holds p st b := by
      rintro ⟨-,rfl,hb⟩
      exact hc ⟨hst,by omega⟩
    rw [if_neg hc,if_neg hc,if_neg hout,Nat.zero_add]

theorem overlapLoop_trim (hrange : relStart≤relEnd) (hend : relEnd<PARTSIZE)
    (posMerge : Option Nat) (done todo : List BlockRecord) (hwf : ∀ rec∈todo,rec.InPart)
    (hno : ∀ rec∈todo,¬rec.Straddles relStart relEnd) :
    ∃ rest posMerge', Trimmed relStart relEnd sender posMerge done.length todo rest posMerge' ∧
      overlapLoop relStart relEnd sender posMerge done todo =
        ⟨done++rest,posMerge',relStart,relEnd,sender⟩ := by
  induction todo generalizing posMerge done with
  | nil => exact ⟨[],posMerge,⟨by simp,by simp,Or.inl rfl⟩,by simp [overlapLoop]⟩
  | cons rec todo ih =>
    obtain ⟨⟨hle,hlt⟩,htodo⟩ := List.forall_mem_cons.mp hwf
    obtain ⟨hrno,htno⟩ := List.forall_mem_cons.mp hno
    -- every branch but the erasing one goes on behind some `rec'`
    have keep : ∀ (rec' : BlockRecord) (pm : Option Nat), rec'.InPart →
        (∀ p st b,rec'.Holds p st b ↔
          ¬(st = .None ∧ relStart≤b ∧ b≤relEnd) ∧ rec.Holds p st b) →
        (pm=posMerge ∨ pm=some done.length ∧
          rec'.canMerge relStart relEnd sender .None=true) →
        ∃ rest pm', Trimmed relStart relEnd sender posMerge done.length (rec::todo) rest pm' ∧
          overlapLoop relStart relEnd sender pm (done++[rec']) todo =
            ⟨done++rest,pm',relStart,relEnd,sender⟩ := by
      intro rec' pm hin hholds hpm
      obtain ⟨rest,pm',htrim,heq⟩ := ih pm (done++[rec']) htodo htno
      rw [List.length_append,List.length_singleton] at htrim
      exact ⟨rec'::rest,pm',htrim.keep hin hholds hpm,by rw [heq]; simp⟩
    have same : (rec.status = .None → rec.endPos<relStart ∨ relEnd<rec.startPos) →
        ∀ p st b,rec.Holds p st b ↔
          ¬(st = .None ∧ relStart≤b ∧ b≤relEnd) ∧ rec.Holds p st b := by
      intro haway p st b
      refine ⟨fun hh => ⟨?_,hh⟩,And.right⟩
      rintro ⟨rfl,hb⟩
      obtain ⟨-,hst,hpos⟩ := hh
      have := haway hst
      omega
    have trim : ∀ {rec' : BlockRecord}, rec'.sender=rec.sender → rec'.status=rec.status →
        (∀ b,rec'.startPos≤b ∧ b≤rec'.endPos ↔
          ¬(relStart≤b ∧ b≤relEnd) ∧ rec.startPos≤b ∧ b≤rec.endPos) →
        rec.status = .None → ∀ p st b,rec'.Holds p st b ↔
          ¬(st = .None ∧ relStart≤b ∧ b≤relEnd) ∧ rec.Holds p st b := by
      intro rec' hs hst hpos hnone p st b
      rw [BlockRecord.Holds,BlockRecord.Holds,hs,hst,hnone,hpos b]
      constructor
      · rintro ⟨h1,h2,h3,h4⟩
        exact ⟨fun hc => h3 hc.2,h1,h2,h4⟩
      · rintro ⟨h1,h2,rfl,h4⟩
        exact ⟨h2,rfl,fun hc => h1 ⟨rfl,hc⟩,h4⟩
    rw [overlapLoop]
    split_ifs with hcan hst hinside hstraddle hsender hright hleft
    · obtain ⟨-,-,hadj⟩ := of_decide_eq_true hcan
      exact keep rec _ ⟨hle,hlt⟩ (same fun _ => by omega) (Or.inr ⟨rfl,hcan⟩)
    · obtain ⟨rest,pm',htrim,heq⟩ := ih posMerge done htodo htno
      exact ⟨rest,pm',htrim.erase hst hinside,heq⟩
    · exact absurd ⟨hst,hstraddle⟩ hrno
    · exact absurd ⟨hst,hstraddle⟩ hrno
    · refine keep { rec with startPos := relEnd+1 } _ ⟨?_,hlt⟩ ?_ (Or.inl rfl)
      · change relEnd+1≤rec.endPos
        omega
      · refine trim rfl rfl (fun b => ?_) hst
        change relEnd+1≤b ∧ b≤rec.endPos ↔ _
        omega
    · refine keep { rec with endPos := relStart-1 } _ ⟨?_,?_⟩ ?_ (Or.inl rfl)
      · change rec.startPos≤relStart-1
        omega
      · change relStart-1<PARTSIZE
        omega
      · refine trim rfl rfl (fun b => ?_) hst
        change rec.startPos≤b ∧ b≤relStart-1 ↔ _
        omega
    · exact keep rec _ ⟨hle,hlt⟩ (same fun _ => by omega) (Or.inl rfl)
    · exact keep rec _ ⟨hle,hlt⟩ (same fun h => absurd h hst) (Or.inl rfl)

theorem overlapLoop_untouched (posMerge : Option Nat) (done pre todo : List BlockRecord)
    (h : ∀ rec∈pre,rec.Untouched relStart relEnd sender) (hwf : ∀ rec∈pre,rec.InPart)
    (hrange : relStart≤relEnd) :
    overlapLoop relStart relEnd sender posMerge done (pre++todo) =
      overlapLoop relStart relEnd sender posMerge (done++pre) todo := by
  induction pre generalizing done with
  | nil => simp
  | cons rec pre ih =>
    obtain ⟨⟨hcan,haway⟩,hpre⟩ := List.forall_mem_cons.mp h
    obtain ⟨⟨hle,-⟩,hwf⟩ := List.forall_mem_cons.mp hwf
    have hstep : overlapLoop relStart relEnd sender posMerge done (rec::(pre++todo)) =
        overlapLoop relStart relEnd sender posMerge (done++[rec]) (pre++todo) := by
      rw [overlapLoop,if_neg (by simp [hcan])]
      by_cases hst : rec.status = .None
      · have := haway hst
        rw [if_pos hst,if_neg (by omega),if_neg (by omega),if_neg (by omega),if_neg (by omega)]
      · rw [if_neg hst]
    rw [List.cons_append,hstep,ih _ hpre hwf]
    simp

theorem untouched_of_straddles {r : BlockRecord} {pre post : List BlockRecord}
    (honce : PendingOnce (pre++rec::post)) (hs : rec.Straddles relStart relEnd)
    (hrange : relStart≤relEnd) (hr : r∈pre) (hin : r.InPart) :
    r.Untouched relStart relEnd sender := by
  obtain ⟨hst,hleft,hright⟩ := hs
  obtain ⟨hle,-⟩ := hin
  have hdisj : ∀ b,r.status = .None → r.startPos≤b → b≤r.endPos →
      ¬(rec.startPos≤b ∧ b≤rec.endPos) := by
    intro b hrst h1 h2 hb
    have htwo := honce b
    have hpos : 0<held (fun _ => true) .None b pre :=
      held_pos.mpr ⟨r,hr,rfl,hrst,h1,h2⟩
    rw [held_append,held_cons,if_pos ⟨rfl,hst,hb⟩] at htwo
    omega
  constructor
  · refine decide_eq_false fun hcan => ?_
    obtain ⟨-,hrst,hadj⟩ := hcan
    have h1 := hdisj r.endPos hrst hle (Nat.le_refl _)
    have h2 := hdisj r.startPos hrst (Nat.le_refl _) hle
    omega
  · intro hrst
    have h2 := hdisj r.startPos hrst (Nat.le_refl _) hle
    have h3 := hdisj relStart hrst
    omega

/-- What entering a range does to a part, byte by byte. -/
structure Entered (relStart relEnd : Nat) (sender : Address) (rs rs' : List BlockRecord) :
    Prop where
  inPart : ∀ rec ∈ rs', rec.InPart
  held : ∀ p st b, held p st b rs' =
    if st = .None ∧ relStart ≤ b ∧ b ≤ relEnd then (if p sender = true then 1 else 0)
    else held p st b rs

theorem held_pending (p : Address → Bool) (st : BlockRecordStatus) (b start stop : Nat)
    (sender : Address) :
    held p st b [⟨start,stop,sender,.None⟩] =
      if st = .None ∧ start≤b ∧ b ≤ stop then (if p sender=true then 1 else 0) else 0 := by
  have hiff : (⟨start,stop,sender,.None⟩ : BlockRecord).Holds p st b ↔
      (st = .None ∧ start≤b ∧ b ≤ stop) ∧ p sender=true :=
    ⟨fun ⟨h1,h2,h3⟩ => ⟨⟨h2.symm,h3⟩,h1⟩,fun ⟨⟨h2,h3⟩,h1⟩ => ⟨h1,h2.symm,h3⟩⟩
  rw [held_cons,held_nil,Nat.add_zero]
  by_cases hc : st = .None ∧ start≤b ∧ b ≤ stop
  · rw [if_pos hc]
    exact if_congr (hiff.trans (and_iff_right hc)) rfl rfl
  · rw [if_neg hc,if_neg fun h => hc (hiff.mp h).1]

theorem merge_correct (hcan : rec.canMerge relStart relEnd sender .None=true) (hin : rec.InPart)
    (hrange : relStart≤relEnd) (hend : relEnd<PARTSIZE) :
    let merged := rec.merge relStart relEnd sender .None
    merged.InPart ∧ merged.sender=sender ∧ merged.status = .None ∧
      ∀ b,merged.startPos≤b ∧ b ≤ merged.endPos ↔
        rec.startPos≤b ∧ b≤rec.endPos ∨ relStart≤b ∧ b≤relEnd := by
  intro merged
  obtain ⟨hle,hlt⟩ := hin
  obtain ⟨hsender,hst,hadj⟩ := of_decide_eq_true hcan
  have hsame : ¬(rec.sender≠sender ∨ rec.status ≠ .None) := by simp [hsender,hst]
  by_cases hright : relStart=rec.endPos+1
  · have hm : merged = { rec with endPos := relEnd } := by
      simp only [merged,BlockRecord.merge,if_neg hsame,if_pos hright]
    rw [hm]
    refine ⟨⟨?_,hend⟩,hsender,hst,fun b => ?_⟩
    · change rec.startPos≤relEnd
      omega
    · change rec.startPos≤b ∧ b≤relEnd ↔ _
      omega
  · have hleft : relEnd+1=rec.startPos := hadj.resolve_left hright
    have hm : merged = { rec with startPos := relStart } := by
      simp only [merged,BlockRecord.merge,if_neg hsame,if_neg hright,if_pos hleft]
    rw [hm]
    refine ⟨⟨?_,hlt⟩,hsender,hst,fun b => ?_⟩
    · change relStart≤rec.endPos
      omega
    · change relStart≤b ∧ b≤rec.endPos ↔ _
      omega

theorem held_merge {rest : List BlockRecord} {k : Nat} (hget : rest[k]? = some rec)
    (hcan : rec.canMerge relStart relEnd sender .None=true) (hin : rec.InPart)
    (hrange : relStart≤relEnd) (hend : relEnd<PARTSIZE) (p : Address → Bool)
    (st : BlockRecordStatus) (b : Nat) :
    held p st b (rest.modify k fun rec => rec.merge relStart relEnd sender .None) =
      held p st b rest+held p st b [⟨relStart,relEnd,sender,.None⟩] := by
  obtain ⟨-,hsender,hst,hpos⟩ := merge_correct hcan hin hrange hend
  obtain ⟨hrsender,hrst,hadj⟩ := of_decide_eq_true hcan
  have hmod := @held_modify p st b _ _ _ hget fun rec => rec.merge relStart relEnd sender .None
  have hone : (if (rec.merge relStart relEnd sender .None).Holds p st b then 1 else 0) =
      (if rec.Holds p st b then 1 else 0)+held p st b [⟨relStart,relEnd,sender,.None⟩] := by
    rw [held_cons,held_nil,Nat.add_zero]
    have hnot : rec.Holds p st b →
        ¬(⟨relStart,relEnd,sender,.None⟩ : BlockRecord).Holds p st b := by
      rintro ⟨-,-,h1⟩ ⟨-,-,h2⟩
      have h4 : relStart≤b ∧ b≤relEnd := h2
      omega
    have hiff : (rec.merge relStart relEnd sender .None).Holds p st b ↔
        rec.Holds p st b ∨ (⟨relStart,relEnd,sender,.None⟩ : BlockRecord).Holds p st b := by
      simp only [BlockRecord.Holds,hsender,hst,hrsender,hrst,hpos b]
      tauto
    by_cases h : rec.Holds p st b
    · rw [if_pos (hiff.mpr (Or.inl h)),if_pos h,if_neg (hnot h)]
    · rw [if_neg h,Nat.zero_add]
      exact if_congr (hiff.trans (or_iff_right h)) rfl rfl
  omega

theorem transferInPart_trim (hrange : relStart≤relEnd) (hend : relEnd<PARTSIZE)
    {rs : List BlockRecord} (hwf : ∀ rec∈rs,rec.InPart)
    (hno : ∀ rec∈rs,¬rec.Straddles relStart relEnd) :
    Entered relStart relEnd sender rs (transferInPart relStart relEnd sender rs) := by
  obtain ⟨rest,pm,htrim,heq⟩ :=
    @overlapLoop_trim relStart relEnd sender hrange hend none [] rs hwf hno
  rw [List.nil_append] at heq
  have hcount : ∀ p st b,held p st b rest+held p st b [⟨relStart,relEnd,sender,.None⟩] =
      if st = .None ∧ relStart≤b ∧ b≤relEnd then (if p sender=true then 1 else 0)
      else held p st b rs := by
    intro p st b
    rw [htrim.held,held_pending]
    split_ifs <;> rfl
  rcases htrim.merge with rfl | ⟨k,rec,rfl,hget,hcan⟩
  · have hres : transferInPart relStart relEnd sender rs =
        rest++[⟨relStart,relEnd,sender,.None⟩] := by
      simp only [transferInPart,heq]
    rw [hres]
    refine ⟨?_,fun p st b => by rw [held_append,hcount]⟩
    intro rec hrec
    rcases List.mem_append.mp hrec with h | h
    · exact htrim.inPart rec h
    · rw [List.mem_singleton.mp h]
      exact ⟨hrange,hend⟩
  · rw [List.length_nil,Nat.zero_add] at heq
    have hin : rec.InPart := htrim.inPart rec (List.mem_of_getElem? hget)
    have hres : transferInPart relStart relEnd sender rs =
        rest.modify k fun rec => rec.merge relStart relEnd sender .None := by
      simp only [transferInPart,heq]
    rw [hres]
    refine ⟨?_,fun p st b => by rw [held_merge hget hcan hin hrange hend,hcount]⟩
    intro r hr
    obtain ⟨i,hi⟩ := List.getElem?_of_mem hr
    rw [List.getElem?_modify] at hi
    obtain ⟨r',hr',rfl⟩ := Option.map_eq_some_iff.mp hi
    by_cases hk : k=i
    · subst hk
      obtain rfl : rec=r' := Option.some_inj.mp (hget.symm.trans hr')
      rw [if_pos rfl]
      exact (merge_correct hcan hin hrange hend).1
    · rw [if_neg hk]
      exact htrim.inPart r' (List.mem_of_getElem? hr')

theorem held_split (hrange : relStart≤relEnd) (hs : rec.Straddles relStart relEnd)
    (p : Address → Bool) (st : BlockRecordStatus) (b : Nat) :
    held p st b [⟨relStart,relEnd,sender,.None⟩] +
        held p st b [⟨rec.startPos,relStart-1,rec.sender,.None⟩] +
        held p st b [⟨relEnd+1,rec.endPos,rec.sender,.None⟩] =
      if st = .None ∧ relStart≤b ∧ b≤relEnd then (if p sender=true then 1 else 0)
      else held p st b [rec] := by
  obtain ⟨hst,hleft,hright⟩ := hs
  have hrec : held p st b [rec] =
      if st = .None ∧ rec.startPos≤b ∧ b≤rec.endPos then
        (if p rec.sender=true then 1 else 0) else 0 := by
    rw [← held_pending p st b rec.startPos rec.endPos rec.sender,← hst]
  rw [hrec,held_pending,held_pending,held_pending]
  by_cases hnone : st = .None
  · simp only [hnone,true_and]
    split_ifs <;> omega
  · simp [hnone]

/-- A pending record of another sender around the range is split in three. -/
theorem transferInPart_split (hrange : relStart≤relEnd) {pre post : List BlockRecord}
    (hwf : ∀ r∈pre++rec::post, r.InPart) (honce : PendingOnce (pre++rec::post))
    (hs : rec.Straddles relStart relEnd) (hother : rec.sender≠sender) :
    Entered relStart relEnd sender (pre++rec::post)
      (transferInPart relStart relEnd sender (pre++rec::post)) := by
  have hpre : ∀ r∈pre,r.InPart := fun r hr => hwf r (List.mem_append_left _ hr)
  have hun : ∀ r∈pre,r.Untouched relStart relEnd sender := fun r hr =>
    untouched_of_straddles honce hs hrange hr (hpre r hr)
  obtain ⟨hst,hleft,hright⟩ := hs
  have hres : transferInPart relStart relEnd sender (pre++rec::post) =
      pre++(⟨relStart,relEnd,sender,.None⟩::post) ++
        [⟨rec.startPos,relStart-1,rec.sender,.None⟩] ++
        [⟨relEnd+1,rec.endPos,rec.sender,.None⟩] := by
    have hcan : rec.canMerge relStart relEnd sender .None=false :=
      decide_eq_false fun h => hother h.1
    have hloop : overlapLoop relStart relEnd sender none [] (pre++rec::post) =
        ⟨pre++(⟨relStart,relEnd,sender,.None⟩::post) ++
          [⟨rec.startPos,relStart-1,rec.sender,.None⟩],none,relEnd+1,rec.endPos,
          rec.sender⟩ := by
      rw [overlapLoop_untouched none [] pre (rec::post) hun hpre hrange,List.nil_append,
        overlapLoop,if_neg (by simp [hcan]),if_pos hst,if_neg (by omega),
        if_pos ⟨hleft,hright⟩,if_pos (Ne.symm hother),hst]
    simp only [transferInPart,hloop]
  rw [hres]
  constructor
  · intro r hr
    simp only [List.mem_append,List.mem_cons,List.not_mem_nil,or_false] at hr
    have hrec := hwf rec (by simp)
    obtain ⟨hle,hlt⟩ := hrec
    rcases hr with ((hr | rfl | hr) | rfl) | rfl
    · exact hpre r hr
    · exact ⟨hrange,Nat.lt_trans hright hlt⟩
    · exact hwf r (by simp [hr])
    · exact ⟨by change rec.startPos≤relStart-1; omega,by
        change relStart-1<PARTSIZE; omega⟩
    · exact ⟨hright,hlt⟩
  · intro p st b
    have hold : held p st b (pre++rec::post) =
        held p st b pre+held p st b [rec]+held p st b post := by
      simp [Nat.add_assoc]
    have hnew : held p st b (pre++(⟨relStart,relEnd,sender,.None⟩::post) ++
          [⟨rec.startPos,relStart-1,rec.sender,.None⟩] ++
          [⟨relEnd+1,rec.endPos,rec.sender,.None⟩]) =
        held p st b pre+held p st b post +
          (held p st b [⟨relStart,relEnd,sender,.None⟩] +
            held p st b [⟨rec.startPos,relStart-1,rec.sender,.None⟩] +
            held p st b [⟨relEnd+1,rec.endPos,rec.sender,.None⟩]) := by
      simp only [held_append,held_cons,held_nil]
      omega
    rw [hnew,hold,held_split hrange ⟨hst,hleft,hright⟩]
    by_cases hc : st = .None ∧ relStart≤b ∧ b≤relEnd
    · -- inside the range no other pending record holds the byte
      have hone := honce b
      rw [held_append,held_cons,if_pos ⟨rfl,hst,by omega,by omega⟩] at hone
      have h1 : held p .None b pre≤_ := held_le_all pre
      have h2 : held p .None b post≤_ := held_le_all post
      rw [if_pos hc,if_pos hc,hc.1]
      omega
    · rw [if_neg hc,if_neg hc]
      omega

/-- Entering a range into a part whose bytes are pending once at most, when no pending record
of the same sender reaches over both its ends. -/
theorem transferInPart_entered (hrange : relStart≤relEnd) (hend : relEnd<PARTSIZE)
    {rs : List BlockRecord} (hwf : ∀ rec∈rs,rec.InPart) (honce : PendingOnce rs)
    (hown : ∀ rec∈rs,rec.Straddles relStart relEnd → rec.sender≠sender) :
    Entered relStart relEnd sender rs (transferInPart relStart relEnd sender rs) := by
  by_cases hs : ∃ rec∈rs, rec.Straddles relStart relEnd
  · obtain ⟨rec,hrec,hstr⟩ := hs
    have hother := hown rec hrec hstr
    obtain ⟨pre,post,rfl⟩ := List.append_of_mem hrec
    exact transferInPart_split hrange hwf honce hstr hother
  · exact transferInPart_trim hrange hend hwf fun rec hrec hstr => hs ⟨rec,hrec,hstr⟩

end Overlap

section Flip

variable {r : ByteRange}

theorem held_within (p : Address → Bool) (st : BlockRecordStatus) (b start stop : Nat)
    (rec : BlockRecord) :
    held p st b [{ rec with startPos := start, endPos := stop }] =
      if p rec.sender=true ∧ rec.status=st then (if start≤b ∧ b ≤ stop then 1 else 0)
      else 0 := by
  have hiff : ({ rec with startPos := start, endPos := stop } : BlockRecord).Holds p st b ↔
      (p rec.sender=true ∧ rec.status=st) ∧ start≤b ∧ b ≤ stop :=
    ⟨fun ⟨h1,h2,h3⟩ => ⟨⟨h1,h2⟩,h3⟩,fun ⟨⟨h1,h2⟩,h3⟩ => ⟨h1,h2,h3⟩⟩
  rw [held_cons,held_nil,Nat.add_zero]
  by_cases hc : p rec.sender=true ∧ rec.status=st
  · rw [if_pos hc]
    exact if_congr (hiff.trans (and_iff_right hc)) rfl rfl
  · rw [if_neg hc,if_neg fun h => hc (hiff.mp h).1]

variable {rec : BlockRecord}

/-- A record and the pieces it is cut into agree byte by byte, and only the cut record lies
inside the range. -/
theorem cutRecord_positions {cut : BlockRecord} {pieces : List BlockRecord} (hin : rec.InPart)
    (hcut : cutRecord r.start r.stop rec=some (cut, pieces)) :
    (∀ x∈cut::pieces, x.InPart ∧ x.sender=rec.sender ∧ x.status=rec.status) ∧
    (∀ b,cut.startPos≤b ∧ b≤cut.endPos ↔
      (r.start≤b ∧ b≤r.stop) ∧ rec.startPos≤b ∧ b≤rec.endPos) ∧
    ∀ p st b,held p st b pieces =
      if r.start≤b ∧ b≤r.stop then 0 else held p st b [rec] := by
  have hr := r.le
  obtain ⟨hle,hlt⟩ := hin
  have hrec := fun p st b => held_within p st b rec.startPos rec.endPos rec
  have htail := fun p st b => held_within p st b (r.stop+1) rec.endPos rec
  have hhead := fun p st b => held_within p st b rec.startPos (r.start-1) rec
  have hboth : ∀ (x y : BlockRecord) p st b,
      held p st b [x,y]=held p st b [x]+held p st b [y] := by simp
  unfold cutRecord at hcut
  split_ifs at hcut with h1 h2 h3 h4
  all_goals
    simp only [Option.some.injEq,Prod.mk.injEq] at hcut
    obtain ⟨rfl,rfl⟩ := hcut
  · -- entirely inside
    refine ⟨by simp [BlockRecord.InPart,hle,hlt],fun b => by omega,fun p st b => ?_⟩
    rw [hrec,held_nil]
    split_ifs <;> omega
  · -- cut in three
    refine ⟨?_,fun b => ?_,fun p st b => ?_⟩
    · simp only [List.mem_cons,List.not_mem_nil,or_false,forall_eq_or_imp,forall_eq,
        BlockRecord.InPart,and_true]
      omega
    · change r.start≤b ∧ b≤r.stop ↔ _
      omega
    · rw [hboth,htail,hhead,hrec]
      split_ifs <;> omega
  · -- the tail goes
    refine ⟨?_,fun b => ?_,fun p st b => ?_⟩
    · simp only [List.mem_cons,List.not_mem_nil,or_false,forall_eq_or_imp,forall_eq,
        BlockRecord.InPart,and_true]
      omega
    · change rec.startPos≤b ∧ b≤r.stop ↔ _
      omega
    · rw [htail,hrec]
      split_ifs <;> omega
  · -- the head goes
    refine ⟨?_,fun b => ?_,fun p st b => ?_⟩
    · simp only [List.mem_cons,List.not_mem_nil,or_false,forall_eq_or_imp,forall_eq,
        BlockRecord.InPart,and_true]
      omega
    · change r.start≤b ∧ b≤rec.endPos ↔ _
      omega
    · rw [hhead,hrec]
      split_ifs <;> omega

theorem cutRecord_none (hin : rec.InPart) (hcut : cutRecord r.start r.stop rec=none) :
    rec.endPos<r.start ∨ r.stop<rec.startPos := by
  unfold cutRecord at hcut
  split_ifs at hcut
  omega

/-- How often a byte is held once the pending records of the range have changed status. -/
def heldFlipped (r : ByteRange) (status : BlockRecordStatus) (p : Address → Bool)
    (st : BlockRecordStatus) (b : Nat) (rs : List BlockRecord) : Nat :=
  if r.start≤b ∧ b≤r.stop then
    if st = .None then 0 else held p st b rs+if st=status then held p .None b rs else 0
  else held p st b rs

theorem heldFlipped_append (status : BlockRecordStatus) (p : Address → Bool)
    (st : BlockRecordStatus) (b : Nat) (rs ts : List BlockRecord) :
    heldFlipped r status p st b (rs++ts) =
      heldFlipped r status p st b rs+heldFlipped r status p st b ts := by
  simp only [heldFlipped,held_append]
  split_ifs <;> omega

theorem heldFlipped_cons (status : BlockRecordStatus) (p : Address → Bool)
    (st : BlockRecordStatus) (b : Nat) (rec : BlockRecord) (rs : List BlockRecord) :
    heldFlipped r status p st b (rec::rs) =
      heldFlipped r status p st b [rec]+heldFlipped r status p st b rs :=
  heldFlipped_append status p st b [rec] rs

/-- Which statuses a flip takes up: the pending one, and the new one at most. -/
structure Flips (flips : BlockRecordStatus → Bool) (status : BlockRecordStatus) : Prop where
  pending : flips .None = true
  only : ∀ st, flips st = true → st = .None ∨ st = status
  ne : status ≠ .None

variable {flips : BlockRecordStatus → Bool} {status : BlockRecordStatus}

theorem heldFlipped_kept (h : rec.status ≠ .None ∨ rec.endPos<r.start ∨ r.stop<rec.startPos)
    (p : Address → Bool) (st : BlockRecordStatus) (b : Nat) :
    heldFlipped r status p st b [rec]=held p st b [rec] := by
  unfold heldFlipped
  by_cases hb : r.start≤b ∧ b≤r.stop
  · have hzero : held p .None b [rec]=0 := by
      refine held_eq_zero.mpr fun x hx hh => ?_
      obtain ⟨-,hst,hpos⟩ := List.mem_singleton.mp hx ▸ hh
      rcases h with h | h
      · exact h hst
      · omega
    rw [if_pos hb,hzero]
    split_ifs with hnone
    · rw [hnone,hzero]
    · rfl
    · rfl
  · rw [if_neg hb]

theorem heldFlipped_cut {cut : BlockRecord} {pieces : List BlockRecord}
    (hflips : Flips flips status) (hst : flips rec.status=true) (hin : rec.InPart)
    (hcut : cutRecord r.start r.stop rec=some (cut, pieces)) (p : Address → Bool)
    (st : BlockRecordStatus) (b : Nat) :
    held p st b [{ cut with status }]+heldFlipped r status p st b pieces =
      heldFlipped r status p st b [rec] := by
  obtain ⟨hall,hpos,hpieces⟩ := cutRecord_positions hin hcut
  have hsender : cut.sender=rec.sender := (hall cut List.mem_cons_self).2.1
  have hnew : held p st b [{ cut with status }] =
      if (r.start≤b ∧ b≤r.stop) ∧ st=status then held p rec.status b [rec] else 0 := by
    have hiff : ({ cut with status } : BlockRecord).Holds p st b ↔
        ((r.start≤b ∧ b≤r.stop) ∧ st=status) ∧ rec.Holds p rec.status b := by
      simp only [BlockRecord.Holds,hsender,hpos b]
      tauto
    rw [held_cons,held_nil,held_cons,held_nil,Nat.add_zero,Nat.add_zero]
    by_cases hc : (r.start≤b ∧ b≤r.stop) ∧ st=status
    · rw [if_pos hc]
      exact if_congr (hiff.trans (and_iff_right hc)) rfl rfl
    · rw [if_neg hc,if_neg fun h => hc (hiff.mp h).1]
  have hother : ∀ t,t≠rec.status → held p t b [rec]=0 := by
    intro t ht
    refine held_eq_zero.mpr fun x hx hh => ht ?_
    rw [List.mem_singleton.mp hx] at hh
    exact hh.2.1.symm
  rw [hnew,heldFlipped,heldFlipped,hpieces,hpieces]
  by_cases hb : r.start≤b ∧ b≤r.stop
  · rw [if_pos hb,if_pos hb,if_pos hb,if_pos hb]
    by_cases hs : st=status
    · have hne : st ≠ .None := hs ▸ hflips.ne
      rw [if_pos ⟨hb,hs⟩,if_neg hne,if_neg hne,if_pos hs,if_pos hs]
      rcases hflips.only rec.status hst with hr | hr
      · rw [hother st (hr ▸ hne),hr]
        omega
      · rw [hother .None (hr ▸ hflips.ne.symm),hs,hr]
    · rw [if_neg fun h => hs h.2,if_neg hs,if_neg hs,Nat.zero_add,Nat.add_zero,Nat.add_zero]
      by_cases hn : st = .None
      · rw [if_pos hn,if_pos hn]
      · rw [if_neg hn,if_neg hn,hother st]
        rintro rfl
        exact (hflips.only _ hst).elim hn hs
  · rw [if_neg fun h => hb h.1,if_neg hb,if_neg hb,if_neg hb,Nat.zero_add]

theorem flipLoop_held (hflips : Flips flips status) (done todo : List BlockRecord)
    (hwf : ∀ rec∈todo,rec.InPart) (p : Address → Bool) (st : BlockRecordStatus) (b : Nat) :
    held p st b (flipLoop r flips status done todo) =
      held p st b done+heldFlipped r status p st b todo := by
  fun_induction flipLoop r flips status done todo with
  | case1 done => simp [heldFlipped]
  | case2 done rec todo hst hcut ih =>
    obtain ⟨hrec,htodo⟩ := List.forall_mem_cons.mp hwf
    have hkept := @heldFlipped_kept r rec status (Or.inr (cutRecord_none hrec hcut)) p st b
    rw [ih htodo,held_append,← hkept,heldFlipped_cons status p st b rec todo,Nat.add_assoc]
  | case3 done rec todo hst cut pieces hcut ih =>
    obtain ⟨hrec,htodo⟩ := List.forall_mem_cons.mp hwf
    have hpieces := (cutRecord_positions hrec hcut).1
    have hnew := heldFlipped_cut hflips hst hrec hcut p st b
    have hin : ∀ x∈todo++pieces,x.InPart := by
      intro x hx
      rcases List.mem_append.mp hx with h | h
      · exact htodo x h
      · exact (hpieces x (List.mem_cons_of_mem cut h)).1
    rw [ih hin,held_append,heldFlipped_append,heldFlipped_cons,← hnew]
    omega
  | case4 done rec todo hst ih =>
    obtain ⟨-,htodo⟩ := List.forall_mem_cons.mp hwf
    have hne : rec.status ≠ .None := fun h => hst (h ▸ hflips.pending)
    have hkept := @heldFlipped_kept r rec status (Or.inl hne) p st b
    rw [ih htodo,held_append,← hkept,heldFlipped_cons status p st b rec todo,Nat.add_assoc]

theorem flipLoop_inPart (done todo : List BlockRecord) (hdone : ∀ rec∈done,rec.InPart)
    (hwf : ∀ rec∈todo,rec.InPart) :
    ∀ rec∈flipLoop r flips status done todo, rec.InPart := by
  have hsnoc : ∀ {done : List BlockRecord} {x : BlockRecord}, (∀ rec∈done,rec.InPart) →
      x.InPart → ∀ rec∈done++[x], rec.InPart := by
    intro done x hdone hx rec hrec
    rcases List.mem_append.mp hrec with h | h
    · exact hdone rec h
    · exact List.mem_singleton.mp h ▸ hx
  fun_induction flipLoop r flips status done todo with
  | case1 done => exact hdone
  | case2 done rec todo hst hcut ih =>
    obtain ⟨hrec,htodo⟩ := List.forall_mem_cons.mp hwf
    exact ih (hsnoc hdone hrec) htodo
  | case3 done rec todo hst cut pieces hcut ih =>
    obtain ⟨hrec,htodo⟩ := List.forall_mem_cons.mp hwf
    have hpieces := (cutRecord_positions hrec hcut).1
    refine ih (hsnoc hdone (hpieces cut List.mem_cons_self).1) fun x hx => ?_
    rcases List.mem_append.mp hx with h | h
    · exact htodo x h
    · exact (hpieces x (List.mem_cons_of_mem cut h)).1
  | case4 done rec todo hst ih =>
    obtain ⟨hrec,htodo⟩ := List.forall_mem_cons.mp hwf
    exact ih (hsnoc hdone hrec) htodo

end Flip

end EmuleQt.Client
