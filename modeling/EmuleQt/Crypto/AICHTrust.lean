import EmuleQt.Crypto.AICHHashSet
import Mathlib.Data.List.Nodup

namespace EmuleQt.Crypto

open Framework Net

/-- What voting is for: a voter stands for the first root it named. -/
def castVote {ρ κ : Type*} [DecidableEq κ] (ballot : κ → Option ρ) (root : ρ) (voter : κ) :
    κ → Option ρ :=
  Function.update ballot voter ((ballot voter).or (some root))

theorem castVote_eq_some {ρ κ : Type*} [DecidableEq κ] (ballot : κ → Option ρ) (root r : ρ)
    (voter v : κ) :
    castVote ballot root voter v=some r ↔
      ballot v=some r ∨ v=voter ∧ ballot voter=none ∧ root=r := by
  by_cases hv : v=voter
  · subst hv
    cases hb : ballot v <;> simp [castVote,hb]
  · simp [castVote,hv]

namespace AICHUntrustedHash

theorem addSigningIP_eq (uh : AICHUntrustedHash) (voter : Nat) :
    (uh.addSigningIP voter false).2 =
      ⟨uh.hash,if voter∈uh.signingIPs then uh.signingIPs else uh.signingIPs++[voter]⟩ := by
  by_cases h : voter∈uh.signingIPs <;> simp [addSigningIP,h]

@[simp] theorem addSigningIP_hash (uh : AICHUntrustedHash) (voter : Nat) :
    (uh.addSigningIP voter false).2.hash=uh.hash := by
  rw [addSigningIP_eq]

theorem mem_addSigningIP (uh : AICHUntrustedHash) (voter v : Nat) :
    v∈(uh.addSigningIP voter false).2.signingIPs ↔ v∈uh.signingIPs ∨ v=voter := by
  rw [addSigningIP_eq]
  by_cases h : voter∈uh.signingIPs
  · rw [if_pos h]
    exact ⟨Or.inl,fun hv => hv.elim id (fun hv => hv ▸ h)⟩
  · simp [h]

theorem addSigningIP_nodup (uh : AICHUntrustedHash) (voter : Nat) (h : uh.signingIPs.Nodup) :
    (uh.addSigningIP voter false).2.signingIPs.Nodup := by
  rw [addSigningIP_eq]
  by_cases hv : voter∈uh.signingIPs
  · rwa [if_pos hv]
  · rw [if_neg hv]
    exact h.append (List.nodup_singleton voter) (by simpa using hv)

end AICHUntrustedHash

namespace AICHRecoveryHashSet

/-- The vote given to the entry of its root. -/
def withVote (hash : AICHHash) (voter : Nat) (uh : AICHUntrustedHash) : AICHUntrustedHash :=
  if uh.hash=hash then (uh.addSigningIP voter false).2 else uh

@[simp] theorem withVote_hash (hash : AICHHash) (voter : Nat) (uh : AICHUntrustedHash) :
    (withVote hash voter uh).hash=uh.hash := by
  unfold withVote
  split_ifs <;> simp

theorem mem_withVote (hash : AICHHash) (voter v : Nat) (uh : AICHUntrustedHash) :
    v∈(withVote hash voter uh).signingIPs ↔
      v∈uh.signingIPs ∨ uh.hash=hash ∧ v=voter := by
  unfold withVote
  split_ifs with h
  · simp [AICHUntrustedHash.mem_addSigningIP,h]
  · simp [h]

theorem addVote_eq (hash : AICHHash) (voter : Nat) (uhs : List AICHUntrustedHash)
    (hn : (uhs.map (·.hash)).Nodup) :
    addVote hash voter uhs =
      (decide (hash∈uhs.map (·.hash)), uhs.map (withVote hash voter)) := by
  induction uhs with
  | nil => rfl
  | cons uh rest ih =>
    obtain ⟨hnot,hrest⟩ := List.nodup_cons.mp hn
    by_cases huh : uh.hash=hash
    · -- the roots differ, so the entries behind this one keep their votes
      have hsame : rest.map (withVote hash voter)=rest := by
        refine (List.map_congr_left fun vh hvh => ?_).trans (List.map_id rest)
        have hne : vh.hash≠hash := by
          intro hvhash
          exact hnot (List.mem_map.mpr ⟨vh,hvh,hvhash.trans huh.symm⟩)
        simp [withVote,hne]
      simp [addVote,huh,hsame,withVote]
    · have hne : hash≠uh.hash := fun h => huh h.symm
      simp [addVote,huh,hne,ih hrest,withVote]

theorem recordVote_eq (hash : AICHHash) (voter : Nat) (uhs : List AICHUntrustedHash)
    (hn : (uhs.map (·.hash)).Nodup) :
    recordVote hash voter uhs =
      uhs.map (withVote hash voter) ++
        if hash∈uhs.map (·.hash) then [] else [⟨hash,[voter]⟩] := by
  by_cases h : hash∈uhs.map (·.hash) <;>
    simp [recordVote,addVote_eq hash voter uhs hn,h,newEntry,AICHUntrustedHash.addSigningIP]

theorem mem_recordVote (hash : AICHHash) (voter : Nat) (uhs : List AICHUntrustedHash)
    (hn : (uhs.map (·.hash)).Nodup) (root : AICHHash) (v : Nat) :
    (∃ uh∈recordVote hash voter uhs, uh.hash=root ∧ v∈uh.signingIPs) ↔
      (∃ uh∈uhs, uh.hash=root ∧ v∈uh.signingIPs) ∨ root=hash ∧ v=voter := by
  have hmap : (∃ uh∈uhs.map (withVote hash voter), uh.hash=root ∧ v∈uh.signingIPs) ↔
      ∃ uh∈uhs, uh.hash=root ∧ (v∈uh.signingIPs ∨ uh.hash=hash ∧ v=voter) := by
    simp [mem_withVote]
  rw [recordVote_eq hash voter uhs hn]
  by_cases h : hash∈uhs.map (·.hash)
  · rw [if_pos h,List.append_nil,hmap]
    obtain ⟨vh,hvh,hvhash⟩ := List.mem_map.mp h
    constructor
    · rintro ⟨uh,hu,rfl,hv | ⟨heq,rfl⟩⟩
      · exact Or.inl ⟨uh,hu,rfl,hv⟩
      · exact Or.inr ⟨heq,rfl⟩
    · rintro (⟨uh,hu,hr,hv⟩ | ⟨rfl,rfl⟩)
      · exact ⟨uh,hu,hr,Or.inl hv⟩
      · exact ⟨vh,hvh,hvhash,Or.inr ⟨hvhash,rfl⟩⟩
  · have hnone : ∀ uh∈uhs,uh.hash≠hash := fun uh hu heq => h (List.mem_map.mpr ⟨uh,hu,heq⟩)
    rw [if_neg h]
    simp only [List.mem_append,List.mem_singleton,or_and_right,exists_or,exists_eq_left]
    rw [hmap]
    constructor
    · rintro (⟨uh,hu,rfl,hv | ⟨heq,-⟩⟩ | ⟨rfl,hv⟩)
      · exact Or.inl ⟨uh,hu,rfl,hv⟩
      · exact absurd heq (hnone uh hu)
      · exact Or.inr ⟨rfl,hv⟩
    · rintro (⟨uh,hu,hr,hv⟩ | ⟨rfl,rfl⟩)
      · exact Or.inl ⟨uh,hu,hr,Or.inl hv⟩
      · exact Or.inr ⟨rfl,rfl⟩

/-- The entries hold exactly the ballot: the roots differ and no voter is listed twice. -/
structure Records (ballot : Nat → Option AICHHash) (uhs : List AICHUntrustedHash) : Prop where
  roots : (uhs.map (·.hash)).Nodup
  voters : ∀ uh ∈ uhs, uh.signingIPs.Nodup
  mem : ∀ root v, ballot v = some root ↔ ∃ uh ∈ uhs, uh.hash = root ∧ v ∈ uh.signingIPs

theorem records_nil : Records (fun _ => none) [] :=
  ⟨List.nodup_nil,by simp,by simp⟩

variable {ballot : Nat → Option AICHHash} {uhs : List AICHUntrustedHash} {s : AICHRecoveryHashSet}

theorem Records.unique (h : Records ballot uhs) {uh vh : AICHUntrustedHash} (hu : uh∈uhs)
    (hv : vh∈uhs) {voter : Nat} (huv : voter∈uh.signingIPs) (hvv : voter∈vh.signingIPs) :
    uh=vh := by
  have h1 := (h.mem uh.hash voter).mpr ⟨uh,hu,rfl,huv⟩
  have h2 := (h.mem vh.hash voter).mpr ⟨vh,hv,rfl,hvv⟩
  have hroot : uh.hash=vh.hash := Option.some_inj.mp (h1.symm.trans h2)
  exact List.inj_on_of_nodup_map h.roots hu hv hroot

theorem Records.votes_nodup (h : Records ballot uhs) : (uhs.flatMap (·.signingIPs)).Nodup := by
  refine List.nodup_flatMap.mpr ⟨h.voters,?_⟩
  refine (List.pairwise_map.mp h.roots).imp_of_mem fun hu hv hne => ?_
  intro voter huv hvv
  exact hne (congrArg (·.hash) (h.unique hu hv huv hvv))

theorem Records.recordVote (h : Records ballot uhs) (hash : AICHHash) (voter : Nat)
    (hfree : ∀ uh∈uhs,uh.hash≠hash → voter∉uh.signingIPs) :
    Records (castVote ballot hash voter) (recordVote hash voter uhs) := by
  have hballot : ∀ root,ballot voter=some root → root=hash := by
    intro root hroot
    obtain ⟨uh,hu,rfl,hv⟩ := (h.mem root voter).mp hroot
    by_contra hne
    exact hfree uh hu hne hv
  constructor
  · rw [recordVote_eq hash voter uhs h.roots]
    have hroots : (uhs.map (withVote hash voter)).map (·.hash)=uhs.map (·.hash) := by
      simp [Function.comp_def]
    by_cases hm : hash∈uhs.map (·.hash)
    · rw [if_pos hm,List.append_nil,hroots]
      exact h.roots
    · rw [if_neg hm,List.map_append,hroots]
      exact h.roots.append (List.nodup_singleton hash) (by simpa using hm)
  · intro uh hu
    rw [recordVote_eq hash voter uhs h.roots,List.mem_append] at hu
    rcases hu with hu | hu
    · obtain ⟨vh,hvh,rfl⟩ := List.mem_map.mp hu
      unfold withVote
      split_ifs
      · exact vh.addSigningIP_nodup voter (h.voters vh hvh)
      · exact h.voters vh hvh
    · split_ifs at hu
      · cases hu
      · rw [List.mem_singleton.mp hu]
        exact List.nodup_singleton voter
  · intro root v
    rw [mem_recordVote hash voter uhs h.roots,castVote_eq_some,h.mem]
    constructor
    · rintro (hv | ⟨rfl,-,rfl⟩)
      · exact Or.inl hv
      · exact Or.inr ⟨rfl,rfl⟩
    · rintro (hv | ⟨rfl,rfl⟩)
      · exact Or.inl hv
      · cases hb : ballot v with
        | none => exact Or.inr ⟨rfl,rfl,rfl⟩
        | some r =>
          have hr := hballot r hb
          exact Or.inl ((h.mem root v).mp (hr ▸ hb))

theorem tally_total (t : Tally) (uhs : List AICHUntrustedHash) :
    (tally t uhs).totalSigningIPs =
      t.totalSigningIPs+(uhs.map (·.signingIPs.length)).sum := by
  induction uhs generalizing t with
  | nil => rfl
  | cons uh rest ih =>
    rw [tally]
    split_ifs <;> rw [ih,List.map_cons,List.sum_cons,Nat.add_assoc]

theorem tally_most (t : Tally) (uhs : List AICHUntrustedHash) :
    t.mostTrustedIPs≤(tally t uhs).mostTrustedIPs ∧
      ∀ uh∈uhs,uh.signingIPs.length≤(tally t uhs).mostTrustedIPs := by
  induction uhs generalizing t with
  | nil => simp [tally]
  | cons uh rest ih =>
    rw [tally]
    split_ifs with h
    · obtain ⟨hfirst,hrest⟩ := ih ⟨t.totalSigningIPs+uh.signingIPs.length,
        uh.signingIPs.length,some uh.hash⟩
      exact ⟨Nat.le_trans (Nat.le_of_lt h) hfirst,List.forall_mem_cons.mpr ⟨hfirst,hrest⟩⟩
    · obtain ⟨hfirst,hrest⟩ :=
        ih { t with totalSigningIPs := t.totalSigningIPs+uh.signingIPs.length }
      exact ⟨hfirst,List.forall_mem_cons.mpr ⟨Nat.le_trans (Nat.not_lt.mp h) hfirst,hrest⟩⟩

theorem tally_winner (t : Tally) (uhs : List AICHUntrustedHash) :
    ((tally t uhs).mostTrusted=t.mostTrusted ∧
        (tally t uhs).mostTrustedIPs=t.mostTrustedIPs) ∨
      ∃ uh∈uhs, (tally t uhs).mostTrusted=some uh.hash ∧
        (tally t uhs).mostTrustedIPs=uh.signingIPs.length := by
  induction uhs generalizing t with
  | nil => exact Or.inl ⟨rfl,rfl⟩
  | cons uh rest ih =>
    rw [tally]
    split_ifs with h
    · rcases ih ⟨t.totalSigningIPs+uh.signingIPs.length,uh.signingIPs.length,
        some uh.hash⟩ with ⟨h1,h2⟩ | ⟨vh,hv,h1,h2⟩
      · exact Or.inr ⟨uh,List.mem_cons_self,h1,h2⟩
      · exact Or.inr ⟨vh,List.mem_cons_of_mem uh hv,h1,h2⟩
    · rcases ih { t with totalSigningIPs := t.totalSigningIPs+uh.signingIPs.length } with
        h1 | ⟨vh,hv,h1,h2⟩
      · exact Or.inl h1
      · exact Or.inr ⟨vh,List.mem_cons_of_mem uh hv,h1,h2⟩

/-- All recorded votes. -/
def votes (s : AICHRecoveryHashSet) : List Nat := s.untrustedHashes.flatMap (·.signingIPs)

def MostVoted (s : AICHRecoveryHashSet) (root : AICHHash) : Prop :=
  ∃ uh∈s.untrustedHashes, uh.hash=root ∧
    ∀ vh∈s.untrustedHashes, vh.signingIPs.length≤uh.signingIPs.length

def EnoughVotes (s : AICHRecoveryHashSet) (root : AICHHash) : Prop :=
  ∃ uh∈s.untrustedHashes, uh.hash=root ∧ 10≤uh.signingIPs.length ∧
    92≤100*uh.signingIPs.length/s.votes.length

theorem votes_length (s : AICHRecoveryHashSet) :
    s.votes.length=(tally ⟨0,0,none⟩ s.untrustedHashes).totalSigningIPs := by
  rw [tally_total,Nat.zero_add,votes,List.length_flatMap]

theorem tally_mostVoted (s : AICHRecoveryHashSet) (hv : s.votes≠[]) :
    ∃ uh∈s.untrustedHashes,
      (tally ⟨0,0,none⟩ s.untrustedHashes).mostTrusted=some uh.hash ∧
      (tally ⟨0,0,none⟩ s.untrustedHashes).mostTrustedIPs=uh.signingIPs.length ∧
      ∀ vh∈s.untrustedHashes,vh.signingIPs.length≤uh.signingIPs.length := by
  have hmost := (tally_most ⟨0,0,none⟩ s.untrustedHashes).2
  rcases tally_winner ⟨0,0,none⟩ s.untrustedHashes with ⟨-,hzero⟩ | ⟨uh,hu,hroot,hips⟩
  · -- no winner means that no entry has a vote
    obtain ⟨v,hmem⟩ := List.exists_mem_of_ne_nil _ hv
    obtain ⟨vh,hvh,hvote⟩ := List.mem_flatMap.mp hmem
    have hlen : vh.signingIPs.length≤0 := (hmost vh hvh).trans_eq hzero
    exact absurd (List.length_pos_of_mem hvote) (Nat.not_lt.mpr hlen)
  · exact ⟨uh,hu,hroot,hips,fun vh hvh => hips ▸ hmost vh hvh⟩

@[simp] theorem changeMaster_untrustedHashes (s : AICHRecoveryHashSet) (hash : AICHHash)
    (status : EAICHStatus) :
    (s.changeMaster hash status).untrustedHashes=s.untrustedHashes := by
  dsimp only [changeMaster]
  split_ifs <;> rfl

@[simp] theorem changeMaster_status (s : AICHRecoveryHashSet) (hash : AICHHash)
    (status : EAICHStatus) : (s.changeMaster hash status).status=status := by
  dsimp only [changeMaster]
  split_ifs <;> rfl

theorem changeMaster_master (s : AICHRecoveryHashSet) (hash : AICHHash) (status : EAICHStatus) :
    (s.changeMaster hash status).hasValidMasterHash=true ∧
      (s.changeMaster hash status).getMasterHash=hash := by
  dsimp only [changeMaster]
  split_ifs with h
  · exact ⟨rfl,rfl⟩
  · simpa [setStatus,hasValidMasterHash,getMasterHash] using h

theorem evaluateTrust_cases (s : AICHRecoveryHashSet) (hv : s.votes≠[]) :
    ∃ root, MostVoted s root ∧
      (EnoughVotes s root ∧ s.evaluateTrust=s.changeMaster root .Trusted ∨
        s.evaluateTrust=s.changeMaster root .Untrusted) := by
  obtain ⟨uh,hu,hroot,hips,hmost⟩ := tally_mostVoted s hv
  have htotal : s.votes.length≠0 := fun h => hv (List.length_eq_zero_iff.mp h)
  refine ⟨uh.hash,⟨uh,hu,rfl,hmost⟩,?_⟩
  simp only [evaluateTrust,hroot,hips,← votes_length,if_neg htotal]
  split_ifs with h
  · exact Or.inl ⟨⟨uh,hu,rfl,h.1,h.2⟩,rfl⟩
  · exact Or.inr rfl

/-- What holds in every state the votes can reach. -/
structure Voting (s : AICHRecoveryHashSet) (ballot : Nat → Option AICHHash) : Prop where
  records : Records ballot s.untrustedHashes
  status : s.status = .Empty ∨ s.status = .Untrusted ∨ s.status = .Trusted
  untrusted : s.status = .Untrusted → s.hasValidMasterHash=true ∧ MostVoted s s.getMasterHash
  trusted : s.status = .Trusted → s.hasValidMasterHash=true

theorem vote_cases (s : AICHRecoveryHashSet) (ballot : Nat → Option AICHHash)
    (h : Voting s ballot) (call : AICHHash × Address) :
    let voter := AICHUntrustedHash.voterKey call.2
    let voted := { s with untrustedHashes := recordVote call.1 voter s.untrustedHashes }
    (s.vote call=s ∧ castVote ballot call.1 voter=ballot) ∨
      (Records (castVote ballot call.1 voter) voted.untrustedHashes ∧ voted.votes≠[] ∧
        (s.status = .Trusted ∧ s.vote call=voted ∨
          s.status ≠ .Trusted ∧ s.vote call=voted.evaluateTrust)) := by
  obtain ⟨hash,sender⟩ := call
  intro voter voted
  have hstatus : ¬(s.status ≠ .Empty ∧ s.status ≠ .Untrusted ∧ s.status ≠ .Trusted) := by
    rcases h.status with hs | hs | hs <;> simp [hs]
  by_cases hdup : s.untrustedHashes.any
      (fun uh => uh.hash≠hash && !(uh.addSigningIP voter true).1)=true
  · left
    constructor
    · simp only [vote,untrustedHashReceived,if_neg hstatus]
      exact if_pos hdup
    · obtain ⟨uh,hu,hvote⟩ := List.any_eq_true.mp hdup
      have hmem : voter∈uh.signingIPs := by
        by_contra hnot
        simp [AICHUntrustedHash.addSigningIP,hnot] at hvote
      have hb : ballot voter=some uh.hash := (h.records.mem uh.hash voter).mpr ⟨uh,hu,rfl,hmem⟩
      funext v
      by_cases hv : v=voter
      · simp [castVote,hv,hb]
      · simp [castVote,hv]
  · right
    have hfree : ∀ uh∈s.untrustedHashes,uh.hash≠hash → voter∉uh.signingIPs := by
      intro uh hu hne hmem
      refine hdup (List.any_eq_true.mpr ⟨uh,hu,?_⟩)
      simp [AICHUntrustedHash.addSigningIP,hmem,hne]
    have hrec := h.records.recordVote hash voter hfree
    refine ⟨hrec,?_,?_⟩
    · obtain ⟨uh,hu,-,hmem⟩ :=
        (mem_recordVote hash voter s.untrustedHashes h.records.roots hash voter).mpr
          (Or.inr ⟨rfl,rfl⟩)
      exact List.ne_nil_of_mem (List.mem_flatMap.mpr ⟨uh,hu,hmem⟩)
    · have hvote : s.vote (hash, sender) =
          if s.status = .Trusted ∧ s.hasValidMasterHash=true then voted
          else voted.evaluateTrust := by
        simp only [vote,untrustedHashReceived,if_neg hstatus]
        exact if_neg hdup
      by_cases ht : s.status = .Trusted
      · rw [if_pos ⟨ht,h.trusted ht⟩] at hvote
        exact Or.inl ⟨ht,hvote⟩
      · rw [if_neg fun hand => ht hand.1] at hvote
        exact Or.inr ⟨ht,hvote⟩

theorem vote_voting (s : AICHRecoveryHashSet) (ballot : Nat → Option AICHHash)
    (call : AICHHash × Address) (h : Voting s ballot) :
    Voting (s.vote call) (castVote ballot call.1 (AICHUntrustedHash.voterKey call.2)) := by
  rcases vote_cases s ballot h call with ⟨heq,hb⟩ | ⟨hrec,hv,⟨ht,heq⟩ | ⟨-,heq⟩⟩
  · rwa [heq,hb]
  · rw [heq]
    exact ⟨hrec,Or.inr (Or.inr ht),fun hu => (by simp [ht] at hu),fun _ => h.trusted ht⟩
  · rw [heq]
    obtain ⟨root,hmost,⟨-,hev⟩ | hev⟩ := evaluateTrust_cases _ hv
    · rw [hev]
      exact ⟨by rwa [changeMaster_untrustedHashes],by simp,by simp,
        fun _ => (changeMaster_master _ root .Trusted).1⟩
    · obtain ⟨hvalid,hmaster⟩ := changeMaster_master
        { s with untrustedHashes := recordVote call.1 (AICHUntrustedHash.voterKey call.2)
                                      s.untrustedHashes } root .Untrusted
      rw [hev]
      refine ⟨by rwa [changeMaster_untrustedHashes],by simp,fun _ => ⟨hvalid,?_⟩,by simp⟩
      rw [hmaster]
      simpa only [MostVoted,changeMaster_untrustedHashes] using hmost

/-- The voter the call stands for, cast into the ballot. -/
def castCall (ballot : Nat → Option AICHHash) (call : AICHHash × Address) :
    Nat → Option AICHHash :=
  castVote ballot call.1 (AICHUntrustedHash.voterKey call.2)

theorem voting_run (hs : s.status = .Empty) (hu : s.untrustedHashes=[])
    (calls : List (AICHHash × Address)) :
    Voting (run vote s calls) (run castCall (fun _ => none) calls) := by
  have hstart : Voting s (fun _ => none) :=
    ⟨hu ▸ records_nil,Or.inl hs,by simp [hs],by simp [hs]⟩
  exact run_simulation (fun s ballot call h _ => vote_voting s ballot call h) hstart
    (along_true vote s calls)

theorem trusted_run (h : Voting s ballot) (ht : s.status = .Trusted)
    (calls : List (AICHHash × Address)) :
    (run vote s calls).status = .Trusted ∧ (run vote s calls).root=s.root := by
  induction calls generalizing s ballot with
  | nil => exact ⟨ht,rfl⟩
  | cons call calls ih =>
    have hkeep : (s.vote call).status = .Trusted ∧ (s.vote call).root=s.root := by
      rcases vote_cases s ballot h call with ⟨heq,-⟩ | ⟨-,-,⟨-,heq⟩ | ⟨hne,-⟩⟩
      · rw [heq]
        exact ⟨ht,rfl⟩
      · rw [heq]
        exact ⟨ht,rfl⟩
      · exact absurd ht hne
    obtain ⟨hstatus,hroot⟩ := ih (vote_voting s ballot call h) hkeep.1
    exact ⟨hstatus,hroot.trans hkeep.2⟩

theorem vote_becomes_trusted (h : Voting s ballot) (call : AICHHash × Address)
    (hs : s.status ≠ .Trusted) (ht : (s.vote call).status = .Trusted) :
    EnoughVotes (s.vote call) (s.vote call).getMasterHash := by
  rcases vote_cases s ballot h call with ⟨heq,-⟩ | ⟨-,hv,⟨hst,-⟩ | ⟨-,heq⟩⟩
  · exact absurd (heq ▸ ht) hs
  · exact absurd hst hs
  · obtain ⟨root,-,⟨henough,hev⟩ | hev⟩ := evaluateTrust_cases _ hv
    · rw [heq,hev,(changeMaster_master _ root .Trusted).2]
      simpa only [EnoughVotes,votes,changeMaster_untrustedHashes] using henough
    · rw [heq,hev,changeMaster_status] at ht
      cases ht

/-- Over every order of votes from an Empty set: one root per voter, trust only on enough
votes, trust kept, and the most voted root as master until then. -/
theorem untrustedHashReceived_correct (s : AICHRecoveryHashSet) (hs : s.status = .Empty)
    (hu : s.untrustedHashes = []) (calls : List (AICHHash × Address)) :
    let t := run vote s calls
    (∀ uh∈t.untrustedHashes,∀ vh∈t.untrustedHashes,∀ voter,
      voter∈uh.signingIPs → voter∈vh.signingIPs → uh=vh) ∧
    (t.untrustedHashes.map (·.hash)).Nodup ∧ t.votes.Nodup ∧
    (∀ call,t.status ≠ .Trusted → (t.vote call).status = .Trusted →
      (t.vote call).hasValidMasterHash=true ∧
        EnoughVotes (t.vote call) (t.vote call).getMasterHash) ∧
    (t.status = .Trusted → ∀ later,(run vote t later).status = .Trusted ∧
      (run vote t later).hasValidMasterHash=true ∧
        (run vote t later).getMasterHash=t.getMasterHash) ∧
    (t.status = .Untrusted → t.hasValidMasterHash=true ∧ MostVoted t t.getMasterHash) := by
  intro t
  have ht := voting_run hs hu calls
  refine ⟨fun uh hu vh hv voter => ht.records.unique hu hv,ht.records.roots,
    ht.records.votes_nodup,?_,?_,ht.untrusted⟩
  · intro call hnot hcall
    exact ⟨(vote_voting t _ call ht).trusted hcall,vote_becomes_trusted ht call hnot hcall⟩
  · intro htrusted later
    obtain ⟨hstatus,hroot⟩ := trusted_run ht htrusted later
    refine ⟨hstatus,?_,?_⟩
    · rw [hasValidMasterHash,hroot]
      exact ht.trusted htrusted
    · rw [getMasterHash,hroot,getMasterHash]

/-- Two voters of different networks, the second of them twice. -/
def twoVoters : List (AICHHash × Address) :=
  [(default, .ipv4 0x01000001),(default, .ipv4 0x02000001),(default, .ipv4 0x02000002)]

theorem untrustedHashReceived_correct_twoVoters :
    (run vote (create 0) twoVoters).votes = [1, 2] ∧
      (run vote (create 0) twoVoters).votes.Nodup ∧
      MostVoted (run vote (create 0) twoVoters) default :=
  have h := untrustedHashReceived_correct (create 0) (by decide) (by decide) twoVoters
  ⟨by decide,h.2.2.1,(h.2.2.2.2.2 (by decide)).2⟩

end AICHRecoveryHashSet

end EmuleQt.Crypto
