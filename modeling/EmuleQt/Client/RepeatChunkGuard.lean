import EmuleQt.Client.PairEntry
import EmuleQt.Utils.Opcodes

namespace EmuleQt.Client

open Crypto Framework Math Math.Span Utils

def kMaxEntries : Nat := 500

/-- Payload of a file that went out to a peer; no file that is shared or loaded is larger. -/
structure SentPayload where
  userHash : Option (Digest 16)
  fileHash : Option (Digest 16)
  fileSize : Nat
  start : Nat
  stop : Nat
  fileSize_le : fileSize ≤ MAX_EMULE_FILE_SIZE

def toUInt32 (n : Nat) : Nat := n%2^32

def partStart (start : Nat) : Nat := start / PARTSIZE * PARTSIZE

def partEnd (fileSize start : Nat) : Nat := min (partStart start + PARTSIZE) fileSize

theorem lt_pieceEnd {start stop fileSize : Nat} (hstart : start<stop) (hstop : stop≤fileSize) :
    start < min stop (partEnd fileSize start) := by
  have hpart : start<partStart start+PARTSIZE := Nat.lt_div_mul_add PARTSIZE_pos
  unfold partEnd
  omega

/-- The loop of `noteSent`: a block may cross a part boundary. -/
def piecesFrom (fileSize stop : Nat) (hstop : stop≤fileSize) (start : Nat) : List Piece :=
  if _h : start<stop then
    let pieceEnd := min stop (partEnd fileSize start)
    ⟨toUInt32 (start/PARTSIZE),toUInt32 (partEnd fileSize start-partStart start),
      toUInt32 (start-partStart start),toUInt32 (pieceEnd-partStart start)⟩ ::
        piecesFrom fileSize stop hstop pieceEnd
  else []
termination_by stop-start
decreasing_by exact Nat.sub_lt_sub_left _h (lt_pieceEnd _h hstop)

abbrev RepeatChunkGuard := LruTable PairEntry PairKey

namespace SentPayload

variable {c : SentPayload} {k : PairKey} {p : Nat}

/-- The payload is one that is noted, for this pair. -/
def Counts (k : PairKey) (c : SentPayload) : Prop :=
  c.userHash = some k.1 ∧ c.fileHash = some k.2 ∧ c.start < c.stop ∧ c.stop ≤ c.fileSize

instance instDecidableCounts (k : PairKey) (c : SentPayload) : Decidable (c.Counts k) :=
  inferInstanceAs (Decidable (_ ∧ _ ∧ _ ∧ _))

def pieces (c : SentPayload) : List Piece :=
  if h : c.stop ≤ c.fileSize then piecesFrom c.fileSize c.stop h c.start else []

/-- The payload has bytes of the part. -/
def SendsIn (k : PairKey) (p : Nat) (c : SentPayload) : Prop :=
  c.Counts k ∧ c.start<p*PARTSIZE+PARTSIZE ∧ p*PARTSIZE<c.stop

instance instDecidableSendsIn (k : PairKey) (p : Nat) (c : SentPayload) :
    Decidable (c.SendsIn k p) := inferInstanceAs (Decidable (_ ∧ _ ∧ _))

/-- Where in the part the bytes of the payload are. -/
def sentOf (p : Nat) (c : SentPayload) : Set Nat :=
  {o | o<PARTSIZE ∧ c.start≤p*PARTSIZE+o ∧ p*PARTSIZE+o<c.stop}

def partLen (p : Nat) (fileSize : Nat) : Nat := min PARTSIZE (fileSize - p * PARTSIZE)

end SentPayload

namespace RepeatChunkGuard

def noteSent (g : RepeatChunkGuard) (c : SentPayload) : RepeatChunkGuard :=
  match c.userHash, c.fileHash with
  | some user, some file =>
    if h : c.start < c.stop ∧ c.stop ≤ c.fileSize then
      (g.touch PairEntry.key PairEntry.fresh kMaxEntries (user, file)).modifyFront fun e =>
        run PairEntry.addPiece e (piecesFrom c.fileSize c.stop h.2 c.start)
    else g
  | _, _ => g

def deliveries (g : RepeatChunkGuard) (userHash fileHash : Option (Digest 16)) (offset : Nat) :
    Nat :=
  match userHash, fileHash with
  | some user, some file =>
    match g.find PairEntry.key (user, file) with
    | none => 0
    | some e => e.delivered.getD (offset / PARTSIZE) 0
  | _, _ => 0

end RepeatChunkGuard

/-! # The pieces of a payload -/

open SentPayload

theorem toUInt32_of_le {n m : Nat} (h : n ≤ m) (hm : m<2^32) : toUInt32 n=n :=
  Nat.mod_eq_of_lt (Nat.lt_of_le_of_lt h hm)

theorem partStart_le (start : Nat) : partStart start ≤ start := Nat.div_mul_le_self start PARTSIZE

theorem lt_partStart_add (start : Nat) : start<partStart start+PARTSIZE :=
  Nat.lt_div_mul_add PARTSIZE_pos

theorem min_add_sub (base len size : Nat) :
    min (base+len) size-base=min len (size-base) := by omega

theorem filter_piecesFrom {fileSize stop : Nat} (hsize : fileSize≤MAX_EMULE_FILE_SIZE)
    (hstop : stop≤fileSize) (start p : Nat) :
    (piecesFrom fileSize stop hstop start).filter (fun pc => decide (pc.part=p)) =
      if max start (p*PARTSIZE) < min stop (p*PARTSIZE+PARTSIZE) then
        [⟨p,partLen p fileSize,max start (p*PARTSIZE)-p*PARTSIZE,
          min stop (p*PARTSIZE+PARTSIZE)-p*PARTSIZE⟩]
      else [] := by
  fun_induction piecesFrom with
  | case1 start hstart pieceEnd ih =>
    have hfrom := partStart_le start
    have hnext := lt_partStart_add start
    have hpieceEnd : pieceEnd=min stop (partStart start+PARTSIZE) := by
      unfold pieceEnd partEnd
      omega
    have hlen : partEnd fileSize start-partStart start≤PARTSIZE := by
      unfold partEnd
      omega
    have hoffset : start-partStart start≤PARTSIZE := by omega
    have hend : pieceEnd-partStart start≤PARTSIZE := by omega
    have hsize' : start≤MAX_EMULE_FILE_SIZE := by omega
    rw [List.filter_cons,ih,toUInt32_of_le (Nat.div_le_div_right hsize') (by decide),
      toUInt32_of_le hlen (by decide),toUInt32_of_le hoffset (by decide),
      toUInt32_of_le hend (by decide)]
    by_cases hp : start/PARTSIZE=p
    · have hbase : p*PARTSIZE=partStart start := by
        rw [← hp]
        rfl
      rw [if_pos (decide_eq_true hp),hbase,if_neg (by omega),if_pos (by omega),hp]
      congr 2
      · unfold partLen partEnd
        rw [hbase]
        exact min_add_sub _ _ _
      · omega
      · omega
    · rw [if_neg (by simpa using hp)]
      -- The part of the first piece lies before or after the part asked for.
      have hapart : p*PARTSIZE+PARTSIZE≤partStart start ∨
          partStart start+PARTSIZE≤p*PARTSIZE := by
        unfold partStart
        rw [← Nat.succ_mul,← Nat.succ_mul]
        exact (Nat.lt_or_gt_of_ne hp).symm.imp (Nat.mul_le_mul_right _) (Nat.mul_le_mul_right _)
      rcases hapart with hbefore | hafter
      · rw [if_neg (by omega),if_neg (by omega)]
      · have hmax : max pieceEnd (p*PARTSIZE)=max start (p*PARTSIZE) := by omega
        rw [hmax]
  | case2 start hstart =>
    rw [if_neg (by omega)]
    rfl

namespace SentPayload

variable {c : SentPayload} {k : PairKey} {p : Nat}

theorem counts_unique {k' : PairKey} (h : c.Counts k) (h' : c.Counts k') : k=k' :=
  Prod.ext (Option.some.inj (h.1.symm.trans h'.1)) (Option.some.inj (h.2.1.symm.trans h'.2.1))

theorem pieces_eq (h : c.Counts k) :
    c.pieces=piecesFrom c.fileSize c.stop h.2.2.2 c.start := dif_pos h.2.2.2

theorem filter_pieces (h : c.Counts k) :
    c.pieces.filter (fun pc => decide (pc.part=p)) =
      if c.SendsIn k p then
        [⟨p,partLen p c.fileSize,max c.start (p*PARTSIZE)-p*PARTSIZE,
          min c.stop (p*PARTSIZE+PARTSIZE)-p*PARTSIZE⟩]
      else [] := by
  rw [pieces_eq h,filter_piecesFrom c.fileSize_le]
  have hstart := h.2.2.1
  have hpart := PARTSIZE_pos
  have hiff : max c.start (p*PARTSIZE) < min c.stop (p*PARTSIZE+PARTSIZE) ↔
      c.SendsIn k p := by
    constructor
    · intro hlt
      exact ⟨h,by omega,by omega⟩
    · rintro ⟨-,hbefore,hafter⟩
      omega
  exact if_congr hiff rfl rfl

theorem mem_pieces (h : c.Counts k) {pc : Piece} (hpc : pc∈c.pieces) :
    c.SendsIn k pc.part ∧ pc.partLen=partLen pc.part c.fileSize ∧
      Set.Ico pc.start pc.stop=c.sentOf pc.part := by
  have hmem : pc∈c.pieces.filter fun q => decide (q.part=pc.part) :=
    List.mem_filter.mpr ⟨hpc,decide_eq_true rfl⟩
  rw [filter_pieces h] at hmem
  split_ifs at hmem with hsends
  · have heq := List.mem_singleton.mp hmem
    refine ⟨hsends,congrArg Piece.partLen heq,?_⟩
    have hstart : pc.start=max c.start (pc.part*PARTSIZE)-pc.part*PARTSIZE :=
      congrArg Piece.start heq
    have hstop : pc.stop=min c.stop (pc.part*PARTSIZE+PARTSIZE)-pc.part*PARTSIZE :=
      congrArg Piece.stop heq
    ext o
    rw [Set.mem_Ico,hstart,hstop]
    change _ ↔ o<PARTSIZE ∧ c.start≤pc.part*PARTSIZE+o ∧ pc.part*PARTSIZE+o<c.stop
    omega
  · cases hmem

theorem SendsIn.lt (h : c.SendsIn k p) : 0<partLen p c.fileSize ∧
    ∃ o, o∈c.sentOf p := by
  obtain ⟨⟨-,-,hlt,hle⟩,hbefore,hafter⟩ := h
  have hpart := PARTSIZE_pos
  constructor
  · unfold partLen
    omega
  · refine ⟨max c.start (p*PARTSIZE)-p*PARTSIZE,?_,?_,?_⟩ <;> omega

theorem pieces_nonempty (h : c.Counts k) :
    ∀ pc∈c.pieces,0<pc.partLen ∧ pc.start<pc.stop := by
  intro pc hpc
  obtain ⟨hsends,hlen,hsent⟩ := mem_pieces h hpc
  obtain ⟨hpos,o,ho⟩ := hsends.lt
  rw [← hsent] at ho
  exact ⟨by rw [hlen]; exact hpos,Nat.lt_of_le_of_lt ho.1 ho.2⟩

end SentPayload

namespace RepeatChunkGuard

variable {g : RepeatChunkGuard} {c : SentPayload} {k k' : PairKey} {p : Nat}

/-- The entry of a pair, a fresh one where there is none. -/
def entry (k : PairKey) (g : RepeatChunkGuard) : PairEntry :=
  (g.find PairEntry.key k).getD (.fresh k)

theorem deliveries_eq (g : RepeatChunkGuard) (user file : Digest 16) (offset : Nat) :
    g.deliveries (some user) (some file) offset =
      (g.entry (user, file)).deliveredOf (offset/PARTSIZE) := by
  unfold deliveries entry
  dsimp only
  cases g.find PairEntry.key (user, file) <;> rfl

/-- Index and list hold the same pairs, and every entry is in order. -/
structure Sound (g : RepeatChunkGuard) : Prop where
  consistent : g.Consistent PairEntry.key
  entries : ∀ e ∈ g.lru, e.WellFormed

theorem empty_sound : Sound LruTable.empty :=
  ⟨LruTable.empty_consistent _,fun e he => by cases he⟩

theorem Sound.entry (h : Sound g) (k : PairKey) : (g.entry k).WellFormed := by
  unfold RepeatChunkGuard.entry
  cases hfound : g.find PairEntry.key k with
  | none => exact PairEntry.fresh_wellFormed k
  | some e => exact h.entries e (h.consistent.find_key hfound).1

theorem Sound.entry_key (h : Sound g) (k : PairKey) : (g.entry k).key=k := by
  unfold RepeatChunkGuard.entry
  cases hfound : g.find PairEntry.key k with
  | none => rfl
  | some e => exact (h.consistent.find_key hfound).2

theorem noteSent_of_counts (h : c.Counts k) : g.noteSent c =
    (g.touch PairEntry.key PairEntry.fresh kMaxEntries k).modifyFront fun e =>
      run PairEntry.addPiece e c.pieces := by
  obtain ⟨huser,hfile,hbytes⟩ := h
  unfold noteSent
  rw [huser,hfile,pieces_eq ⟨huser,hfile,hbytes⟩]
  exact dif_pos hbytes

theorem noteSent_of_not_counts (h : ∀ k,¬ c.Counts k) : g.noteSent c=g := by
  unfold noteSent
  split
  · rename_i user file huser hfile
    exact dif_neg fun hbytes => h (user, file) ⟨huser,hfile,hbytes⟩
  · rfl

theorem run_addPiece_key (e : PairEntry) (pcs : List Piece) :
    (run PairEntry.addPiece e pcs).key=e.key := by
  induction pcs generalizing e with
  | nil => rfl
  | cons pc pcs ih =>
    rw [run_cons,ih]
    exact PairEntry.addPiece_key e pc

theorem run_addPiece_wellFormed {e : PairEntry} (h : e.WellFormed) (hcounts : c.Counts k) :
    (run PairEntry.addPiece e c.pieces).WellFormed := by
  apply @run_invariant _ _ _ fun _ pc => pc.start<pc.stop
  · intro e pc he hpc
    exact PairEntry.addPiece_wellFormed he hpc
  · exact h
  · exact along_of_forall e fun pc hpc => (pieces_nonempty hcounts pc hpc).2

theorem noteSent_sound (h : Sound g) (c : SentPayload) : Sound (g.noteSent c) := by
  by_cases hcounts : ∃ k, c.Counts k
  · obtain ⟨k,hk⟩ := hcounts
    rw [noteSent_of_counts hk]
    have htouched := h.consistent.touch kMaxEntries k PairEntry.fresh_key
    refine ⟨htouched.modifyFront fun e => run_addPiece_key e c.pieces,?_⟩
    have hentries : ∀ e∈(g.touch PairEntry.key PairEntry.fresh kMaxEntries k).lru,
        e.WellFormed := by
      intro e he
      rcases LruTable.mem_touch he with rfl | he
      · exact PairEntry.fresh_wellFormed k
      · exact h.entries e he
    intro e he
    rcases LruTable.mem_modifyFront he with ⟨old,hold,rfl⟩ | he
    · exact run_addPiece_wellFormed (hentries old hold) hk
    · exact hentries e he
  · rw [noteSent_of_not_counts (not_exists.mp hcounts)]
    exact h

theorem entry_noteSent (h : Sound g) (hcounts : c.Counts k') : (g.noteSent c).entry k =
    if k=k' then run PairEntry.addPiece (g.entry k) c.pieces
    else if g.Evicts PairEntry.key kMaxEntries k' k then .fresh k else g.entry k := by
  have htouched := h.consistent.touch kMaxEntries k' PairEntry.fresh_key
  have hfind := htouched.find_modifyFront (f := fun e => run PairEntry.addPiece e c.pieces) (k := k)
    (fun e => run_addPiece_key e c.pieces) h.consistent.touch_front
  rw [noteSent_of_counts hcounts]
  unfold entry
  rw [hfind]
  have hkey := h.entry_key k'
  unfold entry at hkey
  rw [hkey]
  by_cases hk : k=k'
  · subst hk
    rw [if_pos rfl,if_pos rfl]
    rfl
  · rw [if_neg (Ne.symm hk),if_neg hk,h.consistent.find_touch_ne PairEntry.fresh_key hk]
    split_ifs <;> rfl

end RepeatChunkGuard

open Crypto Framework Math Math.Span Utils
open SentPayload

namespace RepeatChunkGuard

variable {g : RepeatChunkGuard} {c : SentPayload} {k : PairKey} {p o n : Nat}

/-- The payload costs neither the entry of the pair nor the record of the part. -/
def Keeps (k : PairKey) (p : Nat) (g : RepeatChunkGuard) (c : SentPayload) : Prop :=
  ∀ k', c.Counts k' → ¬ g.Evicts PairEntry.key kMaxEntries k' k ∧
    (k = k' → Along PairEntry.addPiece (fun e pc => ¬ e.DropsPart pc p) (g.entry k) c.pieces)

/-- The payload brings the byte of the file. -/
def SendsByte (k : PairKey) (byte : Nat) (c : SentPayload) : Prop :=
  c.Counts k ∧ c.start≤byte ∧ byte<c.stop

instance instDecidableSendsByte (k : PairKey) (byte : Nat) (c : SentPayload) :
    Decidable (SendsByte k byte c) := inferInstanceAs (Decidable (_ ∧ _ ∧ _))

/-- How often the byte of the part went out. -/
def tally (k : PairKey) (p o : Nat) (n : Nat) (c : SentPayload) : Nat :=
  n + if SendsByte k (p * PARTSIZE + o) c then 1 else 0

/-- What has gone out of the part since it was last complete, and how often it was. -/
noncomputable def follow (done : Nat → Set Nat → Prop) (k : PairKey) (p : Nat)
    (covered : Coverage Nat) (c : SentPayload) : Coverage Nat :=
  if c.SendsIn k p then covered.add (done (partLen p c.fileSize)) (c.sentOf p) else covered

/-! # One payload -/

theorem filter_pieces_cases (hcounts : c.Counts k) :
    (¬ c.SendsIn k p ∧ c.pieces.filter (fun pc => decide (pc.part=p))=[]) ∨
      c.SendsIn k p ∧ ∃ pc∈c.pieces, pc.part=p ∧
        c.pieces.filter (fun pc => decide (pc.part=p))=[pc] := by
  have hfilter := filter_pieces hcounts (p := p)
  by_cases hsends : c.SendsIn k p
  · rw [if_pos hsends] at hfilter
    refine .inr ⟨hsends,_,?_,rfl,hfilter⟩
    have hmem : _ ∈ c.pieces.filter fun pc => decide (pc.part=p) :=
      hfilter ▸ List.mem_singleton_self _
    exact (List.mem_filter.mp hmem).1
  · rw [if_neg hsends] at hfilter
    exact .inl ⟨hsends,hfilter⟩

theorem pieces_bounded {e : PairEntry} (he : e.WellFormed) (hcounts : c.Counts k)
    (ho : o<partLen p c.fileSize) (hbounded : (e.coverage p).Bounded o n) :
    ((run PairEntry.addPiece e c.pieces).coverage p).Bounded o (tally k p o n c) := by
  have hrun := PairEntry.run_addPiece p
    (fun e n => (e.coverage p).Bounded o n)
    (fun n pc => n+if pc.start≤o ∧ o<pc.stop then 1 else 0) (fun _ _ => True)
    c.pieces (fun e n pc hpc he hpart hrel => by
      obtain ⟨hsends,hlen,-⟩ := mem_pieces hcounts hpc
      subst hpart
      exact PairEntry.addPiece_bounded he (hlen ▸ ho) (pieces_nonempty hcounts pc hpc).2 hrel)
    (fun e n pc _ he hpart _ hrel => by
      obtain ⟨hcovered,htimes⟩ := PairEntry.coverage_addPiece_lose he hpart
      exact hrel.lose hcovered htimes)
    (fun pc hpc => (pieces_nonempty hcounts pc hpc).2) he hbounded (along_true _ _ _)
  unfold tally
  rcases filter_pieces_cases hcounts (p := p) with ⟨hnone,hfilter⟩ | ⟨hsends,pc,hpc,hpart,hfilter⟩
  · rw [hfilter] at hrun
    have hlong : o<PARTSIZE := Nat.lt_of_lt_of_le ho (Nat.min_le_left _ _)
    have hmiss : ¬ SendsByte k (p*PARTSIZE+o) c := by
      rintro ⟨-,hfrom,hto⟩
      exact hnone ⟨hcounts,by omega,by omega⟩
    rw [if_neg hmiss]
    exact hrun
  · rw [hfilter] at hrun
    obtain ⟨-,-,hsent⟩ := mem_pieces hcounts hpc
    have hiff : (pc.start≤o ∧ o<pc.stop) ↔ SendsByte k (p*PARTSIZE+o) c := by
      have hmem := Set.ext_iff.mp hsent o
      have hlong : o<PARTSIZE := Nat.lt_of_lt_of_le ho (Nat.min_le_left _ _)
      rw [hpart] at hmem
      exact hmem.trans ⟨fun hin => ⟨hcounts,hin.2⟩,fun hin => ⟨hlong,hin.2⟩⟩
    rw [run_cons,run_nil,if_congr hiff rfl rfl] at hrun
    exact hrun

theorem pieces_tracks {e : PairEntry} {covered : Coverage Nat} (he : e.WellFormed)
    (hcounts : c.Counts k)
    (hkeeps : Along PairEntry.addPiece (fun e pc => ¬ e.DropsPart pc p) e c.pieces)
    (htracks : e.Tracks p covered) :
    (run PairEntry.addPiece e c.pieces).Tracks p (follow PairEntry.Reaches k p covered c) := by
  have hrun := PairEntry.run_addPiece p
    (fun e covered => e.Tracks p covered)
    (fun covered pc => covered.add (PairEntry.Reaches pc.partLen) (Set.Ico pc.start pc.stop))
    (fun e pc => ¬ e.DropsPart pc p)
    c.pieces (fun e covered pc hpc he hpart hrel => by
      obtain ⟨hlen,hne⟩ := pieces_nonempty hcounts pc hpc
      subst hpart
      exact PairEntry.addPiece_tracks he hlen hne hrel)
    (fun e covered pc _ he hpart hkeep hrel => by
      have hsame := PairEntry.coverage_addPiece_ne (p := p) he (Ne.symm hpart)
      rw [if_neg hkeep] at hsame
      exact ⟨(congrArg Coverage.covered hsame).trans hrel.1,
        (congrArg Coverage.times hsame).trans hrel.2⟩)
    (fun pc hpc => (pieces_nonempty hcounts pc hpc).2) he htracks hkeeps
  unfold follow
  rcases filter_pieces_cases hcounts (p := p) with ⟨hnone,hfilter⟩ | ⟨hsends,pc,hpc,hpart,hfilter⟩
  · rw [hfilter] at hrun
    rw [if_neg hnone]
    exact hrun
  · rw [hfilter,run_cons,run_nil] at hrun
    obtain ⟨-,hlen,hsent⟩ := mem_pieces hcounts hpc
    rw [hlen,hsent,hpart] at hrun
    rw [if_pos hsends]
    exact hrun

theorem noteSent_bounded (h : Sound g) (hsize : c.Counts k → o<partLen p c.fileSize)
    (hbounded : ((g.entry k).coverage p).Bounded o n) :
    (((g.noteSent c).entry k).coverage p).Bounded o (tally k p o n c) := by
  have hskip : (∀ k',c.Counts k' → k≠k') → tally k p o n c=n := by
    intro hother
    unfold tally
    rw [if_neg fun hbyte => hother k hbyte.1 rfl]
    rfl
  by_cases hcounts : ∃ k', c.Counts k'
  · obtain ⟨k',hk'⟩ := hcounts
    rw [entry_noteSent h hk']
    by_cases hk : k=k'
    · subst hk
      rw [if_pos rfl]
      exact pieces_bounded (h.entry k) hk' (hsize hk') hbounded
    · rw [if_neg hk,hskip fun k'' hk'' heq => hk (heq.trans (counts_unique hk'' hk'))]
      split_ifs
      · rw [PairEntry.coverage_fresh]
        exact hbounded.lose (Set.empty_subset _) (Nat.zero_le _)
      · exact hbounded
  · rw [noteSent_of_not_counts (not_exists.mp hcounts),
      hskip fun k' hk' => absurd ⟨k',hk'⟩ hcounts]
    exact hbounded

theorem noteSent_tracks {covered : Coverage Nat} (h : Sound g) (hkeeps : Keeps k p g c)
    (htracks : (g.entry k).Tracks p covered) :
    ((g.noteSent c).entry k).Tracks p (follow PairEntry.Reaches k p covered c) := by
  have hskip : (∀ k',c.Counts k' → k≠k') → follow PairEntry.Reaches k p covered c=covered :=
    fun hother => if_neg fun hsends => hother k hsends.1 rfl
  by_cases hcounts : ∃ k', c.Counts k'
  · obtain ⟨k',hk'⟩ := hcounts
    obtain ⟨hevict,hparts⟩ := hkeeps k' hk'
    rw [entry_noteSent h hk']
    by_cases hk : k=k'
    · subst hk
      rw [if_pos rfl]
      exact pieces_tracks (h.entry k) hk' (hparts rfl) htracks
    · rw [if_neg hk,if_neg hevict,
        hskip fun k'' hk'' heq => hk (heq.trans (counts_unique hk'' hk'))]
      exact htracks
  · rw [noteSent_of_not_counts (not_exists.mp hcounts),
      hskip fun k' hk' => absurd ⟨k',hk'⟩ hcounts]
    exact htracks

/-! # Whole runs -/

theorem run_sound (calls : List SentPayload) : Sound (run noteSent .empty calls) :=
  @run_invariant _ _ noteSent (fun _ _ => True) Sound (fun _ c h _ => noteSent_sound h c) _ _
    empty_sound (along_true _ _ _)

theorem entry_empty (k : PairKey) : entry k .empty = .fresh k := rfl

theorem run_tally (n : Nat) (calls : List SentPayload) : run (tally k p o) n calls =
    n+calls.countP fun c => decide (SendsByte k (p*PARTSIZE+o) c) := by
  induction calls generalizing n with
  | nil => rfl
  | cons c calls ih =>
    rw [run_cons,ih,List.countP_cons,tally]
    simp only [decide_eq_true_eq]
    omega

theorem run_bounded (calls : List SentPayload)
    (hsize : ∀ c∈calls,c.Counts k → o<partLen p c.fileSize) :
    (((run noteSent .empty calls).entry k).coverage p).Bounded o
      (calls.countP fun c => decide (SendsByte k (p*PARTSIZE+o) c)) := by
  have hstart : Sound .empty ∧ ((entry k .empty).coverage p).Bounded o 0 := by
    refine ⟨empty_sound,?_⟩
    rw [entry_empty,PairEntry.coverage_fresh]
    exact Coverage.bounded_empty
  have hstep : ∀ (g : RepeatChunkGuard) (n : Nat) (c : SentPayload),
      Sound g ∧ ((g.entry k).coverage p).Bounded o n → (c.Counts k → o<partLen p c.fileSize) →
      Sound (g.noteSent c) ∧ (((g.noteSent c).entry k).coverage p).Bounded o (tally k p o n c) :=
    fun g n c hrel hok => ⟨noteSent_sound hrel.1 c,noteSent_bounded hrel.1 hok hrel.2⟩
  have hrun := run_simulation hstep hstart (along_of_forall _ hsize)
  rw [run_tally,Nat.zero_add] at hrun
  exact hrun.2

theorem run_tracks (calls : List SentPayload) (hkeeps : Along noteSent (Keeps k p) .empty calls) :
    ((run noteSent .empty calls).entry k).Tracks p
      (run (follow PairEntry.Reaches k p) .empty calls) := by
  have hstart : Sound .empty ∧ (entry k .empty).Tracks p .empty := by
    refine ⟨empty_sound,?_,rfl⟩
    rw [entry_empty,PairEntry.coverage_fresh]
  have hstep : ∀ (g : RepeatChunkGuard) (covered : Coverage Nat) (c : SentPayload),
      Sound g ∧ (g.entry k).Tracks p covered → Keeps k p g c →
      Sound (g.noteSent c) ∧
        ((g.noteSent c).entry k).Tracks p (follow PairEntry.Reaches k p covered c) :=
    fun g covered c hrel hok => ⟨noteSent_sound hrel.1 c,noteSent_tracks hrel.1 hok hrel.2⟩
  exact (run_simulation hstep hstart hkeeps).2

theorem reaches_iff {len : Nat} {covered : Set Nat} (h : covered ⊆ Set.Iio len) :
    PairEntry.Reaches len covered ↔ Set.Iio len ⊆ covered := by
  constructor
  · rintro ⟨stop,hstop,rfl⟩
    exact Set.Iio_subset_Iio hstop
  · intro hall
    exact ⟨len,Nat.le_refl len,Set.Subset.antisymm h hall⟩

theorem sentOf_subset (hcounts : c.Counts k) : c.sentOf p ⊆ Set.Iio (partLen p c.fileSize) := by
  rintro o ⟨hpart,hfrom,hto⟩
  have hle := hcounts.2.2.2
  unfold partLen
  rw [Set.mem_Iio]
  omega

theorem run_follow {size : Nat} (calls : List SentPayload)
    (hsize : ∀ c∈calls,c.Counts k → c.fileSize=size) :
    run (follow PairEntry.Reaches k p) .empty calls =
      run (follow (fun len covered => Set.Iio len ⊆ covered) k p) .empty calls := by
  have hstep : ∀ (a b : Coverage Nat) (c : SentPayload),
      a=b ∧ b.covered ⊆ Set.Iio (partLen p size) → (c.Counts k → c.fileSize=size) →
      follow PairEntry.Reaches k p a c=follow (fun len covered => Set.Iio len ⊆ covered) k p b c ∧
        (follow (fun len covered => Set.Iio len ⊆ covered) k p b c).covered ⊆
          Set.Iio (partLen p size) := by
    rintro a b c ⟨rfl,hin⟩ hsame
    unfold follow
    split_ifs with hsends
    · have hsent := sentOf_subset (p := p) hsends.1
      rw [hsame hsends.1] at hsent ⊢
      have hunion : a.covered ∪ c.sentOf p ⊆ Set.Iio (partLen p size) := Set.union_subset hin hsent
      unfold Coverage.add
      rw [reaches_iff hunion]
      split_ifs
      · exact ⟨rfl,Set.empty_subset _⟩
      · exact ⟨rfl,hunion⟩
    · exact ⟨rfl,hin⟩
  exact (run_simulation hstep ⟨rfl,Set.empty_subset _⟩ (along_of_forall _ hsize)).1

/-- No byte of a part went out less often than the part is said to have been delivered; while
nothing is evicted the deliveries are the times the part was completed; and the ranges, the index
and the list stay in order. -/
theorem deliveries_counted (calls : List SentPayload) :
    (∀ user file offset byte, byte / PARTSIZE = offset / PARTSIZE →
      (∀ c ∈ calls, c.Counts (user, file) → byte < c.fileSize) →
      (run noteSent .empty calls).deliveries (some user) (some file) offset ≤
        calls.countP fun c => decide (SendsByte (user, file) byte c)) ∧
    (∀ user file offset,
      Along noteSent (Keeps (user, file) (offset / PARTSIZE)) .empty calls →
      (run noteSent .empty calls).deliveries (some user) (some file) offset =
          min 255 (run (follow PairEntry.Reaches (user, file) (offset / PARTSIZE))
            .empty calls).times ∧
        ∀ size, (∀ c ∈ calls, c.Counts (user, file) → c.fileSize = size) →
          (run noteSent .empty calls).deliveries (some user) (some file) offset =
            min 255 (run (follow (fun len covered => Set.Iio len ⊆ covered) (user, file)
              (offset / PARTSIZE)) .empty calls).times) ∧
    (∀ e ∈ (run noteSent .empty calls).lru, ∀ q ∈ e.partials, Separated q.covered) ∧
    (run noteSent .empty calls).index.Perm
      ((run noteSent .empty calls).lru.map PairEntry.key) ∧
    (run noteSent .empty calls).index.Nodup := by
  have hsound := run_sound calls
  refine ⟨?_,?_,?_,hsound.consistent.index,?_⟩
  · intro user file offset byte hpart hsize
    have hbyte : offset/PARTSIZE*PARTSIZE+byte%PARTSIZE=byte := by
      rw [← hpart]
      exact Nat.div_add_mod' byte PARTSIZE
    have hsmall : byte%PARTSIZE<PARTSIZE := Nat.mod_lt byte PARTSIZE_pos
    have hlen : ∀ c∈calls,c.Counts (user, file) →
        byte%PARTSIZE<partLen (offset/PARTSIZE) c.fileSize := by
      intro c hc hcounts
      have hlt := hsize c hc hcounts
      unfold partLen
      omega
    have hbounded := run_bounded calls hlen
    rw [hbyte] at hbounded
    rw [deliveries_eq]
    exact hbounded.1
  · intro user file offset hkeeps
    have htracks := run_tracks calls hkeeps
    refine ⟨(deliveries_eq _ _ _ _).trans htracks.2,?_⟩
    intro size hsize
    rw [← run_follow calls hsize]
    exact (deliveries_eq _ _ _ _).trans htracks.2
  · intro e he q hq
    exact (hsound.entries e he).separated q hq
  · exact hsound.consistent.index.nodup_iff.mpr hsound.consistent.keys

end RepeatChunkGuard

end EmuleQt.Client
