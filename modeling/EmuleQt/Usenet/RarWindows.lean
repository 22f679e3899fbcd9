import EmuleQt.Usenet.RarWalk

namespace EmuleQt.Usenet

open Framework Math Cursor

/-- A reader that gets a volume window by window. -/
structure WindowReader where
  format : RarFormat
  entries : List RarEntry
  nextOffset : Int
  closed : Bool

/-- `parseRarVolume` on the first `n` bytes. -/
def openVolume (whole : List UInt8) (n : Nat) : WindowReader :=
  let v := parseRarVolume (whole.take n)
  ⟨v.format,v.entries,v.nextOffset,v.endOfArchive || v.headersEncrypted⟩

/-- `parseRarBlocks` on the `l` bytes from where the last parse stopped. -/
def readWindow (whole : List UInt8) (w : WindowReader) (l : Nat) : WindowReader :=
  let v := parseRarBlocks w.format ((whole.drop w.nextOffset.toNat).take l) w.nextOffset
  ⟨w.format,w.entries++v.entries,v.nextOffset,v.endOfArchive || v.headersEncrypted⟩

def readWindows (whole : List UInt8) (n : Nat) (ls : List Nat) : WindowReader :=
  run (readWindow whole) (openVolume whole n) ls

/-- There is nothing to read any more. -/
def WindowReader.Finished (whole : List UInt8) (w : WindowReader) : Prop :=
  w.closed = true ∨ whole.length ≤ w.nextOffset

instance (whole : List UInt8) (w : WindowReader) : Decidable (w.Finished whole) :=
  inferInstanceAs (Decidable (_ ∨ _))

/-- Every entry reported from the first `n` bytes is the one that the whole volume reports with
that header offset. -/
def AgreesOnPrefix (whole : List UInt8) (n : Nat) : Prop :=
  ∀ e∈(parseRarVolume (whole.take n)).entries,
    (parseRarVolume whole).entries.find? (fun e' => e'.headerOffset=e.headerOffset)=some e

instance (whole : List UInt8) (n : Nat) : Decidable (AgreesOnPrefix whole n) :=
  inferInstanceAs (Decidable (∀ e∈_, _ = some e))

variable {β : Type} {D : Dialect β} {v : Image D} {w : WindowReader} {n : Nat}

namespace Image

/-- The blocks with their places in the volume. -/
def placed (v : Image D) : List (Nat × β) := D.layout.placed D.marker.length v.blocks

/-- The first window misleads nobody about a block it holds a part of. -/
def Clear (v : Image D) (n : Nat) : Prop := ∀ p ∈ v.placed, ¬ D.blind p.2 (n - p.1)

/-- A window at `at` is long enough for the header that starts there. -/
def LongEnough (v : Image D) (w : WindowReader) (l : Nat) : Prop :=
  ∀ p∈v.placed, (p.1 : Int)=w.nextOffset → (D.layout.header p.2).length≤l

instance (v : Image D) (w : WindowReader) (l : Nat) : Decidable (v.LongEnough w l) :=
  inferInstanceAs (Decidable (∀ p∈v.placed, _ → _))

/-- What has been read are the entries of the blocks passed over. -/
structure Progress (v : Image D) (w : WindowReader) (done rest : List β) : Prop where
  split : v.blocks = done ++ rest
  plain : ∀ b ∈ done, D.layout.ends b = false
  format : w.format = D.format
  entries : w.entries = D.layout.entriesFrom D.marker.length done
  next : w.nextOffset = ↑(D.marker.length + (D.layout.chain done).length)
  stop : w.closed = true → ∃ e, rest = [e] ∧ D.layout.ends e = true

theorem bytes_length : v.bytes.length =
    D.marker.length+((D.layout.chain v.blocks).length+v.trailer.length) := by
  simp [bytes]

theorem clear_whole : v.Clear v.bytes.length := by
  intro p hp hblind
  have h := Layout.placed_within hp
  have hlt := D.blind_short p.2 _ hblind
  rw [Layout.size_eq] at h
  rw [bytes_length] at hlt
  omega

theorem open_reached (hsmall : v.bytes.length<2^31) (hn : D.marker.length≤n)
    (hclear : v.Clear n) :
    ∃ done rest, D.layout.Reached D.marker.length v.blocks (min n v.bytes.length-D.marker.length) []
      (parseRarVolume (v.bytes.take n)).found done rest ∧
      (parseRarVolume (v.bytes.take n)).format=D.format := by
  have hlen := bytes_length (v := v)
  have hmarker : D.marker <+: v.bytes.take n :=
    List.prefix_take_iff.mpr ⟨List.prefix_append _ _,hn⟩
  have hpart : (v.bytes.take n).drop D.marker.length <+: D.layout.chain v.blocks++v.trailer := by
    have h := (List.take_prefix n v.bytes).drop D.marker.length
    rwa [bytes,List.drop_left] at h
  have htake : (v.bytes.take n).length=min n v.bytes.length := List.length_take
  rw [D.opens _ hmarker,RarVolume.format_refuseSolid,RarVolume.found_refuseSolid,← htake]
  have hm := hmarker.length_le
  have hfmt := (D.walkBlocks_returns (v.bytes.take n) 0 false (Int.natCast_nonneg D.marker.length)).2
  have hblind : ∀ p∈D.layout.placed D.marker.length v.blocks,
      ¬ D.blind p.2 (0+(v.bytes.take n).length-p.1) := by
    intro p hp
    rw [Nat.zero_add,htake]
    rcases Nat.le_total n v.bytes.length with h | h
    · rw [Nat.min_eq_left h]
      exact hclear p hp
    · rw [Nat.min_eq_right h]
      exact clear_whole p hp
  obtain ⟨done,rest,h⟩ := D.walkBlocks_reached (k := 0) (by omega)
    (Int.natCast_nonneg D.marker.length) (by omega) (by simp) v.ok hpart v.closed (by omega)
    (.inr hblind)
  exact ⟨done,rest,h,hfmt⟩

theorem parse_whole (hsmall : v.bytes.length<2^31) :
    (parseRarVolume v.bytes).entries=D.layout.entriesFrom D.marker.length v.blocks := by
  have hlen := bytes_length (v := v)
  obtain ⟨done,rest,h,-⟩ := open_reached hsmall (by omega) (clear_whole (v := v))
  rw [List.take_length,Nat.min_self] at h
  exact h.all (by omega)

theorem open_progress (hsmall : v.bytes.length<2^31) (hn : D.marker.length≤n)
    (hclear : v.Clear n) :
    ∃ done rest, v.Progress (openVolume v.bytes n) done rest := by
  obtain ⟨done,rest,h,hfmt⟩ := open_reached hsmall hn hclear
  refine ⟨done,rest,h.split,h.plain,hfmt,h.entries,h.next,fun hover => ?_⟩
  rcases h.stop with ⟨-,he⟩ | ⟨hf,-⟩
  · exact he
  · exact absurd (hover.symm.trans hf) (by simp)

variable {done rest : List β}

theorem Progress.ahead (h : v.Progress w done rest) :
    v.bytes.drop (D.marker.length+(D.layout.chain done).length) =
      D.layout.chain rest++v.trailer := by
  rw [bytes,h.split,← List.drop_drop,List.drop_left,Layout.chain_append,List.append_assoc,
    List.drop_left]

theorem Progress.closed (h : v.Progress w done rest) : D.layout.Closed rest v.trailer :=
  Layout.closed_append (h.split ▸ v.closed) h.plain

theorem Progress.nil_finished (h : v.Progress w done []) : w.Finished v.bytes := by
  have ht : v.trailer=[] := h.closed
  have hb := bytes_length (v := v)
  have hs := h.split
  rw [List.append_nil] at hs
  rw [ht,List.length_nil,hs] at hb
  right
  rw [h.next]
  omega

/-- A window that is long enough gets on, as long as there is anything to get on to. -/
theorem Progress.read (h : v.Progress w done rest) (hsmall : v.bytes.length<2^31) (l : Nat) :
    ∃ done' rest', v.Progress (readWindow v.bytes w l) done' rest' ∧
      rest'.length≤rest.length ∧
      (v.LongEnough w l → rest'.length<rest.length ∨ (readWindow v.bytes w l).Finished v.bytes) := by
  have hlen := bytes_length (v := v)
  have hchain : (D.layout.chain v.blocks).length =
      (D.layout.chain done).length+(D.layout.chain rest).length := by
    rw [h.split,Layout.chain_append,List.length_append]
  have hok : ∀ b∈rest,D.Ok b := fun b hb => v.ok b (by rw [h.split]; simp [hb])
  have hahead := h.ahead
  have hnext := h.next
  generalize hat : D.marker.length+(D.layout.chain done).length=start at hahead hnext
  have hpart : ((v.bytes.drop start).take l).drop (Int.toNat 0) <+: D.layout.chain rest++v.trailer := by
    rw [hahead]
    exact List.take_prefix l _
  have hbuf : ((v.bytes.drop start).take l).length=min l (v.bytes.length-start) := by
    rw [List.length_take,List.length_drop]
  obtain ⟨done',rest',hr⟩ : ∃ done' rest', D.layout.Reached start rest
      (((v.bytes.drop start).take l).length-Int.toNat 0) []
      (walkBlocks ((v.bytes.drop start).take l)
        (D.block ((v.bytes.drop start).take l) start true) D.format 0 start).2.found done' rest' :=
    D.walkBlocks_reached (by omega) (Int.le_refl 0) (by omega) (by simp) hok hpart h.closed
      (by omega) (.inl rfl)
  have hread : readWindow v.bytes w l =
      let f := (walkBlocks ((v.bytes.drop start).take l)
        (D.block ((v.bytes.drop start).take l) start true) D.format 0 start).2.found
      ⟨D.format,w.entries++f.1,f.2.1,f.2.2⟩ := by
    rw [readWindow,h.format,hnext,Int.toNat_natCast,D.resumes]
    rfl
  rw [Int.toNat_zero,Nat.sub_zero,hbuf] at hr
  rw [hread]
  generalize (walkBlocks ((v.bytes.drop start).take l)
    (D.block ((v.bytes.drop start).take l) start true) D.format 0 start).2.found=f at hr ⊢
  have hprogress : v.Progress ⟨D.format,w.entries++f.1,f.2.1,f.2.2⟩ (done++done') rest' := by
    refine ⟨by rw [h.split,hr.split,List.append_assoc],?_,rfl,?_,?_,?_⟩
    · intro b hb
      exact (List.mem_append.mp hb).elim (h.plain b) (hr.plain b)
    · simp only [h.entries,hr.entries,List.nil_append]
      rw [Layout.entriesFrom_append,hat]
    · simp only [hr.next,Layout.chain_append,List.length_append]
      omega
    · intro hover
      exact hr.stop.elim (fun hs => hs.2) fun hs => absurd (hover.symm.trans hs.1) (by simp)
  refine ⟨done++done',rest',hprogress,?_,fun hlong => ?_⟩
  · rw [hr.split,List.length_append]
    omega
  · rcases hr.stop with ⟨hover,-⟩ | ⟨-,hlt⟩
    · exact .inr (.inl hover)
    have hsplit := hr.split
    cases done' with
    | cons x xs =>
      left
      rw [hsplit,List.length_append,List.length_cons]
      omega
    | nil =>
      rw [List.nil_append] at hsplit
      cases hrest : rest with
      | nil =>
        rw [hrest] at hsplit
        rw [← hsplit] at hprogress
        exact .inr hprogress.nil_finished
      | cons x xs =>
        have hmem : (start, x)∈v.placed := by
          rw [placed,h.split,Layout.mem_placed_append,hat,hrest]
          exact .inr List.mem_cons_self
        have hx : (D.layout.header x).length≤l := hlong (start, x) hmem hnext.symm
        have hfit := hlt x xs (by rw [← hsplit,hrest])
        have hc : (D.layout.header x).length≤(D.layout.chain rest).length := by
          rw [hrest,Layout.chain_cons,Layout.bytes,List.length_append,List.length_append]
          omega
        simp only [Layout.chain_nil,List.length_nil] at hfit
        omega

theorem Progress.entries_prefix (h : v.Progress w done rest) (hsmall : v.bytes.length<2^31) :
    w.entries <+: (parseRarVolume v.bytes).entries := by
  rw [parse_whole hsmall,h.split,Layout.entriesFrom_append,h.entries]
  exact List.prefix_append _ _

theorem Progress.finished_rest (h : v.Progress w done rest) (hf : w.Finished v.bytes) :
    rest=[] ∨ ∃ e, rest=[e] ∧ D.layout.ends e=true := by
  rcases hf with hover | hend
  · exact .inr (h.stop hover)
  · left
    cases hrest : rest with
    | nil => rfl
    | cons x xs =>
      have hx := D.layout.header_pos x
      have hlen := bytes_length (v := v)
      rw [h.next] at hend
      rw [h.split,hrest,Layout.chain_append,Layout.chain_cons,Layout.bytes] at hlen
      simp only [List.length_append] at hlen
      omega

theorem Progress.finished (h : v.Progress w done rest) (hsmall : v.bytes.length<2^31)
    (hf : w.Finished v.bytes) : w.entries=(parseRarVolume v.bytes).entries := by
  have hrest : D.layout.entriesFrom (D.marker.length+(D.layout.chain done).length) rest=[] := by
    rcases h.finished_rest hf with rfl | ⟨e,rfl,he⟩
    · rfl
    · exact Layout.entriesFrom_ends he
  rw [parse_whole hsmall,h.split,Layout.entriesFrom_append,h.entries,hrest,List.append_nil]

theorem Progress.finishes (h : v.Progress w done rest) (hsmall : v.bytes.length<2^31)
    {ls : List Nat} (hlong : Along (readWindow v.bytes) v.LongEnough w ls)
    (hl : rest.length≤ls.length) : (run (readWindow v.bytes) w ls).Finished v.bytes := by
  induction ls generalizing w done rest with
  | nil =>
    have hnil : rest=[] := List.length_eq_zero_iff.mp (by simpa using hl)
    exact (hnil ▸ h).nil_finished
  | cons l ls ih =>
    obtain ⟨done',rest',h',hle,hgo⟩ := h.read hsmall l
    rw [run_cons]
    rcases hgo hlong.1 with hlt | hfin
    · exact ih h' hlong.2 (by rw [List.length_cons] at hl; omega)
    · cases ls with
      | nil => exact hfin
      | cons l' ls =>
        refine ih h' hlong.2 ?_
        have hone : rest'.length≤1 := by
          rcases h'.finished_rest hfin with rfl | ⟨e,rfl,-⟩ <;> simp
        rw [List.length_cons]
        omega

theorem run_progress (h : v.Progress w done rest) (hsmall : v.bytes.length<2^31)
    (ls : List Nat) : ∃ done' rest', v.Progress (run (readWindow v.bytes) w ls) done' rest' := by
  induction ls generalizing w done rest with
  | nil => exact ⟨done,rest,h⟩
  | cons l ls ih =>
    obtain ⟨done',rest',h',-⟩ := h.read hsmall l
    exact ih h'

/-- What is reported from a first window that ends where a block misleads its reader. -/
theorem open_blind (hsmall : v.bytes.length<2^31) {p : Nat × β} (hp : p∈v.placed)
    (hblind : D.blind p.2 (n-p.1)) :
    ∃ done rest, v.blocks=done++p.2::rest ∧
      p.1=D.marker.length+(D.layout.chain done).length ∧
      (parseRarVolume (v.bytes.take n)).entries =
        D.layout.entriesFrom D.marker.length done++D.glimpse p.2 p.1 := by
  obtain ⟨done,rest,hsplit,hat⟩ := Layout.placed_split hp
  have hlen := bytes_length (v := v)
  have hwithin := Layout.placed_within hp
  have hpos := D.blind_pos _ _ hblind
  have hshort := D.blind_short _ _ hblind
  have hsize := Layout.size_eq (L := D.layout) (b := p.2)
  have hbytes : v.bytes=D.marker++(D.layout.chain done ++
      (D.layout.bytes p.2++(D.layout.chain rest++v.trailer))) := by
    rw [bytes,hsplit,Layout.chain_append,Layout.chain_cons,List.append_assoc,List.append_assoc]
  obtain ⟨r,rfl⟩ : ∃ r, n=p.1+r := ⟨n-p.1,by omega⟩
  rw [Nat.add_sub_cancel_left] at hblind hpos hshort
  have htake : v.bytes.take (p.1+r)=D.marker++(D.layout.chain done ++
      (D.layout.bytes p.2++(D.layout.chain rest++v.trailer)).take r) := by
    rw [hbytes,hat,Nat.add_assoc,List.take_length_add_append,List.take_length_add_append]
  have hpart := List.take_prefix r (D.layout.bytes p.2++(D.layout.chain rest++v.trailer))
  have htl : ((D.layout.bytes p.2++(D.layout.chain rest++v.trailer)).take r).length=r := by
    rw [List.length_take,List.length_append]
    simp only [Layout.size] at hsize
    omega
  generalize (D.layout.bytes p.2++(D.layout.chain rest++v.trailer)).take r=t at htake hpart htl
  have hmarker : D.marker <+: v.bytes.take (p.1+r) := by
    rw [htake]
    exact List.prefix_append _ _
  have hbuf : (v.bytes.take (p.1+r)).length≤v.bytes.length := List.length_take_le' _ _
  have hdrop : (v.bytes.take (p.1+r)).drop (D.marker.length : Int).toNat =
      D.layout.chain done++t := by
    rw [htake,Int.toNat_natCast,List.drop_left]
  have hsees : Sees (v.bytes.take (p.1+r)) (startWalk D.format D.marker.length 0).1
      (D.layout.chain done++t) :=
    ⟨rfl,Int.natCast_nonneg _,Int.ofNat_le.mpr hmarker.length_le,hdrop⟩
  have hret := (D.walkBlocks_returns (v.bytes.take (p.1+r)) 0 false
    (Int.natCast_nonneg D.marker.length)).1
  have hfound : (startWalk D.format D.marker.length 0).2.found=([], ↑D.marker.length, false) := by
    have hq : toQint64 (D.marker.length : Int)=D.marker.length :=
      toQint64_eq (by omega) (by omega)
    simp [startWalk,RarVolume.found,hq]
  have hends := Layout.closed_plain (hsplit ▸ v.closed)
  have hok : ∀ b∈done,D.Ok b := fun b hb => v.ok b (by rw [hsplit]; simp [hb])
  obtain ⟨c,out,hc,hk,hout,hr⟩ := D.passes (k := 0) (o := D.marker.length) (by omega) hsees
    (List.ne_nil_of_length_pos (by omega)) (by simp [startWalk]) hok hends (by omega) hfound hret
  simp only [RarVolume.found,Prod.mk.injEq,List.nil_append] at hout
  obtain ⟨d,out',hlast,hentries⟩ := D.block_blind _ 0 p.2 p.1 t _ c out (by omega)
    (v.ok p.2 (by rw [hsplit]; simp)) hc (by rw [hk,hat]) hpart (by omega) (htl ▸ hblind)
  refine ⟨done,rest,hsplit,hat,?_⟩
  rw [D.opens _ hmarker,RarVolume.entries_refuseSolid,hr.of_done hlast,hentries,hout.1]

theorem agrees_of_clear (hsmall : v.bytes.length<2^31) (hn : D.marker.length≤n)
    (hclear : v.Clear n) : AgreesOnPrefix v.bytes n := by
  obtain ⟨done,rest,h⟩ := open_progress hsmall hn hclear
  intro e he
  have hmem := (h.entries_prefix hsmall).subset he
  rw [parse_whole hsmall] at hmem ⊢
  exact Layout.entriesFrom_find hmem

theorem agrees_of_short (hn : n<D.marker.length) : AgreesOnPrefix v.bytes n := by
  intro e he
  rw [bytes,List.take_append_of_le_length hn.le,D.opens_short n hn] at he
  simp at he

end Image

/-- A well-formed volume of either format. -/
inductive RarImage
  | rar4 (v : Image rar4)
  | rar5 (v : Image rar5)

namespace RarImage

def bytes : RarImage → List UInt8
  | .rar4 v => v.bytes
  | .rar5 v => v.bytes

def blockCount : RarImage → Nat
  | .rar4 v => v.blocks.length
  | .rar5 v => v.blocks.length

/-- The first `n` bytes end between the name and the end of the header of an encrypted file. -/
def CutsEncryption : RarImage → Nat → Prop
  | .rar4 _, _ => False
  | .rar5 v, n => ∃ p∈v.placed, p.2.hidesEncryption (n-p.1)

/-- The first `n` bytes end in the size of the data of a block that is not a file. -/
def CutsAddSize : RarImage → Nat → Prop
  | .rar4 v, n => ∃ p∈v.placed, p.2.hidesData (n-p.1)
  | .rar5 _, _ => False

/-- A first window with the marker, and windows behind it with a whole header each. -/
def LongEnough : RarImage → Nat → List Nat → Prop
  | .rar4 v, n, ls => kRar4Marker.length≤n ∧
      Along (readWindow v.bytes) v.LongEnough (openVolume v.bytes n) ls
  | .rar5 v, n, ls => kRar5Marker.length≤n ∧
      Along (readWindow v.bytes) v.LongEnough (openVolume v.bytes n) ls

/-- The windows yield the entries of one parse of the whole, in order: as far as they got, all of
them at the end, and the end is reached. -/
structure Yields (v : RarImage) (n : Nat) (ls : List Nat) : Prop where
  order : (readWindows v.bytes n ls).entries <+: (parseRarVolume v.bytes).entries
  all : (readWindows v.bytes n ls).Finished v.bytes →
    (readWindows v.bytes n ls).entries = (parseRarVolume v.bytes).entries
  enough : v.blockCount ≤ ls.length → (readWindows v.bytes n ls).Finished v.bytes

end RarImage

theorem Image.rar4_agrees (v : Image rar4) (hsmall : v.bytes.length<2^31) (n : Nat) :
    AgreesOnPrefix v.bytes n := by
  rcases Nat.lt_or_ge n rar4.marker.length with hn | hn
  · exact agrees_of_short hn
  by_cases hclear : v.Clear n
  · exact agrees_of_clear hsmall hn hclear
  · simp only [Image.Clear,not_forall,not_not] at hclear
    obtain ⟨p,hp,hblind⟩ := hclear
    obtain ⟨done,rest,hsplit,-,hentries⟩ := open_blind hsmall hp hblind
    intro e he
    have hglimpse : rar4.glimpse p.2 p.1=[] := rfl
    rw [hentries,hglimpse,List.append_nil] at he
    rw [parse_whole hsmall]
    refine Layout.entriesFrom_find ?_
    rw [hsplit,Layout.entriesFrom_append]
    exact List.mem_append_left _ he

theorem Image.rar5_agrees (v : Image rar5) (hsmall : v.bytes.length<2^31) (n : Nat) :
    AgreesOnPrefix v.bytes n ↔ ¬ ∃ p∈v.placed, p.2.hidesEncryption (n-p.1) := by
  constructor
  · rintro hagree ⟨p,hp,hblind⟩
    obtain ⟨done,rest,hsplit,hat,hentries⟩ := open_blind hsmall hp hblind
    obtain ⟨⟨f,hf⟩,henc,-,-⟩ := hblind
    have hok : p.2.Ok := v.ok p.2 (by rw [hsplit]; simp)
    have hends := Rar5Block.not_ends hok (by simp [hf])
    obtain ⟨e,he,hse⟩ : ∃ e, p.2.entry p.1=some e ∧ e.encrypted=true := by
      rw [Rar5Block.entry,hf]
      exact ⟨_,rfl,henc⟩
    have hentry : rar5.layout.entry p.2 p.1=some e := by
      rw [← he]
      exact Rar5Block.ends_false hends
    have hglimpse : rar5.glimpse p.2 p.1=[{ e with encrypted := false }] := by
      simp [rar5,he]
    have hmem : e∈rar5.layout.entriesFrom rar5.marker.length v.blocks := by
      rw [hsplit,Layout.entriesFrom_append,← hat,Layout.entriesFrom,hentry]
      simp
    have hwhole := Layout.entriesFrom_find hmem
    have hseen := hagree { e with encrypted := false } (by rw [hentries,hglimpse]; simp)
    rw [parse_whole hsmall] at hseen
    have hsame := Option.some.inj (hwhole.symm.trans hseen)
    have hfalse := congrArg RarEntry.encrypted hsame
    exact absurd (hse.symm.trans hfalse) (by simp)
  · intro hnone
    rcases Nat.lt_or_ge n rar5.marker.length with hn | hn
    · exact agrees_of_short hn
    · exact agrees_of_clear hsmall hn fun p hp h => hnone ⟨p,hp,h⟩

theorem Image.yields {v : Image D} (hsmall : v.bytes.length<2^31) {n : Nat} {ls : List Nat}
    (hn : D.marker.length≤n) (hclear : v.Clear n)
    (hlong : Along (readWindow v.bytes) v.LongEnough (openVolume v.bytes n) ls) :
    (readWindows v.bytes n ls).entries <+: (parseRarVolume v.bytes).entries ∧
      ((readWindows v.bytes n ls).Finished v.bytes →
        (readWindows v.bytes n ls).entries=(parseRarVolume v.bytes).entries) ∧
      (v.blocks.length≤ls.length → (readWindows v.bytes n ls).Finished v.bytes) := by
  obtain ⟨done,rest,hopen⟩ := open_progress hsmall hn hclear
  obtain ⟨done',rest',hrun⟩ := run_progress hopen hsmall ls
  refine ⟨hrun.entries_prefix hsmall,hrun.finished hsmall,fun hl => ?_⟩
  refine hopen.finishes hsmall hlong ?_
  rw [hopen.split,List.length_append] at hl
  omega

/-- Prefixes and windows of a volume tell of its entries what the whole volume tells, unless the
first window ends where the parser, which does not verify that header, is misled. -/
theorem parseRarVolume_windows (v : RarImage) (hsmall : v.bytes.length < 2 ^ 31) (n : Nat)
    (ls : List Nat) :
    (AgreesOnPrefix v.bytes n ↔ ¬ v.CutsEncryption n) ∧
      (¬ v.CutsEncryption n → ¬ v.CutsAddSize n → v.LongEnough n ls → v.Yields n ls) := by
  cases v with
  | rar4 v =>
    refine ⟨⟨fun _ h => h,fun _ => v.rar4_agrees hsmall n⟩,fun _ hcut hlong => ?_⟩
    have hclear : v.Clear n := fun p hp h => hcut ⟨p,hp,h⟩
    obtain ⟨horder,hall,henough⟩ := Image.yields hsmall hlong.1 hclear hlong.2
    exact ⟨horder,hall,henough⟩
  | rar5 v =>
    refine ⟨v.rar5_agrees hsmall n,fun hcut _ hlong => ?_⟩
    have hclear : v.Clear n := fun p hp h => hcut ⟨p,hp,h⟩
    obtain ⟨horder,hall,henough⟩ := Image.yields hsmall hlong.1 hclear hlong.2
    exact ⟨horder,hall,henough⟩

/-- A number of one byte. -/
def Vint.small (b : UInt8) (h : vintShaped [b] = true) : Vint := ⟨[b], h, by simp⟩

/-- An encrypted file of three bytes named `a`. -/
def encryptedFile : Rar5Block where
  size := .small 14 rfl
  type := .small 2 rfl
  flags := .small 3 rfl
  extraSize := .small 3 rfl
  dataSize := .small 3 rfl
  fields := .file {
    fileFlags := .small 0 rfl
    unpackedSize := .small 3 rfl
    attributes := .small 0 rfl
    time := 0
    dataCrc := 0
    compInfo := .small 0 rfl
    hostOs := .small 0 rfl
    nameLength := .small 1 rfl
    name := [0x61]
    named := rfl }
  rest := []
  extra := [{ size := .small 2 rfl, type := .small 1 rfl, payload := [0], sized := rfl }]
  data := [7,8,9]

def encryptedVolume : Image rar5 where
  blocks := [encryptedFile]
  trailer := []
  ok b hb := by
    obtain rfl := List.mem_singleton.mp hb
    exact ⟨rfl,rfl,rfl,rfl⟩
  closed := rfl

/-- A comment of two bytes, and a stored file of one byte named `a`. -/
def commentBlock : Rar4Block where
  type := 0x7A
  flags := 0x8000
  file := none
  rest := []
  data := [1,2]

def storedFile : Rar4Block where
  type := 0x74
  flags := 0x8000
  file := some {
    packSize := 1
    unpSize := 1
    hostOs := 0
    fileCrc := 0
    fTime := 0
    unpVer := 20
    method := 0x30
    attr := 0
    name := [0x61] }
  rest := []
  data := [7]

def commentedVolume : Image rar4 where
  blocks := [commentBlock,storedFile]
  trailer := []
  ok b hb := by
    rcases List.mem_pair.mp hb with rfl | rfl
    · exact ⟨by decide,by decide,by simp [commentBlock],by simp [commentBlock],
        by simp [commentBlock,Rar4Block.long,hasFlag,kLhdLongBlock]⟩
    · refine ⟨by decide,by decide,fun f hf => ?_,fun f hf _ => ?_,fun h => ?_⟩
      · obtain rfl := Option.some.inj hf
        rfl
      · obtain rfl := Option.some.inj hf
        decide
      · cases h
  closed := rfl

/-- A window that ends behind the name of `encryptedFile` reports it as not encrypted; one that
ends in the size of `commentBlock` makes the next one look for a header in the comment. -/
theorem not_parseRarVolume_windows :
    ¬ AgreesOnPrefix (RarImage.rar5 encryptedVolume).bytes 25 ∧
      (RarImage.rar4 commentedVolume).LongEnough 15 [40, 40, 40] ∧
      ¬ (RarImage.rar4 commentedVolume).Yields 15 [40, 40, 40] := by
  refine ⟨by decide +kernel,⟨by decide,by decide +kernel⟩,fun h => ?_⟩
  exact absurd (h.enough (by decide)) (by decide +kernel)

/-- Two windows over `encryptedVolume`, the first one with all of its header. -/
theorem parseRarVolume_windows_sample :
    AgreesOnPrefix (RarImage.rar5 encryptedVolume).bytes 27 ∧
      (readWindows (RarImage.rar5 encryptedVolume).bytes 27 [40]).entries =
        (parseRarVolume (RarImage.rar5 encryptedVolume).bytes).entries := by
  have hsmall : (RarImage.rar5 encryptedVolume).bytes.length<2^31 := by decide +kernel
  have hclear : ¬ (RarImage.rar5 encryptedVolume).CutsEncryption 27 := by
    rintro ⟨p,hp,-,-,-,hlt⟩
    obtain rfl := List.mem_singleton.mp hp
    exact absurd hlt (by decide)
  obtain ⟨hagree,hyields⟩ := parseRarVolume_windows _ hsmall 27 [40]
  have hlong : (RarImage.rar5 encryptedVolume).LongEnough 27 [40] :=
    ⟨by decide,by decide +kernel⟩
  exact ⟨hagree.mpr hclear,(hyields hclear id hlong).all (by decide +kernel)⟩

end EmuleQt.Usenet
