import EmuleQt.Usenet.Rar4Blocks
import EmuleQt.Usenet.Rar5Blocks

namespace EmuleQt.Usenet

open Framework Math Cursor

variable {buf : List UInt8} {base : Int} {verifyCrc : Bool} {c d : Cursor} {out : RarVolume}

/-- A pass over a block at `blockStart` goes on behind it, and keeps the format in either case. -/
structure Steps (blockStart : Int) (out : RarVolume) (result : Walk ⊕ Walk) : Prop where
  moves : ∀ w, result = .inl w → blockStart < w.1.pos
  format : ∀ w, result = .inl w ∨ result = .inr w → w.2.format = out.format

namespace Steps

variable {blockStart : Int} {out' : RarVolume}

theorem stop (h : out'.format=out.format) : Steps blockStart out (.inr (d, out')) := by
  constructor
  · intro w hw
    cases hw
  · rintro w (hw | hw)
    · cases hw
    · cases hw
      exact h

theorem nextBlock {next : Int} {stop : Bool} (h : out'.format=out.format) :
    Steps blockStart out (nextBlock buf base blockStart next stop d out') := by
  simp only [EmuleQt.Usenet.nextBlock]
  split
  · exact .stop h
  split
  · refine .stop ?_
    rw [RarVolume.cut]
    split <;> exact h
  · constructor
    · intro w hw
      simp only [Sum.inl.injEq] at hw
      rw [← hw,seek_pos]
      omega
    · rintro w (hw | hw)
      · cases hw
        exact h
      · cases hw

end Steps

theorem RarVolume.format_cut : out.cut.format=out.format := by
  rw [RarVolume.cut]
  split <;> rfl

theorem verifyHeader_format {w : Nat} {blockStart covered headerEnd : Int} {r : RarVolume}
    (h : ((verifyHeader buf w blockStart covered headerEnd out).run c).1=some r) :
    r.format=out.format := by
  rw [verifyHeader] at h
  split at h
  · have hr : some out.cut=some r := h
    rw [← Option.some.inj hr,RarVolume.format_cut]
  · rw [run_bind,run_bind] at h
    split at h
    · have hr := Option.some.inj h
      rw [← hr]
      rfl
    · cases h

theorem rar4Content_steps {h : Rar4Head} :
    Steps c.pos out (rar4Content buf base c.pos h d out) := by
  simp only [rar4Content]
  split
  · exact .stop rfl
  split
  · split
    · exact .stop rfl
    · exact .nextBlock rfl
  split
  · split
    · exact .stop out.format_cut
    · exact .nextBlock rfl
  · exact .nextBlock rfl

theorem rar4Block_steps : Steps c.pos out (rar4Block buf base verifyCrc (c, out)) := by
  simp only [rar4Block]
  split
  · exact .stop rfl
  split
  · exact .stop out.format_cut
  split
  · exact .stop rfl
  split
  · rename_i r hr
    refine .stop ?_
    cases verifyCrc with
    | false => cases hr
    | true => exact verifyHeader_format hr
  · exact rar4Content_steps

theorem rar5Content_steps {bodyStart headerEnd : Int} :
    Steps c.pos out (rar5Content buf base c.pos bodyStart headerEnd d out) := by
  simp only [rar5Content]
  split
  · exact .stop rfl
  split
  · exact .stop rfl
  split
  · split
    · exact .stop rfl
    · exact .nextBlock rfl
  split
  · split
    · exact .stop out.format_cut
    · exact .nextBlock rfl
  split
  · exact .stop rfl
  · exact .nextBlock rfl

theorem rar5Block_steps : Steps c.pos out (rar5Block buf base verifyCrc (c, out)) := by
  simp only [rar5Block]
  split
  · exact .stop rfl
  split
  · exact .stop out.format_cut
  split
  · exact .stop rfl
  split
  · rename_i r hr
    refine .stop ?_
    cases verifyCrc with
    | false => cases hr
    | true => exact verifyHeader_format hr
  · exact rar5Content_steps

theorem rar4Block_end (h : (buf.length : Int)≤c.pos) :
    rar4Block buf base verifyCrc (c, out) = .inr (c, out) := if_pos h

theorem rar5Block_end (h : (buf.length : Int)≤c.pos) :
    rar5Block buf base verifyCrc (c, out) = .inr (c, out) := if_pos h

/-- One of the two formats: how its blocks are laid out and read. `blind b n` says that `n` bytes
of the block mislead a reader that does not check the header, `glimpse` what it then reports. -/
structure Dialect (β : Type) where
  layout : Layout β
  marker : List UInt8
  format : RarFormat
  Ok : β → Prop
  blind : β → Nat → Prop
  block : List UInt8 → Int → Bool → Walk → Walk ⊕ Walk
  glimpse : β → Nat → List RarEntry
  blind_pos : ∀ b n, blind b n → 0 < n
  blind_short : ∀ b n, blind b n → n < (layout.header b).length
  block_end : ∀ buf base verifyCrc c out, (buf.length : Int) ≤ c.pos →
    block buf base verifyCrc (c, out) = .inr (c, out)
  block_steps : ∀ buf base verifyCrc c out, Steps c.pos out (block buf base verifyCrc (c, out))
  block_pass : ∀ (buf : List UInt8) (k : Nat) verifyCrc b (o : Nat) got rest c out,
    buf.length < 2 ^ 31 → Ok b → Sees buf c got → got ≠ [] → c.pos + k = o →
    got <+: layout.bytes b ++ rest → o + layout.size b < 2 ^ 31 →
    (verifyCrc = true ∨ ¬ blind b got.length) →
    layout.Pass buf b o got out (block buf k verifyCrc (c, out))
  block_blind : ∀ (buf : List UInt8) (k : Nat) b (o : Nat) got rest c out,
    buf.length < 2 ^ 31 → Ok b → Sees buf c got → c.pos + k = o →
    got <+: layout.bytes b ++ rest → o + layout.size b < 2 ^ 31 → blind b got.length →
    ∃ d out', block buf k false (c, out) = .inr (d, out') ∧
      out'.entries = out.entries ++ glimpse b o
  opens : ∀ buf, marker <+: buf → parseRarVolume buf =
    (walkBlocks buf (block buf 0 false) format marker.length 0).2.refuseSolid
  opens_short : ∀ n < marker.length, (parseRarVolume (marker.take n)).entries = []
  resumes : ∀ buf base, parseRarBlocks format buf base =
    (walkBlocks buf (block buf base true) format 0 base).2

theorem parseRarVolume_rar4 (h : kRar4Marker <+: buf) : parseRarVolume buf =
    (walkBlocks buf (rar4Block buf 0 false) .Rar4 kRar4Marker.length 0).2.refuseSolid := by
  have h4 : kRar4Marker.isPrefixOf buf=true := List.isPrefixOf_iff_prefix.mpr h
  have h5 : ¬ kRar5Marker.isPrefixOf buf=true := by
    intro h5
    obtain ⟨t,rfl⟩ := h
    simp [kRar4Marker,kRar5Marker] at h5
  rw [parseRarVolume,walkVolume,if_neg h5,if_pos h4]
  rfl

theorem parseRarVolume_rar5 (h : kRar5Marker <+: buf) : parseRarVolume buf =
    (walkBlocks buf (rar5Block buf 0 false) .Rar5 kRar5Marker.length 0).2.refuseSolid := by
  have h5 : kRar5Marker.isPrefixOf buf=true := List.isPrefixOf_iff_prefix.mpr h
  rw [parseRarVolume,walkVolume,if_pos h5]
  rfl

theorem Rar4Block.hidesData.pos {b : Rar4Block} {n : Nat} (h : b.hidesData n) : 0<n :=
  Nat.lt_of_lt_of_le (by decide) h.2.2.2.1

theorem Rar4Block.hidesData.short {b : Rar4Block} {n : Nat} (h : b.hidesData n) :
    n<b.header.length := by
  obtain ⟨hfile,hlong,-,-,hn⟩ := h
  rw [header_length,headSize,fields,hfile]
  simp only [hlong,if_true,leBytes_length]
  omega

theorem Rar5Block.hidesEncryption.pos {b : Rar5Block} {n : Nat} (h : b.hidesEncryption n) :
    0<n := by
  have hl := h.2.2.1
  rw [readSize] at hl
  omega

def rar4 : Dialect Rar4Block where
  layout := Rar4Block.layout
  marker := kRar4Marker
  format := .Rar4
  Ok := Rar4Block.Ok
  blind := Rar4Block.hidesData
  block := rar4Block
  glimpse _ _ := []
  blind_pos _ _ h := h.pos
  blind_short _ _ h := h.short
  block_end _ _ _ _ _ h := rar4Block_end h
  block_steps _ _ _ _ _ := rar4Block_steps
  block_pass _ _ _ _ _ _ _ _ _ hb hok hc hne hk hp hs hh := rar4Block_pass hb hok hc hne hk hp hs hh
  block_blind _ _ _ _ _ _ _ _ hb hok hc hk hp hs hh := by
    simpa using rar4Block_hides hb hok hc hk hp hs hh
  opens _ h := parseRarVolume_rar4 h
  opens_short := by decide
  resumes _ _ := rfl

def rar5 : Dialect Rar5Block where
  layout := Rar5Block.layout
  marker := kRar5Marker
  format := .Rar5
  Ok := Rar5Block.Ok
  blind := Rar5Block.hidesEncryption
  block := rar5Block
  glimpse b o := (b.entry o).toList.map fun e => { e with encrypted := false }
  blind_pos _ _ h := h.pos
  blind_short _ _ h := h.2.2.2
  block_end _ _ _ _ _ h := rar5Block_end h
  block_steps _ _ _ _ _ := rar5Block_steps
  block_pass _ _ _ _ _ _ _ _ _ hb hok hc hne hk hp hs hh := rar5Block_pass hb hok _ hc hne hk hp hs hh
  block_blind _ _ _ _ _ _ _ _ hb hok hc hk hp hs hh := by
    obtain ⟨d, out', e, hout, he, -, hentries⟩ := rar5Block_hides hb hok hc hk hp hs hh
    exact ⟨d, out', hout, by simp [hentries, he]⟩
  opens _ h := parseRarVolume_rar5 h
  opens_short := by decide
  resumes _ _ := rfl

/-- A volume: a marker, blocks, and after the end of the archive whatever there is. -/
structure Image {β : Type} (D : Dialect β) where
  blocks : List β
  trailer : List UInt8
  ok : ∀ b ∈ blocks, D.Ok b
  closed : D.layout.Closed blocks trailer

def Image.bytes {β : Type} {D : Dialect β} (v : Image D) : List UInt8 :=
  D.marker ++ (D.layout.chain v.blocks ++ v.trailer)

namespace Dialect

variable {β : Type} (D : Dialect β) {k o : Nat} {got t trailer : List UInt8}
  {bs done rest : List β} {es : List RarEntry} {startPos : Int}

theorem walkBlocks_returns (buf : List UInt8) (base : Int) (verifyCrc : Bool) (hs : 0 ≤ startPos) :
    Returns (D.block buf base verifyCrc) (startWalk D.format startPos base)
        (walkBlocks buf (D.block buf base verifyCrc) D.format startPos base) ∧
      (walkBlocks buf (D.block buf base verifyCrc) D.format startPos base).2.format=D.format := by
  have hstep : ∀ w w' : Walk, 0≤w.1.pos ∧ w.2.format=D.format →
      D.block buf base verifyCrc w = .inl w' → (0≤w'.1.pos ∧ w'.2.format=D.format) ∧
        (buf.length-w'.1.pos).toNat<(buf.length-w.1.pos).toNat := by
    intro w w' hw h
    have hsteps := D.block_steps buf base verifyCrc w.1 w.2
    have hmove := hsteps.moves w' h
    have hin : w.1.pos<buf.length := by
      by_contra hn
      exact absurd ((D.block_end buf base verifyCrc w.1 w.2 (by omega)).symm.trans h) (by simp)
    refine ⟨⟨by omega,?_⟩,by omega⟩
    rw [hsteps.format w' (.inl h),hw.2]
  have hfuel : (buf.length-startPos).toNat<buf.length+1 := by omega
  have hstart : 0≤(startWalk D.format startPos base).1.pos ∧
      (startWalk D.format startPos base).2.format=D.format := ⟨hs,rfl⟩
  obtain ⟨r,hr⟩ := loop_of_measure hstep hstart hfuel
  have hwalk : walkBlocks buf (D.block buf base verifyCrc) D.format startPos base=r := by
    rw [walkBlocks,hr]
    rfl
  have hreturns := loop_returns hr
  rw [hwalk]
  refine ⟨hreturns,?_⟩
  obtain ⟨w,hw,hlast⟩ := hreturns.last (fun a b ha hb => (hstep a b ha hb).1) hstart
  rw [(D.block_steps buf base verifyCrc w.1 w.2).format r (.inr hlast),hw.2]

theorem walkBlocks_reached (hb : buf.length<2^31) (hs : 0 ≤ startPos)
    (hl : startPos≤buf.length) (hk : startPos+k=o) (hok : ∀ b∈bs,D.Ok b)
    (hp : buf.drop startPos.toNat <+: D.layout.chain bs++trailer)
    (hcl : D.layout.Closed bs trailer) (hsmall : o+(D.layout.chain bs).length<2^31)
    (hblind : verifyCrc=true ∨
      ∀ p∈D.layout.placed o bs,¬ D.blind p.2 (k+buf.length-p.1)) :
    ∃ done rest, D.layout.Reached o bs (buf.length-startPos.toNat) []
      (walkBlocks buf (D.block buf k verifyCrc) D.format startPos k).2.found done rest := by
  have hret := (D.walkBlocks_returns buf k verifyCrc hs).1
  have hsees : Sees buf (startWalk D.format startPos k).1 (buf.drop startPos.toNat) :=
    ⟨rfl,hs,hl,rfl⟩
  have hlen : (buf.drop startPos.toNat).length=buf.length-startPos.toNat := List.length_drop
  have hfound : (startWalk D.format startPos k).2.found=([], ↑o, false) := by
    have hq : toQint64 (k+startPos)=o := by
      rw [toQint64_eq (by omega) (by omega)]
      omega
    simp [startWalk,RarVolume.found,hq]
  rw [← hlen]
  refine D.layout.reached (fun b n => D.Ok b ∧ (verifyCrc=true ∨ ¬ D.blind b n))
    (D.block_end buf k verifyCrc) ?_ hsees hk hp hcl hsmall ?_ hfound hret
  · intro b o got rest c out hc hne hk hp hsmall hknown
    exact D.block_pass buf k verifyCrc b o got rest c out hb hknown.1 hc hne hk hp hsmall hknown.2
  · intro p hp
    have hn : o+(buf.drop startPos.toNat).length-p.1=k+buf.length-p.1 := by omega
    rw [hn]
    exact ⟨hok p.2 (Layout.mem_of_placed hp),hblind.imp_right fun h => h p hp⟩

/-- Blocks that lie in the buffer with something after them are passed over. -/
theorem passes (hb : buf.length<2^31) (hc : Sees buf c (D.layout.chain done++t))
    (ht : t≠[]) (hk : c.pos+k=o) (hok : ∀ b∈done,D.Ok b)
    (hends : ∀ b∈done,D.layout.ends b=false)
    (hsmall : o+(D.layout.chain done).length<2^31) (hout : out.found=(es, ↑o, false))
    {r : Walk} (hr : Returns (D.block buf k verifyCrc) (c, out) r) :
    ∃ c' out', Sees buf c' t ∧ c'.pos+k = ↑(o+(D.layout.chain done).length) ∧
      out'.found=(es++D.layout.entriesFrom o done, ↑(o+(D.layout.chain done).length), false) ∧
      Returns (D.block buf k verifyCrc) (c', out') r := by
  induction done generalizing o c out es with
  | nil => exact ⟨c,out,by simpa using hc,by simpa using hk,by simp [hout,Layout.entriesFrom],hr⟩
  | cons b bs ih =>
    have hsz : o+D.layout.size b+(D.layout.chain bs).length<2^31 := by
      simpa [Layout.size,Nat.add_assoc] using hsmall
    have hgot : D.layout.chain (b::bs)++t=D.layout.bytes b++(D.layout.chain bs++t) := by
      simp
    rw [hgot] at hc
    have hlong : D.layout.size b<(D.layout.bytes b++(D.layout.chain bs++t)).length := by
      have h := List.length_pos_of_ne_nil ht
      simp only [List.length_append,Layout.size]
      omega
    have hseen : ¬ D.blind b (D.layout.bytes b++(D.layout.chain bs++t)).length := by
      intro h
      have hl := D.blind_short b _ h
      have hs := Layout.size_eq (L := D.layout) (b := b)
      omega
    have hpass := D.block_pass buf k verifyCrc b o _ _ c out hb (hok b List.mem_cons_self) hc
      (by simp [ht]) hk (List.prefix_refl _) (by omega) (.inr hseen)
    have hb' := hends b List.mem_cons_self
    have hs := Layout.size_eq (L := D.layout) (b := b)
    generalize hbody : D.block buf k verifyCrc (c, out)=result at hpass
    cases hpass with
    | short d' out' hl hf => omega
    | last d' out' he hf => exact absurd (he.symm.trans hb') (by simp)
    | full d' out' he hl hf => omega
    | next d' out' he hl hsees hf =>
      have hlen := hc.length
      have hlen' := hsees.length
      rw [Layout.size,List.drop_left] at hsees
      simp only [RarVolume.found,Prod.mk.injEq] at hout
      have hfound :
          out'.found=(es++(D.layout.entry b o).toList, ↑(o+D.layout.size b), false) := by
        rw [hf,hout.1,hout.2.2]
      obtain ⟨c',out'',hsees',hk',hfound',hr'⟩ := ih hsees
        (by rw [List.length_drop] at hlen'; omega) (fun x hx => hok x (List.mem_cons_of_mem b hx))
        (fun x hx => hends x (List.mem_cons_of_mem b hx)) hsz hfound (hr.of_again hbody)
      refine ⟨c',out'',hsees',?_,?_,hr'⟩
      · simpa [Layout.size,Nat.add_assoc] using hk'
      · simpa [Layout.entriesFrom,Layout.size,Nat.add_assoc] using hfound'

end Dialect

end EmuleQt.Usenet
