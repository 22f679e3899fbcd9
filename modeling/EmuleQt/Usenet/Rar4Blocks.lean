import EmuleQt.Usenet.RarChain

namespace EmuleQt.Usenet

open Framework Math Cursor

variable {buf got t rest : List UInt8} {b : Rar4Block} {c d : Cursor} {k o : Nat}
  {out : RarVolume}

namespace Rar4Block

/-- The bytes every block begins with. -/
def front (b : Rar4Block) : List UInt8 :=
  leBytes 2 (crc32Of b.covered).toNat ++ ([b.type] ++
    (leBytes 2 b.flags.toNat ++ (leBytes 2 b.headSize ++ [])))

theorem front_length : b.front.length=7 := by simp [front]

theorem header_eq : b.header=b.front++(b.fields++b.rest) := by
  simp [header,front,covered]

theorem header_length : b.header.length=b.headSize := by
  rw [header_eq,List.length_append,front_length,headSize,List.length_append,Nat.add_assoc]

def layout : Layout Rar4Block where
  header := header
  data := data
  ends := ends
  entry b o := if b.ends then none else b.entry o
  entry_of_ends b o h := by simp [h]
  entry_offset b o e h := by
    split at h
    · cases h
    · obtain ⟨f, -, rfl⟩ := Option.map_eq_some_iff.mp h
      rfl
  header_pos b := by
    rw [header_length, headSize]
    omega

end Rar4Block

open Rar4Block

theorem readRar4Head_takes (hb : buf.length<2^31) (hok : b.Ok) :
    Takes buf (readRar4Head buf) b.front ⟨b.type.toNat,b.flags.toNat,b.headSize⟩ := by
  have hflags := u16_takes hb b.flags.toNat
  have hsize := u16_takes hb b.headSize
  rw [Nat.mod_eq_of_lt b.flags.toNat_lt] at hflags
  rw [Nat.mod_eq_of_lt hok.sized] at hsize
  refine .bind (u16_takes hb _) (.bind (u8_takes hb _) (.bind hflags (.bind hsize (.pure _) ?_)
    ?_) ?_) ?_
  all_goals
    intro _
    with_reducible repeat' first
      | exact .pure _ | exact u8_trips | exact u16_trips | refine .bind ?_ fun _ => ?_

/-- What is read of the fields of a file header. -/
def Rar4FileHead.read (f : Rar4FileHead) (flags : UInt16) : Rar4File where
  packLow := f.packSize.toNat % 2 ^ 32
  unpLow := f.unpSize.toNat % 2 ^ 32
  method := f.method.toNat
  packHigh := if hasFlag flags.toNat kLhdLarge then f.packSize.toNat / 2 ^ 32 % 2 ^ 32 else 0
  unpHigh := if hasFlag flags.toNat kLhdLarge then f.unpSize.toNat / 2 ^ 32 % 2 ^ 32 else 0
  rawName := f.name

theorem readRar4File_takes (hb : buf.length<2^31) (f : Rar4FileHead) (flags : UInt16)
    (hn : f.name.length<2^16) :
    Takes buf (readRar4File buf flags.toNat) (f.bytes flags) (f.read flags) := by
  have hname := u16_takes hb f.name.length
  rw [Nat.mod_eq_of_lt hn] at hname
  have hbytes : Takes buf (bytes buf f.name.length) f.name f.name :=
    bytes_takes hb rfl (by omega)
  have hhigh (v : Nat) := whenSet_takes (p := hasFlag flags.toNat kLhdLarge) (u32_takes hb v)
  refine .bind (u32_takes hb _) (.bind (u32_takes hb _) (.bind (u8_takes hb _)
    (.bind (u32_takes hb _) (.bind (u32_takes hb _) (.bind (u8_takes hb _) (.bind (u8_takes hb _)
    (.bind hname (.bind (u32_takes hb _) (.bind (hhigh _) (.bind (hhigh _)
    (.bind hbytes (.pure _) ?_) ?_) ?_) ?_) ?_) ?_) ?_) ?_) ?_) ?_) ?_) ?_
  all_goals
    intro _
    with_reducible repeat' first
      | exact .pure _ | exact u8_trips | exact u16_trips | exact u32_trips | exact bytes_trips _
      | exact whenSet_trips u32_trips | refine .bind ?_ fun _ => ?_

theorem Rar4Block.size_eq : layout.size b=b.headSize+b.data.length := by
  rw [Layout.size_eq]
  exact congrArg (· + b.data.length) header_length

theorem Rar4Block.ends_false (h : layout.ends b=false) : layout.entry b o=b.entry o := by
  have h' : b.ends=false := h
  simp [layout,h']

theorem addSize_run (hb : buf.length<2^31) (hok : b.Ok) (hfile : b.file=none)
    (hg : got=b.front++t) (hd : Sees buf d t) (ht : t <+: b.fields++rest)
    (hides : ¬ b.hidesData got.length) :
    ((whenSet b.long (u32 buf)).run d).1=b.data.length ∧
      (((whenSet b.long (u32 buf)).run d).2.bad=false ∨ got.length≤layout.size b) := by
  have hplain := hok.plain hfile
  have hgl : got.length=7+t.length := by rw [hg,List.length_append,front_length]
  cases hlong : b.long with
  | false =>
    simp only [hlong,Bool.false_eq_true,if_false] at hplain
    exact ⟨by simp [hplain],.inl hd.fine⟩
  | true =>
    have hfields : b.fields=leBytes 4 b.data.length := by simp [fields,hfile,hlong]
    simp only [hlong,if_true] at hplain
    have hread := u32_takes hb b.data.length
    rw [Nat.mod_eq_of_lt hplain] at hread
    rw [hfields] at ht
    rw [whenSet_true]
    rcases hread.of_chunk hd ht with ⟨hl,hbad⟩ | ⟨t',-,-,hv,hs⟩
    · rw [leBytes_length] at hl
      have hnil : b.data=[] := by
        by_contra hne
        exact hides ⟨hfile,hlong,hne,by omega,by omega⟩
      have hshort := hd.want_short hb (n := 4) (by omega) (by decide)
      refine ⟨?_,.inr ?_⟩
      · rw [u32,number_short hshort.1,hnil]
        rfl
      · rw [size_eq,headSize,hfields,leBytes_length]
        omega
    · exact ⟨hv,.inl hs.fine⟩

theorem join_halves {v : Nat} (large : Bool) (hv : v<2^64)
    (h : large=false → v<2^32) :
    (if large then v/2^32%2^32 else 0) <<< 32 ||| v%2^32=v := by
  cases large with
  | false => simpa using Nat.mod_eq_of_lt (h rfl)
  | true =>
    have hhigh : v/2^32%2^32=v/2^32 := by omega
    have hlow : v%2^32<2^32 := Nat.mod_lt _ (by decide)
    rw [if_pos rfl,hhigh,← Nat.shiftLeft_add_eq_or_of_lt hlow,Nat.shiftLeft_eq]
    omega

theorem Rar4Block.entryAt_eq (hok : b.Ok) {f : Rar4FileHead} (hf : b.file=some f) (_ : 0≤c.pos)
    (hk : c.pos+k=o) (hsmall : o+layout.size b<2^31) :
    b.entry o=some ((f.read b.flags).entryAt ⟨b.type.toNat,b.flags.toNat,b.headSize⟩ k c.pos) := by
  have hs := size_eq (b := b)
  have hdata := hok.packed f hf
  have h1 : toQint64 (f.packSize.toNat : Int)=f.packSize.toNat :=
    toQint64_eq (by omega) (by omega)
  have h2 : toQint64 (k+c.pos)=o := by
    rw [toQint64_eq (by omega) (by omega)]
    omega
  have h3 : toQint64 (k+c.pos+b.headSize)=o+b.headSize := by
    rw [toQint64_eq (by omega) (by omega)]
    omega
  have hpack := join_halves (hasFlag b.flags.toNat kLhdLarge) f.packSize.toNat_lt
    fun h => (hok.small f hf h).1
  have hunp := join_halves (hasFlag b.flags.toNat kLhdLarge) f.unpSize.toNat_lt
    fun h => (hok.small f hf h).2
  simp only [entry,hf,Option.map_some,Rar4File.entryAt,Rar4FileHead.read,hpack,hunp,
    h1,h2,h3]
  rfl

theorem entry_packed (hok : b.Ok) {e : RarEntry} (he : b.entry o=some e) :
    e.packedSize=b.data.length := by
  obtain ⟨f,hf,rfl⟩ := Option.map_eq_some_iff.mp he
  exact congrArg Nat.cast (hok.packed f hf)

theorem rar4Content_pass (hb : buf.length<2^31) (hok : b.Ok) (hc : Sees buf c got)
    (hk : c.pos+k=o) (hsmall : o+layout.size b<2^31) (hg : got=b.front++t)
    (hd : Sees buf d t) (ht : t <+: b.fields++rest) (hides : ¬ b.hidesData got.length) :
    layout.Pass buf b o got out
      (rar4Content buf k c.pos ⟨b.type.toNat,b.flags.toNat,b.headSize⟩ d out) := by
  have hgl : got.length=7+t.length := by rw [hg,List.length_append,front_length]
  have hs := size_eq (b := b)
  have hstart := hc.start
  have hhead : layout.header b=b.header := rfl
  have hnext {v : Int} (hv : v=b.data.length) :
      toQint64 (c.pos+b.headSize+v)=c.pos+layout.size b := by
    rw [toQint64_eq (by omega) (by omega)]
    omega
  rw [rar4Content]
  by_cases hend : b.type.toNat=kRar4TypeEndArc
  · simp only [hend,if_true]
    refine .last _ _ ?_ (by simp [RarVolume.ended,RarVolume.found])
    change b.ends=true
    simp [ends,hend]
  simp only [hend,if_false]
  cases hfile : b.file with
  | some f =>
    have htype : b.type.toNat=kRar4TypeFile := hok.typed.mp (by simp [hfile])
    have hfm : kRar4TypeFile≠kRar4TypeMain := by decide
    have hfields : b.fields=f.bytes b.flags := by simp [fields,hfile]
    have hname : f.name.length<2^16 := by
      have hl : f.name.length≤b.fields.length := by
        simp [hfields,Rar4FileHead.bytes]
        omega
      have h := hok.sized
      rw [headSize] at h
      omega
    have hends : layout.ends b=false := by
      change b.ends=false
      rw [htype] at hend
      simp [ends,htype,hend,hfm]
    have hentry := entryAt_eq hok hfile hstart hk hsmall
    simp only [htype,ne_eq,not_true_eq_false,decide_false,Bool.and_false,whenSet_false,hfm,
      if_false,if_true]
    have hread := readRar4File_takes hb f b.flags hname
    rcases hread.of_chunk hd (hfields ▸ ht) with ⟨hl,hbad⟩ | ⟨t',-,-,hv,hsees⟩
    · rw [if_pos hbad]
      refine .short _ _ ?_ (by simp)
      rw [hhead,header_length,headSize,hfields]
      omega
    · rw [if_neg (by simp [hsees.fine]),hv]
      refine Layout.nextBlock_pass hc hk hsmall hends (hnext (entry_packed hok hentry))
        (.inl hsees.fine) (by simp) ?_
      rw [ends_false hends,hentry]
      simp [RarVolume.found,RarVolume.append,htype]
  | none =>
    have htype : b.type.toNat≠kRar4TypeFile := by
      intro h
      simpa [hfile] using hok.typed.mpr h
    have hentry : b.entry o=none := by simp [entry,hfile]
    obtain ⟨hadd,hbad⟩ := addSize_run hb hok hfile hg hd ht hides
    have hlong : (hasFlag b.flags.toNat kLhdLongBlock && decide (b.type.toNat≠kRar4TypeFile)) =
        b.long := by simp [long,htype]
    simp only [hlong,hadd,htype,if_false]
    by_cases hmain : b.type.toNat=kRar4TypeMain
    · simp only [hmain,if_true]
      split
      · rename_i hpass
        refine .last _ _ ?_ (by simp [RarVolume.refuseHeaders,RarVolume.refuse,RarVolume.found])
        change b.ends=true
        simp [ends,hmain,hpass]
      · rename_i hpass
        have hends : layout.ends b=false := by
          change b.ends=false
          simp [ends,hend,hpass]
        refine Layout.nextBlock_pass hc hk hsmall hends (hnext rfl) hbad (by simp) ?_
        simp [ends_false hends,hentry,RarVolume.found]
    · have hends : layout.ends b=false := by
        change b.ends=false
        simp [ends,hend,hmain]
      rw [if_neg hmain]
      refine Layout.nextBlock_pass hc hk hsmall hends (hnext rfl) hbad (by simp) ?_
      simp [ends_false hends,hentry,RarVolume.found]

/-- One pass of `parseRar4` over a window that begins with a block, or with a part of it. -/
theorem rar4Block_pass (hb : buf.length<2^31) (hok : b.Ok) {verifyCrc : Bool}
    (hc : Sees buf c got) (hne : got≠[]) (hk : c.pos+k=o) (hp : got <+: layout.bytes b++rest)
    (hsmall : o+layout.size b<2^31)
    (hides : verifyCrc=true ∨ ¬ b.hidesData got.length) :
    layout.Pass buf b o got out (rar4Block buf k verifyCrc (c, out)) := by
  have hlen := hc.length
  have hstart := hc.start
  have hs := size_eq (b := b)
  have hhead : layout.header b=b.header := rfl
  have hcover : b.headSize=2+b.covered.length := by
    rw [← header_length,header,List.length_append,leBytes_length]
  have hparts : layout.bytes b++rest =
      b.front++(b.fields++(b.rest++(b.data++rest))) := by
    change b.header++b.data++rest=_
    simp [header_eq]
  have hin : ¬ (buf.length : Int)≤c.pos := by
    have h := List.length_pos_of_ne_nil hne
    omega
  have hsize : ¬ b.headSize<7 := by
    rw [headSize]
    omega
  have hfront := hp
  rw [hparts] at hfront
  simp only [rar4Block]
  rw [if_neg hin]
  rcases (readRar4Head_takes hb hok).of_chunk hc hfront with ⟨hl,hbad⟩ | ⟨t,hgot,ht,hv,hd⟩
  · rw [if_pos hbad]
    refine .short _ _ ?_ (by simp)
    rw [front_length] at hl
    rw [hhead,header_length]
    omega
  rw [hv,if_neg (by simp [hd.fine]),if_neg hsize]
  cases verifyCrc with
  | false => exact rar4Content_pass hb hok hc hk hsmall hgot hd ht (by simpa using hides)
  | true =>
    have hq : toQint64 (c.pos+b.headSize)=c.pos+(2 : Nat)+b.covered.length := by
      rw [toQint64_eq (by omega) (by omega),hcover]
      push_cast
      ring
    rw [Nat.cast_ofNat] at hq
    simp only [if_true,hq]
    rcases Nat.lt_or_ge got.length b.headSize with hlt | hge
    · rw [verifyHeader_cut (by omega)]
      exact .short _ _ (by rwa [hhead,header_length]) (by simp)
    · have hfits : b.header <+: got := by
        refine List.prefix_of_prefix_length_le ?_ hp (by rwa [header_length])
        exact (List.prefix_append b.header b.data).trans (List.prefix_append _ rest)
      obtain ⟨t',ht'⟩ := hfits
      have hsum : Sees buf c (leBytes 2 (crc32Of b.covered).toNat++(b.covered++t')) := by
        rw [← List.append_assoc]
        exact ht' ▸ hc
      have hshown : ¬ b.hidesData got.length := by
        rintro ⟨hfile,hlong,-,-,hn⟩
        rw [headSize,fields,hfile] at hge
        simp only [hlong,if_true,leBytes_length] at hge
        omega
      obtain ⟨e,he,hrun⟩ := verifyHeader_whole out hsum hd
      rw [Nat.cast_ofNat] at hrun
      rw [hrun]
      exact rar4Content_pass hb hok hc hk hsmall hgot he ht hshown

theorem rar4Block_hides (hb : buf.length<2^31) (hok : b.Ok) (hc : Sees buf c got)
    (hk : c.pos+k=o) (hp : got <+: layout.bytes b++rest) (hsmall : o+layout.size b<2^31)
    (hides : b.hidesData got.length) :
    ∃ d out', rar4Block buf k false (c, out) = .inr (d, out') ∧ out'.entries=out.entries := by
  obtain ⟨hfile,hlong,hdata,h7,h11⟩ := hides
  have hlen := hc.length
  have hs := size_eq (b := b)
  have hfields : b.fields=leBytes 4 b.data.length := by simp [fields,hfile,hlong]
  have hhead : 11≤b.headSize := by
    rw [headSize,hfields,leBytes_length]
    omega
  have hfront : got <+: b.front++(b.fields++(b.rest++(b.data++rest))) := by
    have h : layout.bytes b++rest=b.front++(b.fields++(b.rest++(b.data++rest))) := by
      change b.header++b.data++rest=_
      simp [header_eq]
    rwa [h] at hp
  have htype : b.type.toNat≠kRar4TypeFile := by
    intro h
    simpa [hfile] using hok.typed.mpr h
  rcases (readRar4Head_takes hb hok).of_chunk hc hfront with ⟨hl,-⟩ | ⟨t,hgot,ht,hv,hd⟩
  · rw [front_length] at hl
    omega
  have hgl := congrArg List.length hgot
  rw [List.length_append,front_length] at hgl
  have hshort := hd.want_short hb (n := 4) (by omega) (by decide)
  have hadd : (hasFlag b.flags.toNat kLhdLongBlock && decide (b.type.toNat≠kRar4TypeFile))=true := by
    have h : hasFlag b.flags.toNat kLhdLongBlock=true := hlong
    simp [h,htype]
  have hread : ((u32 buf).run ((readRar4Head buf).run c).2).1=0 := by
    rw [u32,number_short hshort.1]
  have hnext : toQint64 (c.pos+b.headSize+0)=c.pos+b.headSize := by
    rw [Int.add_zero,toQint64_eq (by omega) (by omega)]
  have hgo : ¬ c.pos+b.headSize≤c.pos := by omega
  have hstop : false=true ∨ (buf.length : Int)≤c.pos+b.headSize := .inr (by omega)
  simp only [rar4Block]
  rw [if_neg (by omega),hv,if_neg (by simp [hd.fine]),if_neg (by simp only; omega)]
  change ∃ d out', rar4Content buf k c.pos _ ((readRar4Head buf).run c).2 out=_ ∧ _
  rw [rar4Content]
  split
  · exact ⟨_,_,rfl,rfl⟩
  simp only [hadd,whenSet_true,hread,Nat.cast_zero,hnext,nextBlock,if_neg hgo,if_pos hstop]
  split
  · split
    · exact ⟨_,_,rfl,rfl⟩
    · exact ⟨_,_,rfl,RarVolume.entries_cut _⟩
  · exact ⟨_,_,rfl,RarVolume.entries_cut _⟩

end EmuleQt.Usenet
