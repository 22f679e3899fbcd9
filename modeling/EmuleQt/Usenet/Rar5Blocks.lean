import EmuleQt.Usenet.RarChain

namespace EmuleQt.Usenet

open Framework Math Utils.QString Cursor

variable {buf got t rest : List UInt8} {b : Rar5Block} {c d : Cursor} {k o : Nat}
  {out : RarVolume}

theorem vintShaped_pos {xs : List UInt8} (h : vintShaped xs=true) : 0<xs.length := by
  cases xs with
  | nil => simp [vintShaped] at h
  | cons x xs => simp

theorem Cursor.vint_takes (hb : buf.length<2^31) (v : Vint) :
    Takes buf (vint buf) v.bytes v.value := by
  have h : Takes buf (vint buf) v.bytes (0 ||| v.value) := vintFrom_takes hb v.shaped v.short
  rwa [Nat.zero_or] at h

namespace Rar5Block

/-- The checksum and the size of the header. -/
def front (b : Rar5Block) : List UInt8 := leBytes 4 (crc32Of b.covered).toNat ++ b.size.bytes

theorem header_eq : b.header=b.front++(b.common++(b.fields.bytes++(b.rest++b.extraBytes))) := by
  simp [header,front,covered,body]

theorem front_pos : 0<b.front.length := by simp [front]

theorem body_pos : 0<b.body.length := by
  have h := vintShaped_pos b.type.shaped
  simp only [body,common,List.length_append]
  omega

theorem header_length : b.header.length=b.front.length+b.body.length := by
  rw [header_eq,List.length_append]
  rfl

theorem readSize_eq : b.readSize=b.front.length+b.common.length+b.fields.bytes.length := by
  simp [readSize,front]

theorem readSize_le : b.readSize≤b.header.length := by
  rw [header_length,readSize_eq,body]
  simp only [List.length_append]
  omega

def layout : Layout Rar5Block where
  header := header
  data := data
  ends := ends
  entry b o := if b.ends then none else b.entry o
  entry_of_ends b o h := by simp [h]
  entry_offset b o e h := by
    split at h
    · cases h
    · simp only [entry] at h
      split at h
      · simp only [Option.some.injEq] at h
        rw [← h]
      · cases h
  header_pos b := by
    have h := b.front_pos
    rw [header_length]
    omega

theorem size_eq : layout.size b=b.header.length+b.data.length := Layout.size_eq

theorem ends_false (h : layout.ends b=false) : layout.entry b o=b.entry o := by
  have h' : b.ends=false := h
  simp [layout,h']

/-- What the fields of every header read as. -/
def read (b : Rar5Block) : Rar5Head where
  type := b.type.value
  flags := b.flags.value
  extraSize := if hasFlag b.flags.value kHdrExtraArea then b.extraSize.value else 0
  dataSize := if hasFlag b.flags.value kHdrDataArea then b.dataSize.value else 0

theorem read_dataSize (hok : b.Ok) : b.read.dataSize=b.data.length := by
  have h := hok.dataSized
  cases hf : hasFlag b.flags.value kHdrDataArea <;> simp [hf] at h <;> simp [read,hf,h]

theorem read_extraSize (hok : b.Ok) : b.read.extraSize=b.extraBytes.length := by
  have h := hok.extraSized
  cases hf : hasFlag b.flags.value kHdrExtraArea <;> simp [hf] at h <;>
    simp [read,hf,h,extraBytes]

end Rar5Block

open Rar5Block

theorem readRar5Head_takes (hb : buf.length<2^31) :
    Takes buf (readRar5Head buf) b.common b.read := by
  have hwhen (p : Bool) (v : Vint) := whenSet_takes (p := p) (vint_takes hb v)
  refine .bind (vint_takes hb _) (.bind (vint_takes hb _) (.bind (hwhen _ _) (.bind (hwhen _ _)
    (.pure _) ?_) ?_) ?_) ?_
  all_goals
    intro _
    with_reducible repeat' first
      | exact .pure _ | exact vint_trips | exact whenSet_trips vint_trips | refine .bind ?_ fun _ => ?_

def Rar5MainHead.read (m : Rar5MainHead) : Rar5Main where
  arcFlags := m.arcFlags.value
  number := if hasFlag m.arcFlags.value kArcVolNumber then m.number.value else 0

theorem readRar5Main_takes (hb : buf.length<2^31) (m : Rar5MainHead) :
    Takes buf (readRar5Main buf) m.bytes m.read := by
  refine .bind (vint_takes hb _) (.bind (whenSet_takes (vint_takes hb _)) (.pure _) ?_) ?_
  all_goals
    intro _
    with_reducible repeat' first
      | exact .pure _ | exact whenSet_trips vint_trips | refine .bind ?_ fun _ => ?_

def Rar5FileHead.read (f : Rar5FileHead) : Rar5File where
  unpackedSize := f.unpackedSize.value
  compInfo := f.compInfo.value
  rawName := f.name

theorem readRar5File_takes (hb : buf.length<2^31) (f : Rar5FileHead)
    (hn : f.name.length<2^62) : Takes buf (readRar5File buf) f.bytes f.read := by
  have hname : toQint64 f.nameLength.value=f.name.length := by
    rw [f.named,toQint64_eq (by omega) (by omega)]
  have hbytes : Takes buf (bytes buf (toQint64 f.nameLength.value)) f.name f.name :=
    bytes_takes hb hname hn
  refine .bind (vint_takes hb _) (.bind (vint_takes hb _) (.bind (vint_takes hb _)
    (.bind (whenSet_takes (u32_takes hb _)) (.bind (whenSet_takes (u32_takes hb _))
    (.bind (vint_takes hb _) (.bind (vint_takes hb _) (.bind (vint_takes hb _)
    (.bind hbytes (.pure _) ?_) ?_) ?_) ?_) ?_) ?_) ?_) ?_) ?_
  all_goals
    intro _
    with_reducible repeat' first
      | exact .pure _ | exact vint_trips | exact whenSet_trips u32_trips | exact bytes_trips _
      | refine .bind ?_ fun _ => ?_

theorem Rar5Record.pos (r : Rar5Record) : 0<r.size.value := by
  have h := vintShaped_pos r.type.shaped
  rw [r.sized]
  omega

theorem extraRecord_run (hb : buf.length<2^31) (r : Rar5Record) (areaEnd : Int)
    (hc : Sees buf c (r.bytes++rest)) (hend : c.pos+r.bytes.length≤areaEnd) :
    (r.encrypts=true ∧ ∃ d, extraRecord buf areaEnd c = .inr (true, d)) ∨
      r.encrypts=false ∧ ∃ d, Sees buf d rest ∧ d.pos=c.pos+r.bytes.length ∧
        extraRecord buf areaEnd c = .inl d := by
  have hstart := hc.start
  have hlen := hc.length
  have hin : ¬ (areaEnd≤c.pos ∨ c.bad=true) := by
    have h := vintShaped_pos r.size.shaped
    simp only [Rar5Record.bytes,List.length_append,Nat.cast_add] at hend
    simp only [hc.fine,Bool.false_eq_true,or_false]
    omega
  have hread : Sees buf c (r.size.bytes++(r.type.bytes++(r.payload++rest))) := by
    simpa [Rar5Record.bytes] using hc
  obtain ⟨hsv,hsize⟩ := (vint_takes hb r.size).whole c _ hread
  obtain ⟨htv,htype⟩ := (vint_takes hb r.type).whole _ _ hsize
  simp only [extraRecord]
  generalize (vint buf).run c=size at hsv hsize htv htype ⊢
  generalize (vint buf).run size.2=type at htv htype ⊢
  have hsl := hsize.length
  simp only [Rar5Record.bytes,List.length_append,Nat.cast_add] at hlen hsl
  have hpos := r.pos
  have hsz := r.sized
  have hafter : toQint64 (size.2.pos+toQint64 r.size.value)=c.pos+r.bytes.length := by
    rw [toQint64_add hsize.start (Int.natCast_nonneg _) (by omega)]
    simp only [Rar5Record.bytes,List.length_append,Nat.cast_add]
    omega
  have hfine : ¬ (size.2.bad=true ∨ r.size.value=0) := by
    simp only [hsize.fine,Bool.false_eq_true,false_or]
    omega
  rw [if_neg hin,hsv,if_neg hfine,htv,if_neg (by simp [htype.fine]),hafter]
  by_cases he : r.type.value=kExtraRecFileEncryption
  · left
    rw [if_pos he]
    exact ⟨by simp [Rar5Record.encrypts,he],_,rfl⟩
  · right
    have hmore : ¬ c.pos+r.bytes.length≤c.pos := by
      simp only [Rar5Record.bytes,List.length_append,Nat.cast_add]
      omega
    rw [if_neg he,if_neg hmore]
    refine ⟨by simp [Rar5Record.encrypts,he],type.2.seek (c.pos+r.bytes.length),
      ⟨htype.fine,?_,?_,?_⟩,rfl,rfl⟩
    · simp only [seek_pos]
      omega
    · simp only [seek_pos,Rar5Record.bytes,List.length_append,Nat.cast_add]
      omega
    · have ht : (c.pos+r.bytes.length).toNat=c.pos.toNat+r.bytes.length := by omega
      rw [seek_pos,ht,← List.drop_drop,hc.ahead,List.drop_left]

theorem extraRecord_moves {areaEnd : Int} (h : extraRecord buf areaEnd c = .inl d) :
    c.pos<areaEnd ∧ c.pos<d.pos := by
  simp only [extraRecord] at h
  split at h
  · cases h
  split at h
  · cases h
  split at h
  · cases h
  split at h
  · cases h
  split at h
  · cases h
  simp only [Sum.inl.injEq] at h
  rw [← h,seek_pos]
  omega

theorem extraRecords_return (hb : buf.length<2^31) (rs : List Rar5Record) {areaEnd : Int}
    {r : Bool × Cursor} (hc : Sees buf c (rs.flatMap Rar5Record.bytes++rest))
    (hend : c.pos+(rs.flatMap Rar5Record.bytes).length=areaEnd)
    (hr : Returns (extraRecord buf areaEnd) c r) : r.1=rs.any Rar5Record.encrypts := by
  induction rs generalizing c with
  | nil =>
    have hout : extraRecord buf areaEnd c = .inr (false, c) := by
      simp only [List.flatMap_nil,List.length_nil,Nat.cast_zero,Int.add_zero] at hend
      rw [extraRecord,if_pos (.inl hend.ge)]
    rw [hr.of_done hout]
    rfl
  | cons x rs ih =>
    rw [List.flatMap_cons,List.append_assoc] at hc
    rw [List.flatMap_cons,List.length_append,Nat.cast_add] at hend
    rcases extraRecord_run hb x areaEnd hc (by omega) with ⟨hx,d,hout⟩ | ⟨hx,d,hd,hpos,hout⟩
    · rw [hr.of_done hout]
      simp [hx]
    · rw [List.any_cons,hx,Bool.false_or]
      exact ih hd (by omega) (hr.of_again hout)

theorem rar5ExtraSaysEncrypted_returns (start areaEnd : Int) (hs : 0 ≤ start)
    (he : areaEnd≤buf.length) :
    Returns (extraRecord buf areaEnd) ⟨start,false,false⟩
      (rar5ExtraSaysEncrypted buf start areaEnd) := by
  have hstep : ∀ c d : Cursor, 0≤c.pos → extraRecord buf areaEnd c = .inl d →
      0≤d.pos ∧ (areaEnd-d.pos).toNat<(areaEnd-c.pos).toNat := by
    intro c d hc h
    have hm := extraRecord_moves h
    omega
  have hfuel : (areaEnd-start).toNat<buf.length+1 := by omega
  obtain ⟨r,hr⟩ := loop_of_measure hstep (s := ⟨start,false,false⟩) hs hfuel
  rw [rar5ExtraSaysEncrypted,hr]
  exact loop_returns hr

theorem extraEncrypted_bad (bodyStart headerEnd : Int) (extraSize : Nat) :
    (extraEncrypted buf bodyStart headerEnd extraSize c).2.bad=c.bad := by
  simp only [extraEncrypted]
  split <;> rfl

theorem extraEncrypted_eq (hb : buf.length<2^31) (hok : b.Ok) {bodyStart headerEnd : Int}
    (hs : 0≤bodyStart) (hbody : bodyStart+b.body.length=headerEnd)
    (hend : headerEnd≤buf.length)
    (hahead : buf.drop (headerEnd-b.extraBytes.length).toNat=b.extraBytes++rest) :
    (extraEncrypted buf bodyStart headerEnd b.read.extraSize d).1=b.encrypted := by
  have hlen : b.extraBytes.length≤b.body.length := by
    simp only [body,List.length_append]
    omega
  have hq : toQint64 b.extraBytes.length=b.extraBytes.length := toQint64_eq (by omega) (by omega)
  have hstart : toQint64 (headerEnd-toQint64 b.extraBytes.length) =
      headerEnd-b.extraBytes.length := by
    rw [hq,toQint64_eq (by omega) (by omega)]
  rw [extraEncrypted,read_extraSize hok,hstart]
  split
  · rename_i hcond
    have hsees : Sees buf ⟨headerEnd-b.extraBytes.length,false,false⟩
        (b.extra.flatMap Rar5Record.bytes++rest) :=
      ⟨rfl,by simp only; omega,by simp only; omega,hahead⟩
    have hr := rar5ExtraSaysEncrypted_returns (headerEnd-b.extraBytes.length) headerEnd
      (by omega) hend
    have hsum : headerEnd-b.extraBytes.length+(b.extra.flatMap Rar5Record.bytes).length =
        headerEnd := by
      simp only [extraBytes]
      omega
    change (rar5ExtraSaysEncrypted buf (headerEnd-b.extraBytes.length) headerEnd).1=_
    exact extraRecords_return hb b.extra hsees hsum hr
  · rename_i hcond
    have hnil : b.extra=[] := by
      have hl : b.extraBytes=[] := List.length_eq_zero_iff.mp (by omega)
      refine List.eq_nil_iff_forall_not_mem.mpr fun r hr => ?_
      have h := congrArg List.length (List.flatMap_eq_nil_iff.mp hl r hr)
      have hpos := vintShaped_pos r.size.shaped
      simp only [Rar5Record.bytes,List.length_append,List.length_nil] at h
      omega
    simp [encrypted,hnil]

/-- The part of a pass before the fields: it stops where the header is cut too early, or gets to
the fields with what is to be known of the header's size. -/
theorem rar5Block_front (hb : buf.length<2^31) (hok : b.Ok) (verifyCrc : Bool)
    (hc : Sees buf c got) (hne : got≠[]) (hk : c.pos+k=o) (hp : got <+: layout.bytes b++rest)
    (hsmall : o+layout.size b<2^31) (out : RarVolume) :
    (got.length<b.header.length ∧ (verifyCrc=false → got.length<b.readSize) ∧
      ∃ d out', rar5Block buf k verifyCrc (c, out) = .inr (d, out') ∧ out'.found=out.found) ∨
    ∃ d t, got=b.front++t ∧ Sees buf d t ∧
      t <+: b.common++(b.fields.bytes++(b.rest++b.extraBytes++(b.data++rest))) ∧
      (verifyCrc=true → b.header.length≤got.length) ∧
      rar5Block buf k verifyCrc (c, out) =
        rar5Content buf k c.pos (c.pos+b.front.length) (c.pos+b.header.length) d out := by
  have hlen := hc.length
  have hs := size_eq (b := b)
  have hheader := header_length (b := b)
  have hread := readSize_eq (b := b)
  have hbody := body_pos (b := b)
  have hfl : b.front.length=4+b.size.bytes.length := by simp [front]
  have hin : ¬ (buf.length : Int)≤c.pos := by
    have h := List.length_pos_of_ne_nil hne
    omega
  have hparts : layout.bytes b++rest=leBytes 4 (crc32Of b.covered).toNat++(b.size.bytes ++
      (b.common++(b.fields.bytes++(b.rest++b.extraBytes++(b.data++rest))))) := by
    change b.header++b.data++rest=_
    simp [header_eq,front]
  have hfront := hp
  rw [hparts] at hfront
  simp only [rar5Block]
  rw [if_neg hin]
  have hcrc := (u32_takes hb (crc32Of b.covered).toNat).of_chunk hc hfront
  have htrip : ((u32 buf).run c).2.bad=true → ((vint buf).run ((u32 buf).run c).2).2.bad=true :=
    vint_trips _
  generalize (u32 buf).run c=crc at hcrc htrip ⊢
  rcases hcrc with ⟨hl,hbad⟩ | ⟨t1,hg1,ht1,-,hd1⟩
  · rw [leBytes_length] at hl
    exact .inl ⟨by omega,fun _ => by omega,_,_,if_pos (htrip hbad),out.found_cut⟩
  have hvint := (vint_takes hb b.size).of_chunk hd1 ht1
  generalize (vint buf).run crc.2=size at hvint ⊢
  have hl1 := congrArg List.length hg1
  rw [List.length_append,leBytes_length] at hl1
  rcases hvint with ⟨hl,hbad⟩ | ⟨t,hg2,ht,hv,hd⟩
  · exact .inl ⟨by omega,fun _ => by omega,_,_,if_pos hbad,out.found_cut⟩
  have hl2 := congrArg List.length hg2
  rw [List.length_append] at hl2
  have hp1 := hd1.length
  have hp2 := hd.length
  have hcrcPos : crc.2.pos=c.pos+(4 : Nat) := by omega
  have hbodyPos : size.2.pos=c.pos+b.front.length := by omega
  have hend : toQint64 (size.2.pos+toQint64 size.1)=c.pos+b.header.length := by
    rw [hv,hok.sized,toQint64_add hd.start (Int.natCast_nonneg _) (by omega)]
    omega
  have hsize : ¬ (size.1=0 ∨ c.pos+b.header.length≤crc.2.pos) := by
    rw [hv,hok.sized]
    omega
  have hgot : got=b.front++t := by rw [hg1,hg2,front,List.append_assoc]
  rw [if_neg (by simp [hd.fine]),hend,if_neg hsize,hbodyPos]
  cases verifyCrc with
  | false => exact .inr ⟨_,t,hgot,hd,ht,by simp,rfl⟩
  | true =>
    have hcover : c.pos+b.header.length=c.pos+(4 : Nat)+b.covered.length := by
      rw [header,List.length_append,leBytes_length]
      push_cast
      ring
    simp only [if_true,hcrcPos]
    rcases Nat.lt_or_ge got.length b.header.length with hlt | hge
    · rw [verifyHeader_cut (by omega)]
      exact .inl ⟨hlt,by simp,_,_,rfl,out.found_cut⟩
    · have hfits : b.header <+: got := by
        refine List.prefix_of_prefix_length_le ?_ hp hge
        exact (List.prefix_append b.header b.data).trans (List.prefix_append _ rest)
      obtain ⟨t',ht'⟩ := hfits
      have hsum : Sees buf c (leBytes 4 (crc32Of b.covered).toNat++(b.covered++t')) := by
        rw [← List.append_assoc]
        exact ht' ▸ hc
      obtain ⟨e,he,hrun⟩ := verifyHeader_whole out hsum hd
      rw [hcover,hrun]
      exact .inr ⟨e,t,hgot,he,ht,fun _ => hge,rfl⟩

/-- The entry of a file header as a reader reports it who has `n` bytes of the block. -/
def Rar5Block.seen (b : Rar5Block) (n : Nat) (e : RarEntry) : RarEntry :=
  { e with encrypted := b.encrypted && decide (b.header.length ≤ n) }

theorem Rar5Block.not_ends (hok : b.Ok) (h : b.fields ≠ .other) : layout.ends b=false := by
  have ht := hok.typed
  change (decide _ || decide _)=false
  cases hf : b.fields with
  | main m =>
    rw [hf] at ht
    simp [ht,kRar5TypeMain,kRar5TypeArcCrypt,kRar5TypeEndOfArc]
  | file f =>
    rw [hf] at ht
    simp [ht,kRar5TypeFile,kRar5TypeArcCrypt,kRar5TypeEndOfArc]
  | other => exact absurd hf h

/-- The entry a reader makes of a file header is the one the header describes, except for the
encryption it may not know of. -/
theorem Rar5Block.entryAt_eq (hok : b.Ok) {f : Rar5FileHead} (hf : b.fields = .file f)
    (_ : 0≤c.pos) (hk : c.pos+k=o) (hsmall : o+layout.size b<2^31) :
    ∃ e, b.entry o=some e ∧ e.encrypted=b.encrypted ∧ ∀ enc,
      f.read.entryAt b.read k c.pos (c.pos+b.header.length) enc = { e with encrypted := enc } := by
  have hs := size_eq (b := b)
  have h1 : toQint64 (b.data.length : Int)=b.data.length := toQint64_eq (by omega) (by omega)
  have h2 : toQint64 (k+c.pos)=o := by
    rw [toQint64_eq (by omega) (by omega)]
    omega
  have h3 : toQint64 (k+(c.pos+b.header.length))=o+b.header.length := by
    rw [toQint64_eq (by omega) (by omega)]
    omega
  refine ⟨_,by rw [entry,hf],rfl,fun enc => ?_⟩
  simp only [Rar5File.entryAt,Rar5FileHead.read,read_dataSize hok,h1,h2,h3]
  rfl

theorem rar5Content_file (hb : buf.length<2^31) (hok : b.Ok) (hc : Sees buf c got)
    (hk : c.pos+k=o) (hsmall : o+layout.size b<2^31) (hp : got <+: layout.bytes b++rest)
    (hgot : got=b.front++t) (hd : Sees buf d t)
    (ht : t <+: b.common++(b.fields.bytes++(b.rest++b.extraBytes++(b.data++rest))))
    {f : Rar5FileHead} (hf : b.fields = .file f) (out : RarVolume) :
    (got.length<b.readSize ∧ ∃ d' out', rar5Content buf k c.pos (c.pos+b.front.length)
      (c.pos+b.header.length) d out = .inr (d', out') ∧ out'.found=out.found) ∨
    (b.readSize≤got.length ∧ ∃ d' e solid, d'.bad=false ∧ b.entry o=some e ∧
      e.encrypted=b.encrypted ∧
      rar5Content buf k c.pos (c.pos+b.front.length) (c.pos+b.header.length) d out =
        nextBlock buf k c.pos (c.pos+layout.size b) false d'
          (out.append (b.seen got.length e) solid)) := by
  have hlen := hc.length
  have hs := size_eq (b := b)
  have hstart := hc.start
  have hread := readSize_eq (b := b)
  have hgl := congrArg List.length hgot
  rw [List.length_append] at hgl
  have htype : b.type.value=kRar5TypeFile := by simpa [hf] using hok.typed
  have hhead := (readRar5Head_takes hb (b := b)).of_chunk hd ht
  simp only [rar5Content]
  generalize (readRar5Head buf).run d=head at hhead ⊢
  rcases hhead with ⟨hl,hbad⟩ | ⟨t2,hg2,ht2,hv,hd2⟩
  · exact .inl ⟨by omega,_,_,if_pos hbad,rfl⟩
  have hl2 := congrArg List.length hg2
  rw [List.length_append] at hl2
  have hfile : b.read.type=kRar5TypeFile := htype
  have hcrypt : kRar5TypeFile≠kRar5TypeArcCrypt := by decide
  have hmain : kRar5TypeFile≠kRar5TypeMain := by decide
  have hdata : toQint64 (c.pos+b.header.length+toQint64 b.read.dataSize) =
      c.pos+layout.size b := by
    rw [read_dataSize hok,toQint64_add (by omega) (Int.natCast_nonneg _) (by omega)]
    omega
  have hbytes : b.fields.bytes=f.bytes := by rw [hf]; rfl
  have hname : f.name.length≤f.bytes.length := by
    simp only [Rar5FileHead.bytes,List.length_append]
    omega
  have hle := readSize_le (b := b)
  rw [hbytes] at ht2 hread
  have hfields := (readRar5File_takes hb f (by omega)).of_chunk hd2 ht2
  rw [hv,if_neg (by simp [hd2.fine]),hfile,if_neg hcrypt,if_neg hmain,if_pos rfl,hdata]
  generalize (readRar5File buf).run head.2=file at hfields ⊢
  rcases hfields with ⟨hl,hbad⟩ | ⟨t3,hg3,-,hw,hd3⟩
  · exact .inl ⟨by omega,_,_,if_pos hbad,out.found_cut⟩
  have hl3 := congrArg List.length hg3
  rw [List.length_append] at hl3
  obtain ⟨e,he,hse,hent⟩ := entryAt_eq hok hf hstart hk hsmall
  have henc : (extraEncrypted buf (c.pos+b.front.length) (c.pos+b.header.length)
      b.read.extraSize file.2).1=(b.encrypted && decide (b.header.length≤got.length)) := by
    by_cases hwhole : b.header.length≤got.length
    · obtain ⟨t',ht'⟩ : b.header <+: got := by
        refine List.prefix_of_prefix_length_le ?_ hp hwhole
        exact (List.prefix_append b.header b.data).trans (List.prefix_append _ rest)
      have hpre : b.header=(b.front++(b.common++(b.fields.bytes++b.rest)))++b.extraBytes := by
        simp [header_eq]
      have hpl := congrArg List.length hpre
      rw [List.length_append] at hpl
      have hat : (c.pos+b.header.length-b.extraBytes.length).toNat =
          c.pos.toNat+(b.front++(b.common++(b.fields.bytes++b.rest))).length := by
        omega
      have hahead : buf.drop (c.pos+b.header.length-b.extraBytes.length).toNat =
          b.extraBytes++t' := by
        rw [hat,← List.drop_drop,hc.ahead,← ht',hpre,List.append_assoc,List.drop_left]
      have hbody := header_length (b := b)
      rw [extraEncrypted_eq hb hok (by omega) (by omega) (by omega) hahead]
      simp [hwhole]
    · rw [extraEncrypted,if_neg (by omega)]
      simp [hwhole]
  rw [if_neg (by simp [hd3.fine]),hw,hent,henc]
  have hstop : (extraEncrypted buf (c.pos+b.front.length) (c.pos+b.header.length)
      b.read.extraSize file.2).2.bad=false := by
    rw [extraEncrypted_bad,hd3.fine]
  rw [hstop]
  exact .inr ⟨by omega,_,e,_,hstop,he,hse,rfl⟩

theorem rar5Content_pass (hb : buf.length<2^31) (hok : b.Ok) (hc : Sees buf c got)
    (hk : c.pos+k=o) (hsmall : o+layout.size b<2^31) (hp : got <+: layout.bytes b++rest)
    (hgot : got=b.front++t) (hd : Sees buf d t)
    (ht : t <+: b.common++(b.fields.bytes++(b.rest++b.extraBytes++(b.data++rest))))
    (hides : ¬ b.hidesEncryption got.length) :
    layout.Pass buf b o got out (rar5Content buf k c.pos (c.pos+b.front.length)
      (c.pos+b.header.length) d out) := by
  have hs := size_eq (b := b)
  have hstart := hc.start
  have hread := readSize_eq (b := b)
  have hle := readSize_le (b := b)
  have hhead : layout.header b=b.header := rfl
  have hgl := congrArg List.length hgot
  rw [List.length_append] at hgl
  have hdata : toQint64 (c.pos+b.header.length+toQint64 b.read.dataSize) =
      c.pos+layout.size b := by
    rw [read_dataSize hok,toQint64_add (by omega) (Int.natCast_nonneg _) (by omega)]
    omega
  by_cases hfile : ∃ f, b.fields = .file f
  · obtain ⟨f,hf⟩ := hfile
    rcases rar5Content_file hb hok hc hk hsmall hp hgot hd ht hf out with
      ⟨hl,d',out',hout,hfound⟩ | ⟨hl,d',e,solid,hbad,he,hse,hout⟩
    · rw [hout]
      exact .short _ _ (by rw [hhead]; omega) hfound
    · have hknown : (b.encrypted && decide (b.header.length≤got.length))=e.encrypted := by
        rw [hse]
        by_cases hw : b.header.length≤got.length
        · simp [hw]
        · cases henc : b.encrypted with
          | false => rfl
          | true => exact absurd ⟨⟨f,hf⟩,henc,hl,by omega⟩ hides
      have hends := not_ends hok (by simp [hf])
      rw [hout,seen,hknown]
      refine Layout.nextBlock_pass hc hk hsmall hends rfl (.inl hbad) (by simp) ?_
      rw [ends_false hends,he]
      rfl
  have hnofile : b.type.value≠kRar5TypeFile := by
    have ht := hok.typed
    cases hf : b.fields with
    | file f => exact absurd ⟨f,hf⟩ hfile
    | main m =>
      rw [hf] at ht
      simp [ht,kRar5TypeMain,kRar5TypeFile]
    | other =>
      rw [hf] at ht
      exact ht.2
  have hentry : b.entry o=none := by
    cases hf : b.fields with
    | file f => exact absurd ⟨f,hf⟩ hfile
    | main m => simp [entry,hf]
    | other => simp [entry,hf]
  have hfront := (readRar5Head_takes hb (b := b)).of_chunk hd ht
  simp only [rar5Content]
  rcases hfront with ⟨hl,hbad⟩ | ⟨t2,hg2,ht2,hv,hd2⟩
  · rw [if_pos hbad]
    exact .short _ _ (by rw [hhead]; omega) rfl
  have hl2 := congrArg List.length hg2
  rw [List.length_append] at hl2
  rw [hv,if_neg (by simp [hd2.fine]),hdata]
  have htype : b.read.type=b.type.value := rfl
  rw [htype]
  by_cases hcrypt : b.type.value=kRar5TypeArcCrypt
  · rw [if_pos hcrypt]
    refine .last _ _ ?_ (by simp [RarVolume.refuseHeaders,RarVolume.refuse,RarVolume.found])
    change b.ends=true
    simp [ends,hcrypt]
  rw [if_neg hcrypt]
  by_cases hmain : b.type.value=kRar5TypeMain
  · obtain ⟨m,hm⟩ : ∃ m, b.fields = .main m := by
      have ht := hok.typed
      cases hf : b.fields with
      | file f => exact absurd ⟨f,hf⟩ hfile
      | main m => exact ⟨m,rfl⟩
      | other =>
        rw [hf] at ht
        exact absurd hmain ht.1
    have hbytes : b.fields.bytes=m.bytes := by rw [hm]; rfl
    rw [hbytes] at ht2 hread
    have hfields := (readRar5Main_takes hb m).of_chunk hd2 ht2
    rw [if_pos hmain]
    rcases hfields with ⟨hl,hbad⟩ | ⟨t3,-,-,-,hd3⟩
    · rw [if_pos hbad]
      exact .short _ _ (by rw [hhead]; omega) rfl
    · have hends := not_ends hok (by simp [hm])
      rw [if_neg (by simp [hd3.fine]),hd3.fine]
      refine Layout.nextBlock_pass hc hk hsmall hends rfl (.inl hd3.fine) (by simp) ?_
      simp [ends_false hends,hentry,RarVolume.found]
  rw [if_neg hmain,if_neg hnofile]
  by_cases hendarc : b.type.value=kRar5TypeEndOfArc
  · rw [if_pos hendarc]
    refine .last _ _ ?_ (by simp [RarVolume.ended,RarVolume.found])
    change b.ends=true
    simp [ends,hendarc]
  · have hends : layout.ends b=false := by
      change b.ends=false
      simp [ends,hcrypt,hendarc]
    rw [if_neg hendarc,hd2.fine]
    refine Layout.nextBlock_pass hc hk hsmall hends rfl (.inl hd2.fine) (by simp) ?_
    simp [ends_false hends,hentry,RarVolume.found]

theorem rar5Block_pass (hb : buf.length<2^31) (hok : b.Ok) (verifyCrc : Bool)
    (hc : Sees buf c got) (hne : got≠[]) (hk : c.pos+k=o) (hp : got <+: layout.bytes b++rest)
    (hsmall : o+layout.size b<2^31)
    (hides : verifyCrc=true ∨ ¬ b.hidesEncryption got.length) :
    layout.Pass buf b o got out (rar5Block buf k verifyCrc (c, out)) := by
  rcases rar5Block_front hb hok verifyCrc hc hne hk hp hsmall out with
    ⟨hl,-,d,out',hout,hfound⟩ | ⟨d,t,hgot,hd,ht,hwhole,hout⟩
  · rw [hout]
    exact .short _ _ hl hfound
  · rw [hout]
    refine rar5Content_pass hb hok hc hk hsmall hp hgot hd ht ?_
    rcases hides with hv | hn
    · rintro ⟨-,-,-,hlt⟩
      have h := hwhole hv
      omega
    · exact hn

theorem rar5Block_hides (hb : buf.length<2^31) (hok : b.Ok) (hc : Sees buf c got)
    (hk : c.pos+k=o) (hp : got <+: layout.bytes b++rest) (hsmall : o+layout.size b<2^31)
    (hides : b.hidesEncryption got.length) :
    ∃ d out' e, rar5Block buf k false (c, out) = .inr (d, out') ∧ b.entry o=some e ∧
      e.encrypted=true ∧ out'.entries=out.entries++[{ e with encrypted := false }] := by
  obtain ⟨⟨f,hf⟩,henc,hl,hlt⟩ := hides
  have hlen := hc.length
  have hs := size_eq (b := b)
  have hread := readSize_eq (b := b)
  have hfront := front_pos (b := b)
  have hne : got≠[] := by
    rintro rfl
    simp only [List.length_nil] at hl
    omega
  rcases rar5Block_front hb hok false hc hne hk hp hsmall out with
    ⟨-,hcut,-⟩ | ⟨d,t,hgot,hd,ht,-,hout⟩
  · exact absurd (hcut rfl) (by omega)
  rcases rar5Content_file hb hok hc hk hsmall hp hgot hd ht hf out with
    ⟨h,-⟩ | ⟨-,d',e,solid,-,he,hse,hcontent⟩
  · omega
  have hseen : b.seen got.length e = { e with encrypted := false } := by
    have hw : ¬ b.header.length≤got.length := by omega
    simp [seen,hw]
  have hout2 : ¬ c.pos+layout.size b≤c.pos := by omega
  rw [hout,hcontent,hseen,nextBlock,if_neg hout2,if_pos (.inr (by omega))]
  refine ⟨_,_,e,rfl,he,by rw [hse,henc],?_⟩
  rw [RarVolume.entries_cut]
  rfl

end EmuleQt.Usenet
