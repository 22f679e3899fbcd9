import EmuleQt.Usenet.RarCursor

/-!
The two volume formats as data: what a header holds and the bytes it is written as. A block's
header is followed by its payload, a volume is a marker and its blocks.
-/

namespace EmuleQt.Usenet

open Framework Math Utils Utils.QString Cursor

/-- The fields of a RAR4 file header from `PACK_SIZE` to the name. -/
structure Rar4FileHead where
  packSize : UInt64
  unpSize : UInt64
  hostOs : UInt8
  fileCrc : UInt32
  fTime : UInt32
  unpVer : UInt8
  method : UInt8
  attr : UInt32
  name : List UInt8

def Rar4FileHead.bytes (f : Rar4FileHead) (flags : UInt16) : List UInt8 :=
  leBytes 4 f.packSize.toNat ++ (leBytes 4 f.unpSize.toNat ++ ([f.hostOs] ++
    (leBytes 4 f.fileCrc.toNat ++ (leBytes 4 f.fTime.toNat ++ ([f.unpVer] ++ ([f.method] ++
    (leBytes 2 f.name.length ++ (leBytes 4 f.attr.toNat ++
    ((if hasFlag flags.toNat kLhdLarge then leBytes 4 (f.packSize.toNat / 2 ^ 32) else []) ++
    ((if hasFlag flags.toNat kLhdLarge then leBytes 4 (f.unpSize.toNat / 2 ^ 32) else []) ++
    (f.name ++ [])))))))))))

/-- A RAR4 block; `rest` are the header bytes behind the fields that are read. -/
structure Rar4Block where
  type : UInt8
  flags : UInt16
  file : Option Rar4FileHead
  rest : List UInt8
  data : List UInt8

namespace Rar4Block

/-- The block has a size of its data after the common fields. -/
def long (b : Rar4Block) : Bool := hasFlag b.flags.toNat kLhdLongBlock

/-- The header bytes behind the seven of every block that are read. -/
def fields (b : Rar4Block) : List UInt8 :=
  match b.file with
  | some f => f.bytes b.flags
  | none => if b.long then leBytes 4 b.data.length else []

def headSize (b : Rar4Block) : Nat := 7 + b.fields.length + b.rest.length

/-- What the checksum of the header covers. -/
def covered (b : Rar4Block) : List UInt8 :=
  [b.type] ++ (leBytes 2 b.flags.toNat ++ (leBytes 2 b.headSize ++ (b.fields ++ b.rest)))

def header (b : Rar4Block) : List UInt8 :=
  leBytes 2 (crc32Of b.covered).toNat ++ b.covered

def ends (b : Rar4Block) : Bool :=
  decide (b.type.toNat = kRar4TypeEndArc) ||
    decide (b.type.toNat = kRar4TypeMain) && hasFlag b.flags.toNat kMhdPassword

/-- What a reader has to say about a file whose header starts at `offset`. -/
def entry (b : Rar4Block) (offset : Nat) : Option RarEntry :=
  b.file.map fun f => {
    name := rar4Name f.name
    stored := decide (f.method.toNat = kRar4MethodStore)
    encrypted := hasFlag b.flags.toNat kLhdPassword || hasFlag b.flags.toNat kLhdSalt
    splitBefore := hasFlag b.flags.toNat kLhdSplitBefore
    splitAfter := hasFlag b.flags.toNat kLhdSplitAfter
    packedSize := f.packSize.toNat
    unpackedSize := toQint64 f.unpSize.toNat
    headerOffset := offset
    dataOffset := offset + b.headSize }

/-- The header tells the size of the data, and its own. -/
structure Ok (b : Rar4Block) : Prop where
  typed : b.file.isSome = true ↔ b.type.toNat = kRar4TypeFile
  sized : b.headSize < 2 ^ 16
  packed : ∀ f, b.file = some f → f.packSize.toNat = b.data.length
  small : ∀ f, b.file = some f → hasFlag b.flags.toNat kLhdLarge = false →
    f.packSize.toNat < 2 ^ 32 ∧ f.unpSize.toNat < 2 ^ 32
  plain : b.file = none → if b.long then b.data.length < 2 ^ 32 else b.data = []

/-- A reader that takes the header for read after `n` of its bytes does not know of its data. -/
def hidesData (b : Rar4Block) (n : Nat) : Prop :=
  b.file=none ∧ b.long=true ∧ b.data≠[] ∧ 7≤n ∧ n<11

end Rar4Block

/-- A number of one to ten bytes. -/
structure Vint where
  bytes : List UInt8
  shaped : vintShaped bytes = true
  short : bytes.length ≤ 10

def Vint.value (v : Vint) : Nat := vintValue 0 v.bytes

/-- A record of an extra area. -/
structure Rar5Record where
  size : Vint
  type : Vint
  payload : List UInt8
  sized : size.value=type.bytes.length+payload.length

def Rar5Record.bytes (r : Rar5Record) : List UInt8 := r.size.bytes ++ (r.type.bytes ++ r.payload)

def Rar5Record.encrypts (r : Rar5Record) : Bool := decide (r.type.value = kExtraRecFileEncryption)

structure Rar5FileHead where
  fileFlags : Vint
  unpackedSize : Vint
  attributes : Vint
  time : UInt32
  dataCrc : UInt32
  compInfo : Vint
  hostOs : Vint
  nameLength : Vint
  name : List UInt8
  named : nameLength.value=name.length

def Rar5FileHead.bytes (f : Rar5FileHead) : List UInt8 :=
  f.fileFlags.bytes ++ (f.unpackedSize.bytes ++ (f.attributes.bytes ++
    ((if hasFlag f.fileFlags.value kFileTimePresent then leBytes 4 f.time.toNat else []) ++
    ((if hasFlag f.fileFlags.value kFileCrcPresent then leBytes 4 f.dataCrc.toNat else []) ++
    (f.compInfo.bytes ++ (f.hostOs.bytes ++ (f.nameLength.bytes ++ (f.name ++ []))))))))

structure Rar5MainHead where
  arcFlags : Vint
  number : Vint

def Rar5MainHead.bytes (m : Rar5MainHead) : List UInt8 :=
  m.arcFlags.bytes ++ ((if hasFlag m.arcFlags.value kArcVolNumber then m.number.bytes else []) ++ [])

inductive Rar5Fields
  | main (m : Rar5MainHead)
  | file (f : Rar5FileHead)
  | other

def Rar5Fields.bytes : Rar5Fields → List UInt8
  | .main m => m.bytes
  | .file f => f.bytes
  | .other => []

/-- A RAR5 block; `rest` are header bytes between the fields that are read and the extra area. -/
structure Rar5Block where
  size : Vint
  type : Vint
  flags : Vint
  extraSize : Vint
  dataSize : Vint
  fields : Rar5Fields
  rest : List UInt8
  extra : List Rar5Record
  data : List UInt8

namespace Rar5Block

def extraBytes (b : Rar5Block) : List UInt8 := b.extra.flatMap Rar5Record.bytes

/-- The fields every header has after its size. -/
def common (b : Rar5Block) : List UInt8 :=
  b.type.bytes ++ (b.flags.bytes ++
    ((if hasFlag b.flags.value kHdrExtraArea then b.extraSize.bytes else []) ++
    ((if hasFlag b.flags.value kHdrDataArea then b.dataSize.bytes else []) ++ [])))

def body (b : Rar5Block) : List UInt8 :=
  b.common ++ (b.fields.bytes ++ (b.rest ++ b.extraBytes))

def covered (b : Rar5Block) : List UInt8 := b.size.bytes ++ b.body

def header (b : Rar5Block) : List UInt8 := leBytes 4 (crc32Of b.covered).toNat ++ b.covered

def readSize (b : Rar5Block) : Nat :=
  4 + b.size.bytes.length + b.common.length + b.fields.bytes.length

def ends (b : Rar5Block) : Bool :=
  decide (b.type.value = kRar5TypeArcCrypt) || decide (b.type.value = kRar5TypeEndOfArc)

def encrypted (b : Rar5Block) : Bool := b.extra.any Rar5Record.encrypts

def entry (b : Rar5Block) (offset : Nat) : Option RarEntry :=
  match b.fields with
  | .file f => some {
      name := fromUtf8 f.name
      stored := decide (f.compInfo.value >>> 7 &&& 0x07 = 0)
      encrypted := b.encrypted
      splitBefore := hasFlag b.flags.value kHdrSplitBefore
      splitAfter := hasFlag b.flags.value kHdrSplitAfter
      packedSize := b.data.length
      unpackedSize := toQint64 f.unpackedSize.value
      headerOffset := offset
      dataOffset := offset + b.header.length }
  | _ => none

/-- The header tells the sizes of what it announces. -/
structure Ok (b : Rar5Block) : Prop where
  sized : b.size.value = b.body.length
  extraSized : if hasFlag b.flags.value kHdrExtraArea then b.extraSize.value = b.extraBytes.length
    else b.extra = []
  dataSized : if hasFlag b.flags.value kHdrDataArea then b.dataSize.value = b.data.length
    else b.data = []
  typed : match b.fields with
    | .main _ => b.type.value = kRar5TypeMain
    | .file _ => b.type.value = kRar5TypeFile
    | .other => b.type.value ≠ kRar5TypeMain ∧ b.type.value ≠ kRar5TypeFile

/-- After `n` bytes of the header the file is known and its encryption record is not. -/
def hidesEncryption (b : Rar5Block) (n : Nat) : Prop :=
  (∃ f, b.fields = .file f) ∧ b.encrypted=true ∧ b.readSize≤n ∧ n<b.header.length

end Rar5Block

open Framework Cursor

/-- What a reader has found: the entries, where the next block starts and whether the archive is
over or closed to it. -/
def RarVolume.found (out : RarVolume) : List RarEntry × Int × Bool :=
  (out.entries, out.nextOffset, out.endOfArchive || out.headersEncrypted)

@[simp] theorem RarVolume.found_cut (out : RarVolume) : out.cut.found=out.found := by
  unfold RarVolume.cut
  split <;> rfl

@[simp] theorem RarVolume.entries_cut (out : RarVolume) : out.cut.entries=out.entries := by
  unfold RarVolume.cut
  split <;> rfl

@[simp] theorem RarVolume.found_refuse (out : RarVolume) (reason : List UInt16) :
    (out.refuse reason).found=out.found := rfl

@[simp] theorem RarVolume.found_refuseSolid (out : RarVolume) :
    out.refuseSolid.found=out.found := by
  unfold RarVolume.refuseSolid
  split <;> rfl

theorem RarVolume.entries_refuseSolid (out : RarVolume) :
    out.refuseSolid.entries=out.entries := congrArg Prod.fst out.found_refuseSolid

theorem RarVolume.format_refuseSolid (out : RarVolume) :
    out.refuseSolid.format=out.format := by
  unfold RarVolume.refuseSolid
  split <;> rfl

/-- The parts of a block, whatever the format. -/
structure Layout (β : Type) where
  header : β → List UInt8
  data : β → List UInt8
  ends : β → Bool
  entry : β → Nat → Option RarEntry
  entry_of_ends : ∀ b o, ends b = true → entry b o = none
  entry_offset : ∀ b o e, entry b o = some e → e.headerOffset = o
  header_pos : ∀ b, 0 < (header b).length

namespace Layout

variable {β : Type} (L : Layout β)

def bytes (b : β) : List UInt8 := L.header b ++ L.data b

def size (b : β) : Nat := (L.bytes b).length

def chain (bs : List β) : List UInt8 := bs.flatMap L.bytes

/-- Only the last block ends the archive, and only behind such a block is there anything more. -/
def Closed : List β → List UInt8 → Prop
  | [], trailer => trailer = []
  | b :: bs, trailer => if L.ends b then bs = [] else Closed bs trailer

def entriesFrom (o : Nat) : List β → List RarEntry
  | [] => []
  | b::bs => (L.entry b o).toList++entriesFrom (o+L.size b) bs

/-- The blocks with their places. -/
def placed (o : Nat) : List β → List (Nat × β)
  | [] => []
  | b :: bs => (o, b) :: placed (o + L.size b) bs

variable {L} {b : β} {bs done rest : List β} {o : Nat} {trailer : List UInt8}

theorem size_eq : L.size b=(L.header b).length+(L.data b).length := by
  simp [size,bytes]

@[simp] theorem chain_nil : L.chain []=[] := rfl

@[simp] theorem chain_cons : L.chain (b::bs)=L.bytes b++L.chain bs := rfl

@[simp] theorem chain_append : L.chain (done++rest)=L.chain done++L.chain rest := by
  simp [chain]

theorem entriesFrom_append :
    L.entriesFrom o (done++rest) =
      L.entriesFrom o done++L.entriesFrom (o+(L.chain done).length) rest := by
  induction done generalizing o with
  | nil => simp [entriesFrom]
  | cons b bs ih => simp [entriesFrom,ih,size,Nat.add_assoc]

theorem closed_append (h : L.Closed (done++rest) trailer)
    (hd : ∀ b∈done,L.ends b=false) : L.Closed rest trailer := by
  induction done with
  | nil => exact h
  | cons b bs ih =>
    simp only [List.cons_append,Closed,hd b List.mem_cons_self,Bool.false_eq_true,if_false] at h
    exact ih h fun x hx => hd x (List.mem_cons_of_mem b hx)

theorem mem_placed_append {p : Nat × β} :
    p∈L.placed o (done++rest) ↔
      p∈L.placed o done ∨ p∈L.placed (o+(L.chain done).length) rest := by
  induction done generalizing o with
  | nil => simp [placed]
  | cons b bs ih => simp [placed,ih,size,Nat.add_assoc,or_assoc]

theorem mem_of_placed {p : Nat × β} (h : p∈L.placed o bs) : p.2∈bs := by
  induction bs generalizing o with
  | nil => simp [placed] at h
  | cons b bs ih =>
    rcases List.mem_cons.mp h with rfl | h
    · exact List.mem_cons_self
    · exact List.mem_cons_of_mem b (ih h)

theorem placed_split {p : Nat × β} (h : p∈L.placed o bs) :
    ∃ done rest, bs=done++p.2::rest ∧ p.1=o+(L.chain done).length := by
  induction bs generalizing o with
  | nil => simp [placed] at h
  | cons b bs ih =>
    rcases List.mem_cons.mp h with rfl | h
    · exact ⟨[],bs,rfl,rfl⟩
    · obtain ⟨done,rest,rfl,hp⟩ := ih h
      exact ⟨b::done,rest,rfl,by rw [hp]; simp [size,Nat.add_assoc]⟩

theorem closed_plain (h : L.Closed (done++b::rest) trailer) : ∀ x∈done,L.ends x=false := by
  induction done with
  | nil => simp
  | cons y ys ih =>
    simp only [List.cons_append,Closed] at h
    cases hy : L.ends y with
    | true => simp [hy] at h
    | false =>
      simp only [hy,Bool.false_eq_true,if_false] at h
      simpa [hy] using ih h

theorem placed_within {p : Nat × β} (h : p∈L.placed o bs) :
    o≤p.1 ∧ p.1+L.size p.2≤o+(L.chain bs).length := by
  induction bs generalizing o with
  | nil => simp [placed] at h
  | cons b bs ih =>
    have hlen : (L.chain (b::bs)).length=L.size b+(L.chain bs).length := by simp [size]
    rcases List.mem_cons.mp h with rfl | h
    · simp only
      omega
    · have := ih h
      omega

theorem entriesFrom_offset {e : RarEntry} (h : e∈L.entriesFrom o bs) : o≤e.headerOffset := by
  induction bs generalizing o with
  | nil => simp [entriesFrom] at h
  | cons b bs ih =>
    rcases List.mem_append.mp h with h | h
    · have he := L.entry_offset b o e (by simpa using h)
      omega
    · have := ih h
      omega

theorem entriesFrom_find {e : RarEntry} (h : e∈L.entriesFrom o bs) :
    (L.entriesFrom o bs).find? (fun e' => e'.headerOffset=e.headerOffset)=some e := by
  induction bs generalizing o with
  | nil => simp [entriesFrom] at h
  | cons b bs ih =>
    have hpos := L.header_pos b
    have hsize : L.size b=(L.header b).length+(L.data b).length := by simp [size,bytes]
    rw [entriesFrom,List.find?_append]
    cases hb : L.entry b o with
    | none =>
      rw [entriesFrom,hb] at h
      simpa using ih (by simpa using h)
    | some x =>
      have hx := L.entry_offset b o x hb
      rw [entriesFrom,hb] at h
      rcases List.mem_append.mp h with h | h
      · have heq : e=x := by simpa using h
        simp [heq]
      · have hle := entriesFrom_offset h
        have hne : ¬ x.headerOffset=e.headerOffset := by omega
        simp only [Option.toList_some,List.find?_cons,hne,decide_false,List.find?_nil,
          Option.none_or]
        exact ih h

theorem entriesFrom_ends (h : L.ends b=true) : L.entriesFrom o [b]=[] := by
  simp [entriesFrom,L.entry_of_ends b o h]

/-- What a pass over a block does: it stops in the header, or at the end of the archive, or
goes on behind the block. -/
inductive Pass (L : Layout β) (buf : List UInt8) (b : β) (o : Nat) (got : List UInt8)
    (out : RarVolume) : Walk ⊕ Walk → Prop
  | short (d : Cursor) (out' : RarVolume) (hl : got.length < (L.header b).length)
      (hf : out'.found = out.found) : Pass L buf b o got out (.inr (d, out'))
  | last (d : Cursor) (out' : RarVolume) (he : L.ends b = true)
      (hf : out'.found = (out.entries, out.nextOffset, true)) : Pass L buf b o got out (.inr (d, out'))
  | full (d : Cursor) (out' : RarVolume) (he : L.ends b = false) (hl : got.length ≤ L.size b)
      (hf : out'.found = (out.entries ++ (L.entry b o).toList, ↑(o + L.size b),
        out.endOfArchive || out.headersEncrypted)) : Pass L buf b o got out (.inr (d, out'))
  | next (d : Cursor) (out' : RarVolume) (he : L.ends b = false) (hl : L.size b < got.length)
      (hs : Sees buf d (got.drop (L.size b)))
      (hf : out'.found = (out.entries ++ (L.entry b o).toList, ↑(o + L.size b),
        out.endOfArchive || out.headersEncrypted)) : Pass L buf b o got out (.inl (d, out'))

theorem nextBlock_pass {buf got : List UInt8} {k : Nat} {c d : Cursor} {out out' : RarVolume}
    {next : Int} {stop : Bool} (hc : Sees buf c got) (hk : c.pos+k=o)
    (hsmall : o+L.size b<2^31) (he : L.ends b=false) (hn : next=c.pos+L.size b)
    (hd : d.bad=false ∨ got.length≤L.size b) (hstop : stop=true → got.length≤L.size b)
    (hf : out'.found=(out.entries++(L.entry b o).toList, out.nextOffset,
      out.endOfArchive || out.headersEncrypted)) :
    Pass L buf b o got out (nextBlock buf k c.pos next stop d out') := by
  have hpos : 0<L.size b := by
    have h := L.header_pos b
    rw [size_eq]
    omega
  have hlen := hc.length
  have hstart := hc.start
  have hq : toQint64 (k+next) = ↑(o+L.size b) := by
    rw [toQint64_eq (by omega) (by omega),hn]
    omega
  simp only [RarVolume.found,Prod.mk.injEq] at hf
  rw [nextBlock,if_neg (by omega)]
  split
  · rename_i hfull
    have hl : got.length≤L.size b := by
      rcases hfull with h | h
      · exact hstop h
      · omega
    refine .full _ _ he hl ?_
    simp only [RarVolume.found_cut]
    simp [RarVolume.found,hf.1,hf.2.2,hq]
  · rename_i hmore
    have hl : L.size b<got.length := by omega
    refine .next _ _ he hl ?_ ?_
    · have hbad : d.bad=false := hd.resolve_right (by omega)
      have hat : next.toNat=c.pos.toNat+L.size b := by omega
      refine ⟨hbad,by simp only [seek_pos]; omega,by simp only [seek_pos]; omega,?_⟩
      rw [seek_pos,hat,← List.drop_drop,hc.ahead]
    · simp [RarVolume.found,hf.1,hf.2.2,hq]

/-- How far into a chain a walk that has `n` bytes of it gets. -/
structure Reached (L : Layout β) (o : Nat) (bs : List β) (n : Nat) (es : List RarEntry)
    (found : List RarEntry × Int × Bool) (done rest : List β) : Prop where
  split : bs = done ++ rest
  plain : ∀ b ∈ done, L.ends b = false
  entries : found.1 = es ++ L.entriesFrom o done
  next : found.2.1 = ↑(o + (L.chain done).length)
  stop : found.2.2 = true ∧ (∃ e, rest = [e] ∧ L.ends e = true) ∨
    found.2.2 = false ∧ ∀ x xs, rest = x :: xs → n < (L.chain done).length + (L.header x).length

theorem Reached.all {n : Nat} {es : List RarEntry} {found : List RarEntry × Int × Bool}
    (h : Reached L o bs n es found done rest) (hn : (L.chain bs).length≤n) :
    found.1=es++L.entriesFrom o bs := by
  have hrest : L.entriesFrom (o+(L.chain done).length) rest=[] := by
    rcases h.stop with ⟨-,e,rfl,he⟩ | ⟨-,hlt⟩
    · exact entriesFrom_ends he
    · cases hr : rest with
      | nil => rfl
      | cons x xs =>
        have hx := hlt x xs hr
        rw [h.split,hr,chain_append,chain_cons,List.length_append,List.length_append] at hn
        simp only [bytes,List.length_append] at hn
        omega
  rw [h.entries,h.split,entriesFrom_append,hrest,List.append_nil]

/-- The block loop of a format reads every block it has the header of. -/
theorem reached {body : Walk → Walk ⊕ Walk} {buf : List UInt8} {k : Nat} (known : β → Nat → Prop)
    (hend : ∀ c out,(buf.length : Int)≤c.pos → body (c, out) = .inr (c, out))
    (hpass : ∀ b (o : Nat) got rest c out, Sees buf c got → got≠[] → c.pos+k=o →
      got <+: L.bytes b++rest → o+L.size b<2^31 → known b got.length →
      Pass L buf b o got out (body (c, out)))
    {c d : Cursor} {out r : RarVolume} {got : List UInt8} {es : List RarEntry}
    (hc : Sees buf c got) (hk : c.pos+k=o) (hp : got <+: L.chain bs++trailer)
    (hcl : L.Closed bs trailer) (hsmall : o+(L.chain bs).length<2^31)
    (hknown : ∀ p∈L.placed o bs,known p.2 (o+got.length-p.1))
    (hout : out.found=(es, ↑o, false)) (hr : Returns body (c, out) (d, r)) :
    ∃ done rest, Reached L o bs got.length es r.found done rest := by
  have ⟨he,hn,hs⟩ : out.entries=es ∧ out.nextOffset=o ∧
      (out.endOfArchive || out.headersEncrypted)=false := by
    simpa only [RarVolume.found,Prod.mk.injEq] using hout
  by_cases hne : got=[]
  · have hl := hc.length
    rw [hne,List.length_nil] at hl
    have heq := hr.of_done (hend c out (by omega))
    simp only [Prod.mk.injEq] at heq
    rw [heq.2,hout]
    refine ⟨[],bs,rfl,by simp,by simp [entriesFrom],by simp,.inr ⟨rfl,?_⟩⟩
    intro x xs _
    simp [hne,L.header_pos x]
  induction bs generalizing o c out es got with
  | nil =>
    simp only [Closed] at hcl
    simp [hcl,hne] at hp
  | cons b bs ih =>
    have hp' : got <+: L.bytes b++(L.chain bs++trailer) := by simpa using hp
    have hsz : o+L.size b+(L.chain bs).length<2^31 := by
      simpa [size,Nat.add_assoc] using hsmall
    have hb : known b got.length := by
      simpa using hknown (o, b) (by simp [placed])
    have hpass := hpass b o got _ c out hc hne hk hp' (by omega) hb
    generalize hbody : body (c, out)=result at hpass
    cases hpass with
    | short d' out' hl hf =>
      have heq := hr.of_done hbody
      simp only [Prod.mk.injEq] at heq
      rw [heq.2,hf,hout]
      refine ⟨[],b::bs,rfl,by simp,by simp [entriesFrom],by simp,.inr ⟨rfl,?_⟩⟩
      intro x xs hx
      obtain ⟨rfl,-⟩ := List.cons.inj hx
      simpa using hl
    | last d' out' hends hf =>
      have heq := hr.of_done hbody
      simp only [Prod.mk.injEq] at heq
      have hnil : bs=[] := by simpa [Closed,hends] using hcl
      rw [heq.2,hf,he,hn]
      exact ⟨[],b::bs,rfl,by simp,by simp [entriesFrom],by simp,.inl ⟨rfl,b,by rw [hnil],hends⟩⟩
    | full d' out' hends hl hf =>
      have heq := hr.of_done hbody
      simp only [Prod.mk.injEq] at heq
      rw [heq.2,hf,he,hs]
      refine ⟨[b],bs,rfl,by simpa using hends,by simp [entriesFrom],by simp [size],.inr ⟨rfl,?_⟩⟩
      intro x xs _
      have hx := L.header_pos x
      simp only [chain_cons,chain_nil,List.append_nil]
      simp only [size] at hl
      omega
    | next d' out' hends hl hsees hf =>
      have hcl' : L.Closed bs trailer := by simpa [Closed,hends] using hcl
      have hlen := hc.length
      have hlen' := hsees.length
      have hdrop : (got.drop (L.size b)).length=got.length-L.size b := List.length_drop
      have hp'' : got.drop (L.size b) <+: L.chain bs++trailer := by
        have h := hp'.drop (L.size b)
        rwa [size,List.drop_left] at h
      have hr' := hr.of_again hbody
      have hfound : out'.found=(es++(L.entry b o).toList, ↑(o+L.size b), false) := by
        rw [hf,he,hs]
      have hk' : d'.pos+k = ↑(o+L.size b) := by
        omega
      have hmore : ∀ p∈L.placed (o+L.size b) bs,
          known p.2 (o+L.size b+(got.drop (L.size b)).length-p.1) := by
        intro p hp
        have h := hknown p (by simp [placed,hp])
        have hsum : o+L.size b+(got.drop (L.size b)).length=o+got.length := by omega
        rwa [hsum]
      have ⟨he',hn',hs'⟩ : out'.entries=es++(L.entry b o).toList ∧
          out'.nextOffset = ↑(o+L.size b) ∧
          (out'.endOfArchive || out'.headersEncrypted)=false := by
        simpa only [RarVolume.found,Prod.mk.injEq] using hfound
      have hne' : got.drop (L.size b)≠[] := by
        intro h
        rw [h] at hdrop
        simp only [List.length_nil] at hdrop
        omega
      obtain ⟨done,rest,hreach⟩ := ih hsees hk' hp'' hcl' (by omega) hmore hfound hr' he' hn'
        hs' hne'
      refine ⟨b::done,rest,by simp [hreach.split],?_,?_,?_,?_⟩
      · simpa [hends] using hreach.plain
      · simp [hreach.entries,entriesFrom]
      · simp [hreach.next,size,Nat.add_assoc]
      · refine hreach.stop.imp id fun h => ⟨h.1,fun x xs hx => ?_⟩
        have hlt := h.2 x xs hx
        rw [hdrop] at hlt
        simp only [chain_cons,List.length_append]
        simp only [size] at hl hlt
        omega

end Layout

end EmuleQt.Usenet
