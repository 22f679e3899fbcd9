import EmuleQt.Framework.Run
import EmuleQt.Framework.StickyReader
import EmuleQt.Utils.QtFormat

namespace EmuleQt.Usenet

open Framework Math Utils Utils.QString

/-- What a value is as a `qint64`. -/
def toQint64 (v : Int) : Int := v.bmod (2^64)

/-- What a value is as an `int`. -/
def toInt (v : Int) : Int := v.bmod (2 ^ 32)

/-- A flag word has a bit of the mask. -/
def hasFlag (flags mask : Nat) : Bool := decide (flags &&& mask≠0)

def kRar4Marker : List UInt8 := [0x52, 0x61, 0x72, 0x21, 0x1A, 0x07, 0x00]

def kRar4TypeMain : Nat := 0x73
def kRar4TypeFile : Nat := 0x74
def kRar4TypeEndArc : Nat := 0x7B

def kMhdSolid : Nat := 0x0008
def kMhdPassword : Nat := 0x0080
def kMhdFirstVolume : Nat := 0x0100

def kLhdSplitBefore : Nat := 0x0001
def kLhdSplitAfter : Nat := 0x0002
def kLhdPassword : Nat := 0x0004
def kLhdSolid : Nat := 0x0010
def kLhdLarge : Nat := 0x0100
def kLhdSalt : Nat := 0x0400
def kLhdLongBlock : Nat := 0x8000

def kRar4MethodStore : Nat := 0x30

def kRar5Marker : List UInt8 := [0x52, 0x61, 0x72, 0x21, 0x1A, 0x07, 0x01, 0x00]

def kRar5TypeMain : Nat := 1
def kRar5TypeFile : Nat := 2
def kRar5TypeArcCrypt : Nat := 4
def kRar5TypeEndOfArc : Nat := 5

def kHdrExtraArea : Nat := 0x0001
def kHdrDataArea : Nat := 0x0002
def kHdrSplitBefore : Nat := 0x0008
def kHdrSplitAfter : Nat := 0x0010

def kArcVolume : Nat := 0x0001
def kArcVolNumber : Nat := 0x0002
def kArcSolid : Nat := 0x0004

def kFileTimePresent : Nat := 0x0002
def kFileCrcPresent : Nat := 0x0004

def kExtraRecFileEncryption : Nat := 1

/-- `strayed` is not in the source: it notes a read that left the buffer. -/
structure Cursor where
  pos : Int
  bad : Bool := false
  strayed : Bool := false
  deriving DecidableEq

namespace Cursor

def seek (c : Cursor) (p : Int) : Cursor := { c with pos := p }

@[simp] theorem seek_pos (c : Cursor) (p : Int) : (c.seek p).pos=p := rfl
@[simp] theorem seek_bad (c : Cursor) (p : Int) : (c.seek p).bad=c.bad := rfl
@[simp] theorem seek_strayed (c : Cursor) (p : Int) : (c.seek p).strayed=c.strayed := rfl

variable (buf : List UInt8)

def want (n : Int) : StateM Cursor Bool := fun c =>
  if c.bad then (false, c)
  else if n < 0 ∨ c.pos < 0 ∨ (buf.length : Int) < toQint64 (c.pos + n) then
    (false, { c with bad := true })
  else (true, c)

/-- The `n` bytes of memory from `i` on, as far as the buffer has them. -/
def peek (i : Int) (n : Nat) : StateM Cursor (List UInt8) := fun c =>
  ((buf.drop i.toNat).take n,
    { c with strayed := c.strayed || !decide (0 ≤ i ∧ i + n ≤ buf.length) })

def advance (n : Int) : StateM Cursor Unit := fun c =>
  ((), { c with pos := toQint64 (c.pos + n) })

/-- A little-endian number of `w` bytes, the buffer being indexed through `index`. -/
def number (index : Int → Int) (w : Nat) : StateM Cursor Nat := do
  if ← want buf w then
    let raw ← peek buf (index (← get).pos) w
    advance w
    pure (leValue raw)
  else pure 0

/-- `m_buf.at(int(m_at))` takes an `int`; the wider reads go through a pointer. -/
def u8 : StateM Cursor Nat := number buf toInt 1

def u16 : StateM Cursor Nat := number buf id 2

def u32 : StateM Cursor Nat := number buf id 4

/-- The bytes of a `vint` from the one at `shift` on, `passes` of them at most. -/
def vintFrom : Nat → Nat → Nat → StateM Cursor Nat
  | 0, _, _ => fun c => (0, { c with bad := true })
  | passes+1, shift, out => do
    if ← want buf 1 then
      let raw ← peek buf (toInt (← get).pos) 1
      advance 1
      let out := out ||| ((leValue raw &&& 0x7F) <<< shift)%2^64
      if leValue raw &&& 0x80=0 then pure out else vintFrom passes (shift+7) out
    else pure 0

def vint : StateM Cursor Nat := vintFrom buf 10 0 0

/-- `QByteArray::mid`. -/
def mid (i n : Int) : List UInt8 :=
  if (buf.length : Int) < i then []
  else if i < 0 then
    if n < 0 ∨ (buf.length : Int) ≤ n + i then buf
    else if n + i ≤ 0 then [] else buf.take (n + i).toNat
  else if n < 0 then buf.drop i.toNat
  else (buf.drop i.toNat).take n.toNat

/-- A number that is only there under a condition. -/
def whenSet (p : Bool) (m : StateM Cursor Nat) : StateM Cursor Nat := if p then m else pure 0

def bytes (n : Int) : StateM Cursor (List UInt8) :=
  if n < 0 then fun c => ([], { c with bad := true })
  else do
    if ← want buf n then
      let raw := mid buf (toInt (← get).pos) (toInt n)
      advance n
      pure raw
    else pure []

end Cursor

open Cursor

def crcStep (c : UInt32) : UInt32 :=
  if c &&& 1≠0 then (0xEDB88320 : UInt32) ^^^ (c >>> 1) else c >>> 1

/-- The table entry of a byte. -/
def crcEntry (i : UInt32) : UInt32 := crcStep^[8] i

def crc32Of (data : List UInt8) : UInt32 :=
  data.foldl (fun crc b => crcEntry ((crc ^^^ b.toUInt32) &&& 0xFF) ^^^ (crc >>> 8)) 0xFFFFFFFF
    ^^^ 0xFFFFFFFF

/-- One file inside one volume. -/
structure RarEntry where
  name : QString := []
  stored : Bool := false
  encrypted : Bool := false
  splitBefore : Bool := false
  splitAfter : Bool := false
  packedSize : Int := 0
  unpackedSize : Int := 0
  headerOffset : Int := 0
  dataOffset : Int := 0
  deriving DecidableEq

inductive RarParse
  | Ok | NeedMoreBytes | NotRar | Unsupported
  deriving DecidableEq

inductive RarFormat
  | Unknown | Rar4 | Rar5
  deriving DecidableEq

structure RarVolume where
  status : RarParse := .NeedMoreBytes
  format : RarFormat := .Unknown
  nextOffset : Int := 0
  endOfArchive : Bool := false
  isFirstVolume : Bool := false
  volumeNumber : Int := -1
  headersEncrypted : Bool := false
  solid : Bool := false
  entries : List RarEntry := []
  reason : QString := []
  deriving DecidableEq

namespace RarVolume

/-- The buffer ends here: with an entry found that is a complete answer. -/
def cut (out : RarVolume) : RarVolume :=
  if out.entries ≠ [] then { out with status := .Ok } else out

def refuse (out : RarVolume) (reason : QString) : RarVolume :=
  { out with status := .Unsupported, reason := reason }

/-- Headers that only the password opens. -/
def refuseHeaders (out : RarVolume) : RarVolume :=
  { out.refuse (lit "Encrypted archive headers") with headersEncrypted := true }

def ended (out : RarVolume) : RarVolume := { out with endOfArchive := true, status := .Ok }

/-- A solid archive is not read. -/
def refuseSolid (out : RarVolume) : RarVolume :=
  if out.status = .Ok ∧ out.solid then
    out.refuse (lit "Solid archive — cannot seek without decompressing")
  else out

def append (out : RarVolume) (e : RarEntry) (solid : Bool) : RarVolume :=
  { out with entries := out.entries ++ [e], status := .Ok, solid := out.solid || solid }

end RarVolume

/-- Where a walk over blocks stands: the cursor, and what the volume has said so far. -/
abbrev Walk := Cursor × RarVolume

variable (buf : List UInt8)

/-- The checksum of `w` bytes at `blockStart` is that of the header bytes from `covered` on; the
answer to return otherwise. -/
def verifyHeader (w : Nat) (blockStart covered headerEnd : Int) (out : RarVolume) :
    StateM Cursor (Option RarVolume) :=
  if (buf.length : Int)<headerEnd then pure (some out.cut)
  else do
    let header ← peek buf covered (headerEnd-covered).toNat
    let got ← peek buf blockStart w
    if (crc32Of header).toNat % 256^w ≠ leValue got then
      pure (some (out.refuse (lit "Archive header checksum mismatch")))
    else pure none

/-- The step from one block to the next. -/
def nextBlock (base blockStart next : Int) (stop : Bool) (c : Cursor) (out : RarVolume) :
    Walk ⊕ Walk :=
  if next ≤ blockStart then .inr (c, out)
  else if stop ∨ (buf.length : Int) ≤ next then
    .inr (c.seek next, { out with nextOffset := toQint64 (base + next) }.cut)
  else .inl (c.seek next, { out with nextOffset := toQint64 (base + next) })

def rar4Name (raw : List UInt8) : QString := fromLatin1 (raw.takeWhile fun b => b != 0)

structure Rar4Head where
  type : Nat
  flags : Nat
  headSize : Nat

def readRar4Head : StateM Cursor Rar4Head := do
  let _ ← u16 buf
  let type ← u8 buf
  let flags ← u16 buf
  let headSize ← u16 buf
  pure ⟨type,flags,headSize⟩

/-- What is read of the fields that only a file header has. -/
structure Rar4File where
  packLow : Nat
  unpLow : Nat
  method : Nat
  packHigh : Nat
  unpHigh : Nat
  rawName : List UInt8

def readRar4File (flags : Nat) : StateM Cursor Rar4File := do
  let packLow ← u32 buf
  let unpLow ← u32 buf
  let _ ← u8 buf
  let _ ← u32 buf
  let _ ← u32 buf
  let _ ← u8 buf
  let method ← u8 buf
  let nameSize ← u16 buf
  let _ ← u32 buf
  let packHigh ← whenSet (hasFlag flags kLhdLarge) (u32 buf)
  let unpHigh ← whenSet (hasFlag flags kLhdLarge) (u32 buf)
  let rawName ← bytes buf nameSize
  pure ⟨packLow,unpLow,method,packHigh,unpHigh,rawName⟩

def Rar4File.entryAt (f : Rar4File) (h : Rar4Head) (base blockStart : Int) : RarEntry where
  name := rar4Name f.rawName
  stored := decide (f.method=kRar4MethodStore)
  encrypted := hasFlag h.flags kLhdPassword || hasFlag h.flags kLhdSalt
  splitBefore := hasFlag h.flags kLhdSplitBefore
  splitAfter := hasFlag h.flags kLhdSplitAfter
  packedSize := toQint64 (f.packHigh <<< 32 ||| f.packLow : Nat)
  unpackedSize := toQint64 (f.unpHigh <<< 32 ||| f.unpLow : Nat)
  headerOffset := toQint64 (base+blockStart)
  dataOffset := toQint64 (base+blockStart+h.headSize)

/-- What `parseRar4` does with a block whose common header it has read. -/
def rar4Content (base blockStart : Int) (h : Rar4Head) (c : Cursor) (out : RarVolume) :
    Walk ⊕ Walk :=
  let next (addSize : Int) := toQint64 (blockStart+h.headSize+addSize)
  if h.type=kRar4TypeEndArc then .inr (c, out.ended)
  else
    let add := (whenSet (hasFlag h.flags kLhdLongBlock && decide (h.type≠kRar4TypeFile))
      (u32 buf)).run c
    if h.type=kRar4TypeMain then
      if hasFlag h.flags kMhdPassword then .inr (add.2, out.refuseHeaders)
      else
        nextBlock buf base blockStart (next add.1) false add.2
          { out with
            isFirstVolume := hasFlag h.flags kMhdFirstVolume, solid := hasFlag h.flags kMhdSolid }
    else if h.type=kRar4TypeFile then
      let file := (readRar4File buf h.flags).run add.2
      if file.2.bad then .inr (file.2, out.cut)
      else
        let e := file.1.entryAt h base blockStart
        nextBlock buf base blockStart (next e.packedSize) false file.2
          (out.append e (hasFlag h.flags kLhdSolid))
    else nextBlock buf base blockStart (next add.1) false add.2 out

/-- One pass of the loop of `parseRar4`. -/
def rar4Block (base : Int) (verifyCrc : Bool) : Walk → Walk ⊕ Walk
  | (c, out) =>
    if (buf.length : Int)≤c.pos then .inr (c, out)
    else
      let head := (readRar4Head buf).run c
      if head.2.bad then .inr (head.2, out.cut)
      else if head.1.headSize<7 then .inr (head.2, out)
      else
        let check := (if verifyCrc then
            verifyHeader buf 2 c.pos (c.pos+2) (toQint64 (c.pos+head.1.headSize)) out
          else pure none : StateM Cursor (Option RarVolume)).run head.2
        match check.1 with
        | some r => .inr (check.2, r)
        | none => rar4Content buf base c.pos head.1 check.2 out

/-- One record of an extra area that ends at `areaEnd`. -/
def extraRecord (areaEnd : Int) (c : Cursor) : Cursor ⊕ Bool × Cursor :=
  if areaEnd≤c.pos ∨ c.bad then .inr (false, c)
  else
    let size := (vint buf).run c
    if size.2.bad ∨ size.1=0 then .inr (false, size.2)
    else
      let type := (vint buf).run size.2
      if type.2.bad then .inr (false, type.2)
      else if type.1=kExtraRecFileEncryption then .inr (true, type.2)
      else
        let next := toQint64 (size.2.pos+toQint64 size.1)
        if next≤c.pos then .inr (false, type.2) else .inl (type.2.seek next)

def rar5ExtraSaysEncrypted (start areaEnd : Int) : Bool × Cursor :=
  (loop (extraRecord buf areaEnd) (buf.length + 1) ⟨start, false, false⟩).getD
    (false, ⟨start, false, false⟩)

/-- The fields of every RAR5 header after its size. -/
structure Rar5Head where
  type : Nat
  flags : Nat
  extraSize : Nat
  dataSize : Nat

def readRar5Head : StateM Cursor Rar5Head := do
  let type ← vint buf
  let flags ← vint buf
  let extraSize ← whenSet (hasFlag flags kHdrExtraArea) (vint buf)
  let dataSize ← whenSet (hasFlag flags kHdrDataArea) (vint buf)
  pure ⟨type,flags,extraSize,dataSize⟩

structure Rar5Main where
  arcFlags : Nat
  number : Nat

def readRar5Main : StateM Cursor Rar5Main := do
  let arcFlags ← vint buf
  let number ← whenSet (hasFlag arcFlags kArcVolNumber) (vint buf)
  pure ⟨arcFlags,number⟩

def Rar5Main.volumeNumber (m : Rar5Main) (known : Int) : Int :=
  if hasFlag m.arcFlags kArcVolNumber then toInt m.number
  else if hasFlag m.arcFlags kArcVolume then 0 else known

structure Rar5File where
  unpackedSize : Nat
  compInfo : Nat
  rawName : List UInt8

def readRar5File : StateM Cursor Rar5File := do
  let fileFlags ← vint buf
  let unpackedSize ← vint buf
  let _ ← vint buf
  let _ ← whenSet (hasFlag fileFlags kFileTimePresent) (u32 buf)
  let _ ← whenSet (hasFlag fileFlags kFileCrcPresent) (u32 buf)
  let compInfo ← vint buf
  let _ ← vint buf
  let nameLength ← vint buf
  let rawName ← bytes buf (toQint64 nameLength)
  pure ⟨unpackedSize,compInfo,rawName⟩

def Rar5File.entryAt (f : Rar5File) (h : Rar5Head) (base blockStart headerEnd : Int)
    (encrypted : Bool) : RarEntry where
  name := fromUtf8 f.rawName
  stored := decide (f.compInfo >>> 7 &&& 0x07=0)
  encrypted := encrypted
  splitBefore := hasFlag h.flags kHdrSplitBefore
  splitAfter := hasFlag h.flags kHdrSplitAfter
  packedSize := toQint64 h.dataSize
  unpackedSize := toQint64 f.unpackedSize
  headerOffset := toQint64 (base+blockStart)
  dataOffset := toQint64 (base+headerEnd)

/-- The encryption record is looked for where the buffer holds the whole extra area. -/
def extraEncrypted (bodyStart headerEnd : Int) (extraSize : Nat) (c : Cursor) : Bool × Cursor :=
  let extraStart := toQint64 (headerEnd-toQint64 extraSize)
  if 0<extraSize ∧ bodyStart≤extraStart ∧ headerEnd≤buf.length then
    let r := rar5ExtraSaysEncrypted buf extraStart headerEnd
    (r.1, { c with strayed := c.strayed || r.2.strayed })
  else (false, c)

/-- What `parseRar5` does with a block whose size it has read. -/
def rar5Content (base blockStart bodyStart headerEnd : Int) (c : Cursor) (out : RarVolume) :
    Walk ⊕ Walk :=
  let head := (readRar5Head buf).run c
  let h := head.1
  let next := toQint64 (headerEnd+toQint64 h.dataSize)
  if head.2.bad then .inr (head.2, out)
  else if h.type=kRar5TypeArcCrypt then .inr (head.2, out.refuseHeaders)
  else if h.type=kRar5TypeMain then
    let main := (readRar5Main buf).run head.2
    let number := main.1.volumeNumber out.volumeNumber
    let out := { out with
      solid := hasFlag main.1.arcFlags kArcSolid, volumeNumber := number,
      isFirstVolume := decide (number≤0) }
    if main.2.bad then .inr (main.2, out)
    else nextBlock buf base blockStart next main.2.bad main.2 out
  else if h.type=kRar5TypeFile then
    let file := (readRar5File buf).run head.2
    if file.2.bad then .inr (file.2, out.cut)
    else
      let enc := extraEncrypted buf bodyStart headerEnd h.extraSize file.2
      nextBlock buf base blockStart next enc.2.bad enc.2
        (out.append (file.1.entryAt h base blockStart headerEnd enc.1)
          (decide (file.1.compInfo >>> 6 &&& 0x01≠0)))
  else if h.type=kRar5TypeEndOfArc then .inr (head.2, out.ended)
  else nextBlock buf base blockStart next head.2.bad head.2 out

/-- One pass of the loop of `parseRar5`. -/
def rar5Block (base : Int) (verifyCrc : Bool) : Walk → Walk ⊕ Walk
  | (c, out) =>
    if (buf.length : Int)≤c.pos then .inr (c, out)
    else
      let crc := (u32 buf).run c
      let size := (vint buf).run crc.2
      let headerEnd := toQint64 (size.2.pos+toQint64 size.1)
      if size.2.bad then .inr (size.2, out.cut)
      else if size.1=0 ∨ headerEnd≤crc.2.pos then .inr (size.2, out)
      else
        let check := (if verifyCrc then verifyHeader buf 4 c.pos crc.2.pos headerEnd out
          else pure none : StateM Cursor (Option RarVolume)).run size.2
        match check.1 with
        | some r => .inr (check.2, r)
        | none => rar5Content buf base c.pos size.2.pos headerEnd check.2 out

/-- Before the first block. -/
def startWalk (format : RarFormat) (startPos base : Int) : Walk :=
  (⟨startPos,false,false⟩, { format := format, nextOffset := toQint64 (base+startPos) })

/-- The loop over the blocks of a volume; every pass moves the cursor on, so that as many passes
as there are bytes are enough. -/
def walkBlocks (block : Walk → Walk ⊕ Walk) (format : RarFormat) (startPos base : Int) : Walk :=
  (loop block (buf.length+1) (startWalk format startPos base)).getD
    (startWalk format startPos base)

def parseRar4 (startPos base : Int) (verifyCrc : Bool) : Walk :=
  walkBlocks buf (rar4Block buf base verifyCrc) .Rar4 startPos base

def parseRar5 (startPos base : Int) (verifyCrc : Bool) : Walk :=
  walkBlocks buf (rar5Block buf base verifyCrc) .Rar5 startPos base

/-- `parseRarVolume` with the cursor it ends with. -/
def walkVolume (head : List UInt8) : Walk :=
  let walk :=
    if kRar5Marker.isPrefixOf head then parseRar5 head kRar5Marker.length 0 false
    else if kRar4Marker.isPrefixOf head then parseRar4 head kRar4Marker.length 0 false
    else if head.length<kRar5Marker.length then (⟨0,false,false⟩, {})
    else (⟨0,false,false⟩, { status := .NotRar })
  (walk.1, walk.2.refuseSolid)

def parseRarVolume (head : List UInt8) : RarVolume := (walkVolume head).2

/-- `parseRarBlocks` with the cursor it ends with. -/
def walkWindow (format : RarFormat) (window : List UInt8) (windowStart : Int) : Walk :=
  match format with
  | .Rar4 => parseRar4 window 0 windowStart true
  | .Rar5 => parseRar5 window 0 windowStart true
  | .Unknown => (⟨0,false,false⟩, { status := .NotRar, nextOffset := windowStart })

def parseRarBlocks (format : RarFormat) (window : List UInt8) (windowStart : Int) : RarVolume :=
  (walkWindow format window windowStart).2

def kRarHeaderProbeBytes : Nat := 8192

open Framework Math

theorem toQint64_eq {v : Int} (hl : -2^63≤v) (hh : v<2^63) : toQint64 v=v := by
  apply Int.bmod_eq_of_le <;> omega

theorem toQint64_add {p v : Int} (hp : 0≤p) (hv : 0≤v) (hh : p+v<2^63) :
    toQint64 (p+toQint64 v)=p+v := by
  rw [toQint64_eq (v := v) (by omega) (by omega),toQint64_eq (by omega) hh]

theorem toInt_eq {v : Int} (hl : 0≤v) (hh : v<2^31) : toInt v=v := by
  apply Int.bmod_eq_of_le <;> omega

namespace Cursor

/-- The cursor stands in the buffer, nothing has gone wrong, and `xs` lies before it. -/
structure Sees (buf : List UInt8) (c : Cursor) (xs : List UInt8) : Prop where
  fine : c.bad = false
  start : 0 ≤ c.pos
  within : c.pos ≤ buf.length
  ahead : buf.drop c.pos.toNat = xs

variable {buf whole xs rest : List UInt8} {c d : Cursor} {k : Nat}

theorem Sees.length (h : Sees buf c xs) : c.pos+xs.length=buf.length := by
  have hw := h.within
  have hl := congrArg List.length h.ahead
  have hs := h.start
  simp only [List.length_drop] at hl
  omega

theorem Sees.want_run (h : Sees buf c (xs++rest)) (hb : buf.length<2^31) {n : Int}
    (hn : n=xs.length) : (want buf n).run c=(true, c) := by
  have hl := h.length
  have hs := h.start
  simp only [List.length_append,Nat.cast_add] at hl
  have hq : toQint64 (c.pos+n)=c.pos+n := toQint64_eq (by omega) (by omega)
  have hn : ¬ (n<0 ∨ c.pos<0 ∨ (buf.length : Int)<toQint64 (c.pos+n)) := by omega
  simp [want,StateT.run,h.fine,hn]

theorem Sees.pass (h : Sees buf c (xs++rest)) (hb : buf.length<2^31) {b : Bool} :
    Sees buf { c with pos := toQint64 (c.pos+xs.length), strayed := b } rest := by
  have hl := h.length
  have hs := h.start
  simp only [List.length_append,Nat.cast_add] at hl
  have hq : toQint64 (c.pos+xs.length)=c.pos+xs.length := toQint64_eq (by omega) (by omega)
  refine ⟨h.fine,?_,?_,?_⟩
  · simp only [hq]
    omega
  · simp only [hq]
    omega
  · have ht : (c.pos+xs.length).toNat=c.pos.toNat+xs.length := by omega
    simp only [hq,ht,← List.drop_drop,h.ahead,List.drop_left]

theorem Sees.take (h : Sees buf c (xs++rest)) :
    (buf.drop c.pos.toNat).take xs.length=xs := by
  simp [h.ahead]

theorem Sees.index (h : Sees buf c xs) (hb : buf.length<2^31) : toInt c.pos=c.pos :=
  toInt_eq h.start (by have := h.within; omega)

variable {index : Int → Int} {w passes shift out : Nat}

theorem number_run (h : (want buf w).run c=(true, c)) :
    (number buf index w).run c=(leValue ((buf.drop (index c.pos).toNat).take w),
      { c with
        pos := toQint64 (c.pos+w),
        strayed := c.strayed || !decide (0 ≤ index c.pos ∧ index c.pos+w≤buf.length) }) := by
  rw [number,run_bind,h]
  rfl

theorem number_short (h : ((want buf w).run c).1=false) :
    (number buf index w).run c=(0, ((want buf w).run c).2) := by
  rw [number,run_bind,h]
  rfl

variable {α : Type}

/-- A reader of bytes of the buffer. -/
abbrev Takes (buf : List UInt8) (m : StateM Cursor α) (xs : List UInt8) (a : α) : Prop :=
  Reads (fun c : Cursor => c.bad = true) (Sees buf) m xs a

abbrev Trips (m : StateM Cursor α) : Prop := Sticks (fun c : Cursor => c.bad = true) m

theorem want_trips (n : Int) : Trips (want buf n) := by
  intro c h
  simp [want,StateT.run,h]

theorem want_bad {n : Int} (h : c.bad=true) : ((want buf n).run c).1=false := by
  simp [want,StateT.run,h]

theorem Sees.want_short (h : Sees buf c xs) (hb : buf.length<2^31) {n : Int}
    (hl : xs.length<n) (hh : n<2^62) :
    ((want buf n).run c).1=false ∧ ((want buf n).run c).2.bad=true := by
  have hx := h.length
  have hq : toQint64 (c.pos+n)=c.pos+n := toQint64_eq (by omega) (by omega)
  have hn : n<0 ∨ c.pos<0 ∨ (buf.length : Int)<toQint64 (c.pos+n) := by omega
  simp [want,StateT.run,h.fine,hn]

theorem number_trips : Trips (number buf index w) := by
  intro c h
  rw [number_short (want_bad h)]
  exact want_trips _ c h

theorem u8_trips : Trips (u8 buf) := number_trips

theorem u16_trips : Trips (u16 buf) := number_trips

theorem u32_trips : Trips (u32 buf) := number_trips

theorem number_takes (hb : buf.length<2^31) (hi : ∀ i,0 ≤ i → i<2^31 → index i=i)
    (hw : xs.length=w) (hs : w<2^31) : Takes buf (number buf index w) xs (leValue xs) := by
  subst hw
  constructor
  · intro c rest h
    have hx : index c.pos=c.pos := hi c.pos h.start (by have := h.within; omega)
    rw [number_run (h.want_run hb rfl),hx,h.take]
    exact ⟨rfl,h.pass hb⟩
  · intro c got h _ hl
    obtain ⟨hf,ht⟩ := h.want_short hb (n := xs.length) (by omega) (by omega)
    rw [number_short hf]
    exact ht

theorem u8_takes (hb : buf.length<2^31) (b : UInt8) : Takes buf (u8 buf) [b] b.toNat := by
  have h : Takes buf (u8 buf) [b] (leValue [b]) :=
    number_takes hb (fun i => toInt_eq) rfl (by decide)
  simpa [leValue] using h

theorem wide_takes (hb : buf.length<2^31) (hw : w<2^31) (v : Nat) :
    Takes buf (number buf id w) (leBytes w v) (v%256^w) := by
  rw [← leValue_leBytes_mod]
  exact number_takes hb (fun i _ _ => rfl) (leBytes_length w v) hw

theorem u16_takes (hb : buf.length<2^31) (v : Nat) :
    Takes buf (u16 buf) (leBytes 2 v) (v%2^16) := wide_takes hb (by decide) v

theorem u32_takes (hb : buf.length<2^31) (v : Nat) :
    Takes buf (u32 buf) (leBytes 4 v) (v%2^32) := wide_takes hb (by decide) v

theorem vintFrom_trips : Trips (vintFrom buf passes shift out) := by
  induction passes generalizing shift out with
  | zero => exact fun c _ => rfl
  | succ passes ih =>
    intro c h
    rw [vintFrom,run_bind,want_bad h]
    exact want_trips _ c h

/-- The payload of a `vint` from the byte at `shift` on. -/
def vintValue (shift : Nat) : List UInt8 → Nat
  | [] => 0
  | b::bs => ((b.toNat &&& 0x7F) <<< shift)%2^64 ||| vintValue (shift+7) bs

/-- Every byte but the last announces another one. -/
def vintShaped : List UInt8 → Bool
  | [] => false
  | [b] => decide (b.toNat &&& 0x80=0)
  | b::bs => decide (b.toNat &&& 0x80≠0) && vintShaped bs

theorem vintFrom_short (h : ((want buf 1).run c).1=false) :
    (vintFrom buf (passes+1) shift out).run c=(0, ((want buf 1).run c).2) := by
  rw [vintFrom,run_bind,h]
  rfl

theorem vintFrom_run (h : (want buf 1).run c=(true, c)) :
    (vintFrom buf (passes+1) shift out).run c =
      let raw := (buf.drop (toInt c.pos).toNat).take 1
      let out := out ||| ((leValue raw &&& 0x7F) <<< shift)%2^64
      (if leValue raw &&& 0x80=0 then pure out
        else vintFrom buf passes (shift+7) out : StateM Cursor Nat).run
        { c with
          pos := toQint64 (c.pos+1),
          strayed := c.strayed || !decide (0≤toInt c.pos ∧ toInt c.pos+1≤buf.length) } := by
  rw [vintFrom,run_bind,h]
  rfl

theorem vintFrom_step (hb : buf.length<2^31) {b : UInt8} (h : Sees buf c (b::xs)) :
    ∃ d, Sees buf d xs ∧ (vintFrom buf (passes+1) shift out).run c =
      (if b.toNat &&& 0x80=0 then pure (out ||| ((b.toNat &&& 0x7F) <<< shift)%2^64)
        else vintFrom buf passes (shift+7)
          (out ||| ((b.toNat &&& 0x7F) <<< shift)%2^64) : StateM Cursor Nat).run d := by
  have h1 : Sees buf c ([b]++xs) := h
  have ht : (buf.drop c.pos.toNat).take 1=[b] := h1.take
  refine ⟨_,h1.pass hb (b := c.strayed || !decide (0≤c.pos ∧ c.pos+1≤buf.length)),?_⟩
  rw [vintFrom_run (h1.want_run hb rfl),h.index hb]
  simp only [ht,leValue,Nat.mul_zero,Nat.add_zero]
  rfl

theorem vintFrom_takes (hb : buf.length<2^31) (hs : vintShaped xs=true)
    (hp : xs.length≤passes) :
    Takes buf (vintFrom buf passes shift out) xs (out ||| vintValue shift xs) := by
  induction passes generalizing xs shift out with
  | zero =>
    have hx : xs=[] := List.length_eq_zero_iff.mp (by omega)
    simp [hx,vintShaped] at hs
  | succ passes ih =>
    match xs, hs with
    | [b], hs =>
      have hlast : b.toNat &&& 0x80=0 := by simpa [vintShaped] using hs
      constructor
      · intro c rest h
        obtain ⟨d,hd,hr⟩ := vintFrom_step hb h
        rw [hr,if_pos hlast]
        refine ⟨?_,hd⟩
        simp only [vintValue,Nat.or_zero]
        rfl
      · intro c got h _ hl
        have hg : got=[] := List.length_eq_zero_iff.mp (by simpa using hl)
        obtain ⟨hf,ht⟩ := h.want_short hb (n := 1) (by simp [hg]) (by decide)
        rw [vintFrom_short hf]
        exact ht
    | b::b'::bs, hs =>
      simp only [vintShaped,Bool.and_eq_true,decide_eq_true_eq] at hs
      have hrest := @ih (b'::bs) (shift+7) (out ||| ((b.toNat &&& 0x7F) <<< shift)%2^64)
        hs.2 (by simpa using hp)
      constructor
      · intro c rest h
        obtain ⟨d,hd,hr⟩ := vintFrom_step hb h
        rw [hr,if_neg hs.1,vintValue,← Nat.or_assoc]
        exact hrest.whole d rest hd
      · intro c got h hpre hl
        match got, hpre with
        | [], _ =>
          obtain ⟨hf,ht⟩ := h.want_short hb (n := 1) (by simp) (by decide)
          rw [vintFrom_short hf]
          exact ht
        | g::got, hpre =>
          obtain ⟨hg,hpre⟩ := List.cons_prefix_cons.mp hpre
          obtain ⟨d,hd,hr⟩ := vintFrom_step hb (hg ▸ h)
          rw [hr,if_neg hs.1]
          exact hrest.cut d got hd hpre (by simpa using hl)

theorem vint_trips : Trips (vint buf) := vintFrom_trips

theorem whenSet_trips {p : Bool} {m : StateM Cursor Nat} (h : Trips m) : Trips (whenSet p m) :=
  .ite h (.pure 0)

@[simp] theorem whenSet_false (m : StateM Cursor Nat) : (whenSet false m).run c=(0, c) := rfl

@[simp] theorem whenSet_true (m : StateM Cursor Nat) : whenSet true m=m := rfl

theorem whenSet_takes {p : Bool} {m : StateM Cursor Nat} {a : Nat} (h : Takes buf m xs a) :
    Takes buf (whenSet p m) (if p then xs else []) (if p then a else 0) :=
  .ite (fun _ => h) fun _ => .pure 0

theorem mid_sees (h : Sees buf c (xs++rest)) (hb : buf.length<2^31) :
    mid buf (toInt c.pos) (toInt xs.length)=xs := by
  have hl := h.length
  have hs := h.start
  have hi : toInt c.pos=c.pos := h.index hb
  simp only [List.length_append,Nat.cast_add] at hl
  have hn : toInt xs.length=xs.length := toInt_eq (by omega) (by omega)
  have h1 : ¬ (buf.length : Int)<c.pos := by omega
  have h2 : ¬ c.pos<0 := by omega
  have h3 : ¬ (xs.length : Int)<0 := by omega
  simpa [mid,hi,hn,h1,h2,h3] using h.take

theorem bytes_trips (n : Int) : Trips (bytes buf n) := by
  intro c h
  rw [bytes]
  split
  · rfl
  · rw [run_bind,want_bad h]
    exact want_trips n c h

theorem bytes_takes (hb : buf.length<2^31) {n : Int} (hn : n=xs.length)
    (hs : xs.length<2^62) : Takes buf (bytes buf n) xs xs := by
  have h0 : ¬ n<0 := by omega
  constructor
  · intro c rest h
    rw [bytes,if_neg h0,run_bind,h.want_run hb hn]
    refine ⟨?_,?_⟩
    · change mid buf (toInt c.pos) (toInt n)=xs
      rw [hn,mid_sees h hb]
    · change Sees buf { c with pos := toQint64 (c.pos+n) } rest
      rw [hn]
      exact h.pass hb
  · intro c got h _ hl
    obtain ⟨hf,ht⟩ := h.want_short hb (n := n) (by omega) (by omega)
    rw [bytes,if_neg h0,run_bind,hf]
    exact ht

theorem verifyHeader_cut {blockStart covered headerEnd : Int} {out : RarVolume}
    (h : (buf.length : Int)<headerEnd) :
    (verifyHeader buf w blockStart covered headerEnd out).run c=(some out.cut, c) := by
  rw [verifyHeader,if_pos h]
  rfl

theorem Sees.peek (h : Sees buf c xs) (i : Int) (n : Nat) : Sees buf ((peek buf i n).run c).2 xs :=
  ⟨h.fine,h.start,h.within,h.ahead⟩

theorem verifyHeader_whole {covered ys t : List UInt8} (out : RarVolume)
    (hc : Sees buf c (leBytes w (crc32Of covered).toNat++(covered++t))) (hd : Sees buf d ys) :
    ∃ e, Sees buf e ys ∧
      (verifyHeader buf w c.pos (c.pos+w) (c.pos+w+covered.length) out).run d=(none, e) := by
  have hl := hc.length
  have hs := hc.start
  simp only [List.length_append,leBytes_length] at hl
  have hn : ¬ (buf.length : Int)<c.pos+w+covered.length := by omega
  have hsum : (buf.drop c.pos.toNat).take w=leBytes w (crc32Of covered).toNat := by
    rw [hc.ahead,List.take_left' (leBytes_length _ _)]
  have hcov : (buf.drop (c.pos+w).toNat).take covered.length=covered := by
    rw [show (c.pos+w).toNat=c.pos.toNat+w by omega,← List.drop_drop,hc.ahead,
      List.drop_left' (leBytes_length _ _),List.take_left]
  have hlen : (c.pos+w+covered.length-(c.pos+w)).toNat=covered.length := by omega
  refine ⟨_,(hd.peek (c.pos+w) covered.length).peek c.pos w,?_⟩
  have hgot : ((peek buf c.pos w).run ((peek buf (c.pos+w) covered.length).run d).2).1 =
      leBytes w (crc32Of covered).toNat := hsum
  have hcover : ((peek buf (c.pos+w) covered.length).run d).1=covered := hcov
  rw [verifyHeader,if_neg hn,hlen,run_bind,run_bind,hgot,hcover,leValue_leBytes_mod,
    if_neg (by simp)]
  rfl

end Cursor

end EmuleQt.Usenet
