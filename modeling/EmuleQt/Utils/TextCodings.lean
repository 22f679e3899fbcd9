import EmuleQt.Utils.OtherFunctions

namespace EmuleQt.Utils

open Crypto Math QString

section Base16

theorem base16Char_toNat {n : Nat} (h : n<16) :
    (base16Char n).toNat=if n<10 then 0x30+n else 0x41+(n-10) := by
  rw [base16Char,UInt16.toNat_ofNat']
  split_ifs <;> omega

theorem hexCharValue_base16Char {n : Nat} (h : n<16) : hexCharValue (base16Char n)=some n := by
  revert n
  decide

theorem byte_halves (b : UInt8) :
    b.toNat/16<16 ∧ b.toNat%16<16 ∧
      UInt8.ofNat (16*(b.toNat/16)+b.toNat%16)=b := by
  have hb := b.toNat_lt
  refine ⟨by omega,by omega,?_⟩
  rw [Nat.div_add_mod,UInt8.ofNat_toNat]

theorem base16Bytes_encodeBase16 (data : List UInt8) :
    base16Bytes (encodeBase16 data)=some data := by
  induction data with
  | nil => rfl
  | cons b data ih =>
    obtain ⟨hhi,hlo,hb⟩ := byte_halves b
    have hcons : encodeBase16 (b::data) =
        base16Char (b.toNat/16)::base16Char (b.toNat%16)::encodeBase16 data := rfl
    rw [hcons,base16Bytes,hexCharValue_base16Char hhi,hexCharValue_base16Char hlo,ih]
    dsimp only
    rw [hb]
    rfl

theorem encodeBase16_length (data : List UInt8) :
    (encodeBase16 data).length=2*data.length := by
  unfold encodeBase16
  rw [List.length_flatMap]
  simp [Nat.mul_comm]

theorem encodeBase16_units {data : List UInt8} {u : UInt16} (h : u∈encodeBase16 data) :
    (0x30≤u.toNat ∧ u.toNat≤0x39) ∨ (0x41≤u.toNat ∧ u.toNat≤0x5A) := by
  obtain ⟨b,-,hu⟩ := List.mem_flatMap.mp h
  obtain ⟨hhi,hlo,-⟩ := byte_halves b
  rcases List.mem_pair.mp hu with rfl | rfl
  · rw [base16Char_toNat hhi]
    split_ifs <;> omega
  · rw [base16Char_toNat hlo]
    split_ifs <;> omega

theorem md4str_length (hash : MD4Hash) : (md4str hash).length=32 := by
  rw [md4str,encodeBase16_length,hash.size]

theorem strmd4_md4str (hash : MD4Hash) : strmd4 (md4str hash)=some hash := by
  have hdecode : decodeBase16 (md4str hash) 16=some hash.bytes := by
    rw [decodeBase16,md4str_length,if_neg (by decide),md4str,base16Bytes_encodeBase16]
  rw [strmd4,md4str_length,if_neg (by decide),hdecode]
  dsimp only
  rw [dif_pos hash.size]

end Base16

section Base32

theorem base32Char_toNat {n : Nat} (h : n<32) :
    (base32Char n).toNat=if n<26 then 0x41+n else 0x32+(n-26) := by
  rw [base32Char,UInt16.toNat_ofNat']
  split_ifs <;> omega

theorem base32Value_base32Char {n : Nat} (h : n<32) : base32Value (base32Char n)=some n := by
  revert n
  decide

variable {input : QString} {v buffer bits outputLen : Nat}

/-- The buffer after a digit. -/
def pushDigit (buffer v : Nat) : Nat := (buffer*32+v)%2^32

theorem pushDigit_low (buffer : Nat) (hv : v<32) :
    pushDigit buffer v%2^20=buffer%2^15*32+v := by
  unfold pushDigit
  omega

theorem decodeBase32Loop_char (hv : v<32) (hbits : bits+5<8) :
    decodeBase32Loop (base32Char v::input) buffer bits outputLen =
      decodeBase32Loop input (pushDigit buffer v) (bits+5) outputLen := by
  rw [decodeBase32Loop,base32Value_base32Char hv]
  dsimp only
  rw [if_neg (by omega),pushDigit]

theorem decodeBase32Loop_byte (hv : v<32) (hbits : 8≤bits+5) :
    decodeBase32Loop (base32Char v::input) buffer bits (outputLen+1) =
      (decodeBase32Loop input (pushDigit buffer v) (bits+5-8) outputLen).map
        (UInt8.ofNat (pushDigit buffer v/2^(bits+5-8)) :: ·) := by
  rw [decodeBase32Loop,base32Value_base32Char hv]
  dsimp only
  rw [if_pos hbits,if_neg (by omega),Nat.add_sub_cancel,pushDigit]

/-- The eight digits of five bytes. -/
def base32Group (b₀ b₁ b₂ b₃ b₄ : Nat) : QString :=
  [base32Char (b₀/8),base32Char (b₀%8*4+b₁/64),base32Char (b₁/2%32),
    base32Char (b₁%2*16+b₂/16),base32Char (b₂%16*2+b₃/128),
    base32Char (b₃/4%32),base32Char (b₃%4*8+b₄/32),base32Char (b₄%32)]

theorem buffer_bytes (buffer : Nat) (b : UInt8) :
    (buffer*256+b.toNat)%2^32%2^8=b.toNat ∧
      (buffer*256+b.toNat)%2^32%2^16=buffer%2^8*256+b.toNat := by
  have hb := b.toNat_lt
  omega

theorem encodeBase32Loop_group (b₀ b₁ b₂ b₃ b₄ : UInt8) (rest : List UInt8) (buffer : Nat) :
    ∃ buffer', encodeBase32Loop (b₀::b₁::b₂::b₃::b₄::rest) buffer 0 =
      base32Group b₀.toNat b₁.toNat b₂.toNat b₃.toNat b₄.toNat ++
        encodeBase32Loop rest buffer' 0 := by
  obtain ⟨hlow₀,-⟩ := buffer_bytes buffer b₀
  generalize hx₀ : (buffer*256+b₀.toNat)%2^32=x₀ at hlow₀
  obtain ⟨hlow₁,hx₁low⟩ := buffer_bytes x₀ b₁
  generalize hx₁ : (x₀*256+b₁.toNat)%2^32=x₁ at hlow₁ hx₁low
  obtain ⟨hlow₂,hx₂low⟩ := buffer_bytes x₁ b₂
  generalize hx₂ : (x₁*256+b₂.toNat)%2^32=x₂ at hlow₂ hx₂low
  obtain ⟨hlow₃,hx₃low⟩ := buffer_bytes x₂ b₃
  generalize hx₃ : (x₂*256+b₃.toNat)%2^32=x₃ at hlow₃ hx₃low
  obtain ⟨-,hx₄low⟩ := buffer_bytes x₃ b₄
  generalize hx₄ : (x₃*256+b₄.toNat)%2^32=x₄ at hx₄low
  have hloop : encodeBase32Loop (b₀::b₁::b₂::b₃::b₄::rest) buffer 0 =
      [base32Char (x₀/2^3%32),base32Char (x₁/2^6%32),base32Char (x₁/2^1%32),
        base32Char (x₂/2^4%32),base32Char (x₃/2^7%32),base32Char (x₃/2^2%32),
        base32Char (x₄/2^5%32),base32Char (x₄/2^0%32)] ++
      encodeBase32Loop rest x₄ 0 := by
    subst hx₀ hx₁ hx₂ hx₃ hx₄
    rfl
  refine ⟨x₄,hloop.trans (congrArg (· ++ encodeBase32Loop rest x₄ 0) ?_)⟩
  clear hloop hx₀ hx₁ hx₂ hx₃ hx₄
  have h₀ := b₀.toNat_lt
  have h₁ := b₁.toNat_lt
  have h₂ := b₂.toNat_lt
  have h₃ := b₃.toNat_lt
  have h₄ := b₄.toNat_lt
  have hd₀ : x₀/2^3%32=b₀.toNat/8 := by omega
  have hd₁ : x₁/2^6%32=b₀.toNat%8*4+b₁.toNat/64 := by omega
  have hd₂ : x₁/2^1%32=b₁.toNat/2%32 := by omega
  have hd₃ : x₂/2^4%32=b₁.toNat%2*16+b₂.toNat/16 := by omega
  have hd₄ : x₃/2^7%32=b₂.toNat%16*2+b₃.toNat/128 := by omega
  have hd₅ : x₃/2^2%32=b₃.toNat/4%32 := by omega
  have hd₆ : x₄/2^5%32=b₃.toNat%4*8+b₄.toNat/32 := by omega
  have hd₇ : x₄/2^0%32=b₄.toNat%32 := by omega
  rw [hd₀,hd₁,hd₂,hd₃,hd₄,hd₅,hd₆,hd₇,base32Group]

theorem ofNat_eq_of_mod {n : Nat} {b : UInt8} (h : n%2^8=b.toNat) : UInt8.ofNat n=b := by
  apply UInt8.toNat_inj.mp
  rw [UInt8.toNat_ofNat',h]

theorem decodeBase32Loop_group (b₀ b₁ b₂ b₃ b₄ : UInt8) (input : QString)
    (buffer outputLen : Nat) :
    ∃ buffer', decodeBase32Loop
        (base32Group b₀.toNat b₁.toNat b₂.toNat b₃.toNat b₄.toNat++input) buffer 0
        (outputLen+5) =
      (decodeBase32Loop input buffer' 0 outputLen).map (b₀::b₁::b₂::b₃::b₄ :: ·) := by
  have h₀ := b₀.toNat_lt
  have h₁ := b₁.toNat_lt
  have h₂ := b₂.toNat_lt
  have h₃ := b₃.toNat_lt
  have h₄ := b₄.toNat_lt
  unfold base32Group
  simp only [List.cons_append,List.nil_append]
  have hv₀ : b₀.toNat/8<32 := by omega
  have hv₁ : b₀.toNat%8*4+b₁.toNat/64<32 := by omega
  have hv₂ : b₁.toNat/2%32<32 := by omega
  have hv₃ : b₁.toNat%2*16+b₂.toNat/16<32 := by omega
  have hv₄ : b₂.toNat%16*2+b₃.toNat/128<32 := by omega
  have hv₅ : b₃.toNat/4%32<32 := by omega
  have hv₆ : b₃.toNat%4*8+b₄.toNat/32<32 := by omega
  have hv₇ : b₄.toNat%32<32 := by omega
  rw [decodeBase32Loop_char hv₀ (by decide),decodeBase32Loop_byte hv₁ (by decide),
    decodeBase32Loop_char hv₂ (by decide),decodeBase32Loop_byte hv₃ (by decide),
    decodeBase32Loop_byte hv₄ (by decide),decodeBase32Loop_char hv₅ (by decide),
    decodeBase32Loop_byte hv₆ (by decide),decodeBase32Loop_byte hv₇ (by decide)]
  have hlow₀ := pushDigit_low buffer hv₀
  generalize pushDigit buffer (b₀.toNat/8)=x₀ at hlow₀ ⊢
  have hlow₁ := pushDigit_low x₀ hv₁
  generalize pushDigit x₀ (b₀.toNat%8*4+b₁.toNat/64)=x₁ at hlow₁ ⊢
  have hb₀ : UInt8.ofNat (x₁/2^2)=b₀ := ofNat_eq_of_mod (by omega)
  clear hlow₀
  have hlow₂ := pushDigit_low x₁ hv₂
  generalize pushDigit x₁ (b₁.toNat/2%32)=x₂ at hlow₂ ⊢
  have hlow₃ := pushDigit_low x₂ hv₃
  generalize pushDigit x₂ (b₁.toNat%2*16+b₂.toNat/16)=x₃ at hlow₃ ⊢
  have hb₁ : UInt8.ofNat (x₃/2^4)=b₁ := ofNat_eq_of_mod (by omega)
  clear hlow₁ hlow₂
  have hlow₄ := pushDigit_low x₃ hv₄
  generalize pushDigit x₃ (b₂.toNat%16*2+b₃.toNat/128)=x₄ at hlow₄ ⊢
  have hb₂ : UInt8.ofNat (x₄/2^1)=b₂ := ofNat_eq_of_mod (by omega)
  clear hlow₃
  have hlow₅ := pushDigit_low x₄ hv₅
  generalize pushDigit x₄ (b₃.toNat/4%32)=x₅ at hlow₅ ⊢
  have hlow₆ := pushDigit_low x₅ hv₆
  generalize pushDigit x₅ (b₃.toNat%4*8+b₄.toNat/32)=x₆ at hlow₆ ⊢
  have hb₃ : UInt8.ofNat (x₆/2^3)=b₃ := ofNat_eq_of_mod (by omega)
  clear hlow₄ hlow₅
  have hlow₇ := pushDigit_low x₆ hv₇
  generalize pushDigit x₆ (b₄.toNat%32)=x₇ at hlow₇ ⊢
  have hb₄ : UInt8.ofNat (x₇/2^0)=b₄ := ofNat_eq_of_mod (by omega)
  refine ⟨x₇,?_⟩
  simp only [Nat.reduceAdd,Nat.reduceSub,hb₀,hb₁,hb₂,hb₃,hb₄,Option.map_map]
  rfl

theorem decodeBase32Loop_encodeBase32Loop {k : Nat} {data : List UInt8}
    (h : data.length=5*k) (buffer buffer' : Nat) :
    decodeBase32Loop (encodeBase32Loop data buffer 0) buffer' 0 (5*k)=some data := by
  induction k generalizing data buffer buffer' with
  | zero =>
    rw [List.length_eq_zero_iff.mp h]
    rfl
  | succ k ih =>
    match data, h with
    | b₀::b₁::b₂::b₃::b₄::rest, h =>
      simp only [List.length_cons] at h
      obtain ⟨x,hencode⟩ := encodeBase32Loop_group b₀ b₁ b₂ b₃ b₄ rest buffer
      obtain ⟨y,hdecode⟩ := decodeBase32Loop_group b₀ b₁ b₂ b₃ b₄ (encodeBase32Loop rest x 0)
        buffer' (5*k)
      rw [hencode,Nat.mul_succ,hdecode,ih (by omega)]
      rfl

theorem decodeBase32_encodeBase32 (hash : AICHHash) :
    decodeBase32 (encodeBase32 hash.bytes) kAICHHashSize=some hash.bytes :=
  decodeBase32Loop_encodeBase32Loop (k := 4) hash.size 0 0

theorem encodeBase32_units {data : List UInt8} {u : UInt16} (h : u∈encodeBase32 data) :
    (0x30≤u.toNat ∧ u.toNat≤0x39) ∨ (0x41≤u.toNat ∧ u.toNat≤0x5A) := by
  have hchar : ∀ n,(0x30≤(base32Char (n%32)).toNat ∧ (base32Char (n%32)).toNat≤0x39) ∨
      (0x41≤(base32Char (n%32)).toNat ∧ (base32Char (n%32)).toNat≤0x5A) := by
    intro n
    have hlt : n%32<32 := Nat.mod_lt n (by decide)
    rw [base32Char_toNat hlt]
    split_ifs <;> omega
  have hloop : ∀ data buffer bits,u∈encodeBase32Loop data buffer bits →
      (0x30≤u.toNat ∧ u.toNat≤0x39) ∨ (0x41≤u.toNat ∧ u.toNat≤0x5A) := by
    intro data
    induction data with
    | nil =>
      intro buffer bits hu
      rw [encodeBase32Loop] at hu
      split_ifs at hu
      · rw [List.mem_singleton.mp hu]
        exact hchar _
      · cases hu
    | cons b data ih =>
      intro buffer bits hu
      rcases List.mem_append.mp hu with hu | hu
      · obtain ⟨i,-,rfl⟩ := List.mem_map.mp hu
        exact hchar _
      · exact ih _ _ hu
  exact hloop data 0 0 h

end Base32

section Percent

theorem toPercentEncoding_cons (b : UInt8) (raw : List UInt8) :
    toPercentEncoding (b::raw) =
      (if isUnreserved b then [UInt16.ofNat b.toNat]
        else [percent,base16Char (b.toNat/16),base16Char (b.toNat%16)]) ++
      toPercentEncoding raw := rfl

theorem toPercentEncoding_units {raw : List UInt8} {u : UInt16}
    (h : u∈toPercentEncoding raw) :
    u=percent ∨ (0x30≤u.toNat ∧ u.toNat≤0x39) ∨ (0x41≤u.toNat ∧ u.toNat≤0x5A) ∨
      (0x61≤u.toNat ∧ u.toNat≤0x7A) ∨ u.toNat=0x2D ∨ u.toNat=0x2E ∨ u.toNat=0x5F ∨
      u.toNat=0x7E := by
  obtain ⟨b,-,hu⟩ := List.mem_flatMap.mp h
  have hb := b.toNat_lt
  split_ifs at hu with hplain
  · rw [List.mem_singleton.mp hu,UInt16.toNat_ofNat',Nat.mod_eq_of_lt (by omega)]
    unfold isUnreserved at hplain
    have hcases := of_decide_eq_true hplain
    omega
  · have hhalves : u=percent ∨ u∈encodeBase16 [b] := by
      simpa [encodeBase16] using hu
    rcases hhalves with rfl | hdigit
    · exact Or.inl rfl
    · rcases encodeBase16_units hdigit with hnum | hletter
      · exact Or.inr (Or.inl hnum)
      · exact Or.inr (Or.inr (Or.inl hletter))

theorem toPercentEncoding_ascii {raw : List UInt8} {u : UInt16}
    (h : u∈toPercentEncoding raw) : u.toNat≤0x7F := by
  rcases toPercentEncoding_units h with rfl | hu
  · decide
  · omega

theorem fromPercentEncoding_plain {b : UInt8} (h : b≠0x25) (rest : List UInt8) :
    fromPercentEncoding (b::rest)=b::fromPercentEncoding rest := by
  match rest with
  | [] => rfl
  | [_] => rfl
  | _ :: _ :: _ => rw [fromPercentEncoding,if_neg h]

theorem fromPercentEncoding_escape (b : UInt8) (rest : List UInt8) :
    fromPercentEncoding (0x25::UInt8.ofNat (base16Char (b.toNat/16)).toNat ::
      UInt8.ofNat (base16Char (b.toNat%16)).toNat::rest)=b::fromPercentEncoding rest := by
  obtain ⟨hhi,hlo,hb⟩ := byte_halves b
  have hvalue : ∀ n<16,byteHexValue (UInt8.ofNat (base16Char n).toNat)=some n := by decide
  rw [fromPercentEncoding,if_pos rfl,hvalue _ hhi,hvalue _ hlo]
  dsimp only
  rw [hb]

theorem fromPercentEncoding_toPercentEncoding (raw : List UInt8) :
    fromPercentEncoding (toLatin1 (toPercentEncoding raw))=raw := by
  induction raw with
  | nil => rfl
  | cons b raw ih =>
    have hb := b.toNat_lt
    unfold toLatin1 at ih ⊢
    rw [toPercentEncoding_cons,List.map_append]
    by_cases hplain : isUnreserved b=true
    · have hne : b≠0x25 := by
        rintro rfl
        exact absurd hplain (by decide)
      have hunit : (UInt16.ofNat b.toNat).toNat=b.toNat := by
        rw [UInt16.toNat_ofNat',Nat.mod_eq_of_lt (by omega)]
      rw [if_pos hplain,List.map_singleton,hunit,if_pos (by omega),UInt8.ofNat_toNat,
        List.singleton_append,fromPercentEncoding_plain hne,ih]
    · obtain ⟨hhi,hlo,-⟩ := byte_halves b
      have hsmall : ∀ n<16,(base16Char n).toNat≤0xFF := by decide
      have hpercent : percent.toNat≤0xFF := by decide
      rw [if_neg hplain,List.map_cons,List.map_cons,List.map_singleton,if_pos hpercent,
        if_pos (hsmall _ hhi),if_pos (hsmall _ hlo)]
      have hescape := fromPercentEncoding_escape b
      rw [List.cons_append,List.cons_append,List.singleton_append]
      exact (hescape _).trans (congrArg (b :: ·) ih)

theorem urlDecode_urlEncode {cs : List Char} (h : cs.head? ≠ some '\uFEFF') :
    urlDecode (urlEncode (cs.flatMap utf16))=cs.flatMap utf16 := by
  have hbytes : toUtf8 (urlEncode (cs.flatMap utf16))=toLatin1 (urlEncode (cs.flatMap utf16)) :=
    (toLatin1_ascii fun u hu => toPercentEncoding_ascii hu).1.symm
  have hchars : chars (cs.flatMap utf16)=cs := by
    rw [chars,utf16Chars_utf16,List.map_map]
    exact List.map_id cs
  rw [urlDecode,hbytes,urlEncode,fromPercentEncoding_toPercentEncoding,toUtf8,hchars,
    fromUtf8_utf8,dropMarks_of_head h]

theorem toPercentEncoding_closed (raw : List UInt8) : Closed (toPercentEncoding raw) := by
  induction raw with
  | nil => exact closed_of_units (by simp [toPercentEncoding])
  | cons b raw ih =>
    rw [toPercentEncoding_cons]
    refine closed_append ?_ ih
    split_ifs with hplain
    · refine closed_of_units fun u hu => ?_
      rw [List.mem_singleton.mp hu]
      intro hpercent
      have hb : b=0x25 := by
        have hvalue := congrArg UInt16.toNat hpercent
        have hlt := b.toNat_lt
        rw [UInt16.toNat_ofNat',Nat.mod_eq_of_lt (by omega)] at hvalue
        exact UInt8.toNat_inj.mp hvalue
      rw [hb] at hplain
      exact absurd hplain (by decide)
    · obtain ⟨hhi,hlo,-⟩ := byte_halves b
      have hne : ∀ n<16,base16Char n≠percent := by decide
      exact closed_escape (hne _ hhi) (hne _ hlo)

end Percent

end EmuleQt.Utils
