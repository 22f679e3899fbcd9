import EmuleQt.Utils.QtString

namespace EmuleQt.Utils

open Math

namespace QString

theorem utf16_length (c : Char) :
    1≤(utf16 c).length ∧ (utf16 c).length≤c.utf8Size ∧ c.utf8Size≤3*(utf16 c).length := by
  have hval : c.val.toNat=c.toNat := rfl
  unfold utf16 Char.utf8Size
  simp only [UInt32.le_iff_toNat_le,hval]
  have hone : (UInt32.ofNatLT 127 (by decide)).toNat=127 := rfl
  have hthree : (UInt32.ofNatLT 65535 (by decide)).toNat=65535 := rfl
  split_ifs <;> simp only [List.length_cons,List.length_nil] <;> omega

theorem utf8_length_le (cs : List Char) : (utf8 cs).length≤3*(cs.flatMap utf16).length := by
  induction cs with
  | nil => exact Nat.zero_le _
  | cons c cs ih =>
    obtain ⟨-,-,hbytes⟩ := utf16_length c
    have hcons : utf8 (c::cs)=String.utf8EncodeChar c++utf8 cs := by
      rw [utf8,List.flatMap_cons,utf8]
    rw [hcons,List.flatMap_cons,List.length_append,List.length_append,
      String.length_utf8EncodeChar]
    omega

theorem decodeUtf8_length_le (raw : List UInt8) : (decodeUtf8 raw).length≤raw.length := by
  unfold decodeUtf8
  induction raw using utf8Chars.induct with
  | case1 => simp [utf8Chars]
  | case2 b bytes c hhead ih =>
    obtain ⟨-,hunits,-⟩ := utf16_length c
    have hsize : 0+c.utf8Size≤(b::bytes).toByteArray.size :=
      ByteArray.le_size_of_utf8DecodeChar?_eq_some hhead
    rw [List.size_toByteArray,List.length_cons] at hsize
    rw [List.length_drop] at ih
    rw [utf8Chars,hhead]
    rw [List.flatMap_cons,List.length_append,List.length_cons,Option.getD_some]
    omega
  | case3 b bytes hhead ih =>
    have hone : (utf16 '\uFFFD').length=1 := by decide
    rw [utf8Chars,hhead]
    rw [List.flatMap_cons,List.length_append,List.length_cons,Option.getD_none,hone]
    omega

theorem decodeUtf8_append (c : Char) (raw : List UInt8) :
    decodeUtf8 (String.utf8EncodeChar c++raw)=utf16 c++decodeUtf8 raw := by
  unfold decodeUtf8
  rw [utf8Chars_append,List.flatMap_cons,Option.getD_some]

theorem decodeUtf8_take_length (cs : List Char) {k : Nat} (h : k≤(utf8 cs).length) :
    3*(decodeUtf8 ((utf8 cs).take k)).length+((utf8 cs).length-k) ≤
      9+3*(cs.flatMap utf16).length := by
  induction cs generalizing k with
  | nil =>
    have hnil : (decodeUtf8 ((utf8 []).take k)).length≤((utf8 []).take k).length :=
      decodeUtf8_length_le _
    have hempty : (utf8 []).length=0 := rfl
    rw [List.length_take] at hnil
    omega
  | cons c cs ih =>
    have hcons : utf8 (c::cs)=String.utf8EncodeChar c++utf8 cs := by
      rw [utf8,List.flatMap_cons,utf8]
    have hsize := String.length_utf8EncodeChar c
    have htotal := utf8_length_le (c::cs)
    rw [hcons,List.length_append] at h htotal ⊢
    by_cases hfits : c.utf8Size≤k
    · have hrest := @ih (k-c.utf8Size) (by omega)
      have htake : (String.utf8EncodeChar c++utf8 cs).take k =
          String.utf8EncodeChar c++(utf8 cs).take (k-c.utf8Size) := by
        rw [List.take_append,List.take_of_length_le (by omega),hsize]
      rw [htake,decodeUtf8_append,List.flatMap_cons,List.length_append,List.length_append]
      omega
    · have hfour := Char.utf8Size_le_four c
      have hfront := decodeUtf8_length_le ((String.utf8EncodeChar c++utf8 cs).take k)
      rw [List.length_take,List.length_append] at hfront
      omega

theorem fromUtf8_length_le (raw : List UInt8) :
    (fromUtf8 raw).length≤(decodeUtf8 raw).length := by
  unfold fromUtf8
  split_ifs with hmark
  · have hsplit : raw=String.utf8EncodeChar '\uFEFF'++raw.drop 3 := by
      conv_lhs => rw [← List.take_append_drop 3 raw,hmark,kBom,← utf8EncodeChar_bom]
    conv_rhs => rw [hsplit,decodeUtf8_append,List.length_append]
    exact Nat.le_add_left _ _
  · exact Nat.le_refl _

theorem utf16_length_ofNat {n : Nat} (h : n<0x110000) (hgap : n<0xD800 ∨ 0xE000≤n) :
    (utf16 (Char.ofNat n)).length=if n<0x10000 then 1 else 2 := by
  have hvalid : n.isValidChar := by
    rcases hgap with hlow | hhigh
    · exact Or.inl hlow
    · exact Or.inr ⟨by omega,h⟩
  have hvalue : (Char.ofNat n).toNat=n := by
    rw [Char.ofNat,dif_pos hvalid]
    rfl
  unfold utf16
  rw [hvalue]
  split_ifs <;> rfl

theorem singleUnit_length (u : UInt16) : (utf16 ((singleUnit u).getD '?')).length=1 := by
  have hlt := u.toNat_lt
  unfold singleUnit
  split_ifs with hsurrogate
  · decide
  · rw [Option.getD_some,utf16_length_ofNat (by omega),if_pos (by omega)]
    simp only [isHighSurrogate,isLowSurrogate,Bool.or_eq_true,decide_eq_true_eq] at hsurrogate
    omega

theorem chars_length (s : QString) : ((chars s).flatMap utf16).length=s.length := by
  unfold chars
  rw [List.flatMap_map]
  induction s using utf16Chars.induct with
  | case1 => rfl
  | case2 u => simpa [utf16Chars] using singleUnit_length u
  | case3 u v rest hpair ih =>
    have htwo : (utf16 (surrogatePair u v)).length=2 := by
      simp only [isHighSurrogate,isLowSurrogate,Bool.and_eq_true,decide_eq_true_eq] at hpair
      rw [surrogatePair,utf16_length_ofNat (by omega) (by omega),if_neg (by omega)]
    rw [utf16Chars,if_pos hpair,List.flatMap_cons,List.length_append,ih,Option.getD_some,htwo,
      List.length_cons,List.length_cons]
    omega
  | case4 u v rest hpair ih =>
    rw [utf16Chars,if_neg hpair,List.flatMap_cons,List.length_append,ih,singleUnit_length,
      List.length_cons,List.length_cons,List.length_cons]
    omega

/-- A text is read back from the front that its length field of 16 bits tells exactly when the
field can tell its length, no surrogate in it is alone, and it begins with no byte order mark. -/
theorem fromUtf8_take (s : QString) :
    fromUtf8 ((toUtf8 s).take ((toUtf8 s).length%2^16))=s ↔
      (toUtf8 s).length<2^16 ∧ ∃ cs : List Char, s=cs.flatMap utf16 ∧
        cs.head? ≠ some '\uFEFF' := by
  constructor
  · intro h
    have hfits : (toUtf8 s).length<2^16 := by
      by_contra hlong
      have hfront := decodeUtf8_take_length (chars s) (Nat.mod_le (toUtf8 s).length (2^16))
      have hread := fromUtf8_length_le ((toUtf8 s).take ((toUtf8 s).length%2^16))
      have hwhole := chars_length s
      have hsame := congrArg List.length h
      change 3*(decodeUtf8 ((toUtf8 s).take ((toUtf8 s).length%2^16))).length +
        ((toUtf8 s).length-(toUtf8 s).length%2^16)≤_ at hfront
      omega
    refine ⟨hfits,dropMarks 1 (chars s),?_,?_⟩
    · rw [Nat.mod_eq_of_lt hfits,List.take_length,toUtf8,fromUtf8_utf8] at h
      exact h.symm
    · rw [Nat.mod_eq_of_lt hfits,List.take_length,toUtf8,fromUtf8_utf8] at h
      have hchars : chars s=dropMarks 1 (chars s) := by
        conv_lhs => rw [← h,chars,utf16Chars_utf16,List.map_map]
        exact List.map_id _
      intro hhead
      rw [← hchars] at hhead
      obtain ⟨rest,hrest⟩ : ∃ rest, chars s = '\uFEFF'::rest := by
        cases hcs : chars s with
        | nil => simp [hcs] at hhead
        | cons c rest =>
          rw [hcs,List.head?_cons,Option.some.injEq] at hhead
          exact ⟨rest,by rw [hhead]⟩
      have hlength := congrArg List.length hchars
      rw [hrest,dropMarks,if_pos rfl,dropMarks,List.length_cons] at hlength
      omega
  · rintro ⟨hfits,cs,rfl,hhead⟩
    have hchars : chars (cs.flatMap utf16)=cs := by
      rw [chars,utf16Chars_utf16,List.map_map]
      exact List.map_id cs
    rw [Nat.mod_eq_of_lt hfits,List.take_length,toUtf8,fromUtf8_utf8,hchars,
      dropMarks_of_head hhead]

theorem reread_ascii {s : QString} (h : ∀ u∈s,u.toNat≤0x7F) (encode : UTF8Mode) :
    reread s encode=s := by
  have hunit : ∀ u∈s,utf16 (Char.ofNat u.toNat)=[u] := by
    intro u hu
    have hlow := h u hu
    have hvalue : (Char.ofNat u.toNat).toNat=u.toNat := by
      have hvalid : u.toNat.isValidChar := Or.inl (by omega)
      rw [Char.ofNat,dif_pos hvalid]
      rfl
    rw [utf16,hvalue,if_pos (by omega),UInt16.ofNat_toNat]
  rw [reread,dropMarks_of_head (toLatin1_ascii h).2,chars,utf16Chars_ascii h,List.map_map,
    List.flatMap_map]
  exact (List.flatMap_congr hunit).trans (List.flatMap_singleton' s)

theorem reread_eq_self_iff (s : QString) : reread s .OptBOM=s ↔
    ∃ cs : List Char, s=cs.flatMap utf16 ∧ cs.head? ≠ some '\uFEFF' := by
  constructor
  · intro hsame
    have hlen := chars_length s
    by_cases hmark : (chars s).head? = some '\uFEFF'
    · obtain ⟨cs,hchars⟩ := List.head?_eq_some_iff.mp hmark
      have hrest : reread s .OptBOM=cs.flatMap utf16 := by
        rw [reread,hchars]
        rfl
      have hshort : (utf16 '\uFEFF').length=1 := rfl
      rw [hchars,List.flatMap_cons,List.length_append,hshort,← hrest,hsame] at hlen
      omega
    · refine ⟨chars s,?_,hmark⟩
      rw [reread,dropMarks_of_head hmark] at hsame
      exact hsame.symm
  · intro hplain
    obtain ⟨cs,rfl,hhead⟩ := hplain
    exact reread_eq hhead .OptBOM

end QString

end EmuleQt.Utils
