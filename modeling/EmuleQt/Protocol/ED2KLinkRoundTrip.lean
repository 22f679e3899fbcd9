import EmuleQt.Net.AddressLiteral
import EmuleQt.Protocol.ED2KLink

namespace EmuleQt.Protocol

open Crypto Math Net Utils Utils.QString

section Names

variable {cs : List Char} {c : Char}

/-- Characters whose escapes begin like the first three place markers. -/
def isMarkerChar (c : Char) : Bool :=
  decide (c∈['+',',',';','=']) ||
    decide (c.toNat∈[1,2,3,0x1A,0x1B,0x1C,0x1D,0x1E,0x1F])

/-- Text with a character in it, no byte order mark in front, and none of those characters. -/
structure PlainName (name : QString) (cs : List Char) : Prop where
  text : name=cs.flatMap utf16
  ne_nil : cs≠[]
  mark : cs.head? ≠ some '\uFEFF'
  plain : ∀ c∈cs, isMarkerChar c=false

def stripChar (c : Char) : Char := if c ∈ "\"*<>?|\\/:".toList then '_' else c

theorem char_of_invalid {u : UInt16} (h : isInvalidFilenameChar u=true) :
    ∃ c ∈ "\"*<>?|\\/:".toList, c.toNat=u.toNat := by
  have hsmall : ∀ c ∈ "\"*<>?|\\/:".toList, c.toNat<0x80 :=
    List.all_iff_forall_prop.mp (by decide)
  obtain ⟨c,hc,rfl⟩ := List.mem_map.mp (of_decide_eq_true h)
  have hlt := hsmall c hc
  refine ⟨c,hc,?_⟩
  rw [UInt16.toNat_ofNat',Nat.mod_eq_of_lt (by omega)]

theorem stripInvalidFilenameChars_char (c : Char) :
    stripInvalidFilenameChars (utf16 c)=utf16 (stripChar c) := by
  by_cases hc : c ∈ "\"*<>?|\\/:".toList
  · have hall : ∀ c ∈ "\"*<>?|\\/:".toList,
        stripInvalidFilenameChars (utf16 c)=utf16 (stripChar c) :=
      List.all_iff_forall_prop.mp (by decide)
    exact hall c hc
  · rw [stripChar,if_neg hc]
    obtain ⟨hmax,hgap⟩ := char_range c
    have hkeep : ∀ u∈utf16 c,isInvalidFilenameChar u=false := by
      intro u hu
      by_contra hinvalid
      obtain ⟨c',hc',hvalue⟩ := char_of_invalid (Bool.eq_true_of_not_eq_false hinvalid)
      have hsmall : ∀ c ∈ "\"*<>?|\\/:".toList, c.toNat<0x80 :=
    List.all_iff_forall_prop.mp (by decide)
      have hlt := hsmall c' hc'
      unfold utf16 at hu
      split_ifs at hu with hone
      · rw [List.mem_singleton.mp hu,UInt16.toNat_ofNat',Nat.mod_eq_of_lt (by omega)] at hvalue
        exact hc (Char.toNat_inj.mp hvalue ▸ hc')
      · rcases List.mem_pair.mp hu with rfl | rfl <;>
        · rw [UInt16.toNat_ofNat'] at hvalue
          omega
    conv_rhs => rw [← List.map_id (utf16 c)]
    exact List.map_congr_left fun u hu => by rw [hkeep u hu]; rfl

theorem stripInvalidFilenameChars_utf16 (cs : List Char) :
    stripInvalidFilenameChars (cs.flatMap utf16)=(cs.map stripChar).flatMap utf16 := by
  induction cs with
  | nil => rfl
  | cons c cs ih =>
    have hchar := stripInvalidFilenameChars_char c
    unfold stripInvalidFilenameChars at hchar ih ⊢
    rw [List.flatMap_cons,List.map_append,hchar,ih,List.map_cons,List.flatMap_cons]

theorem ascii_of_mem_utf8 {b : UInt8} (hb : b.toNat<0x80) (h : b∈utf8 cs) :
    ∃ c∈cs, c.toNat=b.toNat := by
  obtain ⟨c,hc,hmem⟩ := List.mem_flatMap.mp h
  refine ⟨c,hc,?_⟩
  have hval : c.val.toNat=c.toNat := rfl
  unfold String.utf8EncodeChar at hmem
  simp only at hmem
  split_ifs at hmem with hone htwo hthree
  · rw [List.mem_singleton.mp hmem,UInt8.toNat_ofNat',hval]
    omega
  all_goals
    simp only [List.mem_cons,List.not_mem_nil,or_false] at hmem
    rcases hmem with rfl | rfl | rfl | rfl <;>
    · rw [UInt8.toNat_ofNat'] at hb
      omega

theorem markers_escape : ∀ b<256,
    (∀ m∈markers (toPercentEncoding [UInt8.ofNat b]), 3 < m) ∨
      b∈[1,2,3,0x1A,0x1B,0x1C,0x1D,0x1E,0x1F,0x2A,0x2B,0x2C,0x2F,0x3A,0x3B,0x3C,
        0x3D,0x3E,0x3F] := by
  decide +kernel

theorem markers_toPercentEncoding {raw : List UInt8} {n : Nat}
    (h : n∈markers (toPercentEncoding raw)) :
    ∃ b∈raw, n∈markers (toPercentEncoding [b]) := by
  induction raw with
  | nil => cases h
  | cons b raw ih =>
    have hsplit : toPercentEncoding (b::raw) =
        toPercentEncoding [b]++toPercentEncoding raw := by
      simp [toPercentEncoding]
    rw [hsplit,markers_append (toPercentEncoding_closed [b]),List.mem_append] at h
    rcases h with h | h
    · exact ⟨b,List.mem_cons_self,h⟩
    · obtain ⟨b',hb',hn⟩ := ih h
      exact ⟨b',List.mem_cons_of_mem b hb',hn⟩

theorem stripChar_ne {c : Char} : stripChar c ∉ "\"*<>?|\\/:".toList := by
  unfold stripChar
  split_ifs with h
  · decide
  · exact h

theorem isMarkerChar_stripChar (h : isMarkerChar c=false) :
    isMarkerChar (stripChar c)=false := by
  unfold stripChar
  split_ifs
  · decide
  · exact h

variable {name : QString}

theorem PlainName.stripped (h : PlainName name cs) :
    stripInvalidFilenameChars name=(cs.map stripChar).flatMap utf16 ∧
      (cs.map stripChar).head? ≠ some '\uFEFF' := by
  refine ⟨h.text ▸ stripInvalidFilenameChars_utf16 cs,fun hmark => ?_⟩
  rw [List.head?_map,Option.map_eq_some_iff] at hmark
  obtain ⟨c,hc,hstrip⟩ := hmark
  unfold stripChar at hstrip
  split_ifs at hstrip
  · exact absurd hstrip (by decide)
  · exact h.mark (hstrip ▸ hc)

theorem PlainName.markers_high (h : PlainName name cs) :
    ∀ m∈markers (urlEncode (stripInvalidFilenameChars name)), 3 < m := by
  intro m hm
  have hchars : chars ((cs.map stripChar).flatMap utf16)=cs.map stripChar := by
    rw [chars,utf16Chars_utf16,List.map_map]
    exact List.map_id _
  rw [h.stripped.1,urlEncode,toUtf8,hchars] at hm
  obtain ⟨b,hb,hm⟩ := markers_toPercentEncoding hm
  have hescape := markers_escape b.toNat b.toNat_lt
  rw [UInt8.ofNat_toNat] at hescape
  rcases hescape with hhigh | hbad
  · exact hhigh m hm
  · have hlist : ∀ n∈[1,2,3,0x1A,0x1B,0x1C,0x1D,0x1E,0x1F,0x2A,0x2B,0x2C,0x2F,0x3A,
        0x3B,0x3C,0x3D,0x3E,0x3F], n<0x80 ∧
        (isMarkerChar (Char.ofNat n)=true ∨ Char.ofNat n ∈ "\"*<>?|\\/:".toList) := by decide
    obtain ⟨hascii,hcases⟩ := hlist _ hbad
    obtain ⟨c,hc,hvalue⟩ := ascii_of_mem_utf8 hascii hb
    obtain ⟨c,hmem,rfl⟩ := List.mem_map.mp hc
    rw [← hvalue,Char.ofNat_toNat] at hcases
    rcases hcases with hmarker | hinvalid
    · rw [isMarkerChar_stripChar (h.plain c hmem)] at hmarker
      cases hmarker
    · exact absurd hinvalid stripChar_ne

theorem PlainName.decoded (h : PlainName name cs) :
    urlDecode (urlEncode (stripInvalidFilenameChars name))=stripInvalidFilenameChars name := by
  obtain ⟨htext,hmark⟩ := h.stripped
  rw [htext,urlDecode_urlEncode hmark]

theorem PlainName.stripped_ne_nil (h : PlainName name cs) :
    stripInvalidFilenameChars name≠[] := by
  intro hnil
  have hname : cs.flatMap utf16=[] := by
    rw [← h.text]
    exact List.map_eq_nil_iff.mp hnil
  obtain ⟨c,rest,rfl⟩ := List.exists_cons_of_ne_nil h.ne_nil
  obtain ⟨hone,-,-⟩ := utf16_length c
  rw [List.flatMap_cons,List.append_eq_nil_iff] at hname
  rw [hname.1] at hone
  exact absurd hone (by decide)

end Names

section Sources

variable {addr : AddressText} {r : LinkReader} {src : ED2KLinkSource} {ipv6Only : Bool}

/-- A source as it comes back from a link. -/
def ED2KLinkSource.written (addr : AddressText) (src : ED2KLinkSource) : ED2KLinkSource :=
  ⟨src.host addr, src.port, src.address, []⟩

/-- Characters that no host name has. -/
def isHostSyntax (u : UInt16) : Bool :=
  isSpace u || decide (u∈[comma,pipe,percent,colon,bracketOpen,bracketClose])

/-- A host name that is no address, or an address that reads back as it is and is no LowID. -/
def ED2KLinkSource.Reachable (addr : AddressText) (src : ED2KLinkSource) : Prop :=
  match src.address with
  | .none => src.hostname ≠ [] ∧ (∀ u ∈ src.hostname, isHostSyntax u = false) ∧
      addr.fromString src.hostname = .none
  | .ipv4 ip => isLowID (Address.ipv4 ip).toNetworkUint32 = false
  | .ipv6 ip => ip.isMapped = false

/-- A source with a port that is not a URL. -/
structure ED2KLinkSource.Sound (addr : AddressText) (src : ED2KLinkSource) : Prop where
  port : src.port ≠ 0
  url : src.url = []
  reachable : src.Reachable addr

theorem plain_of_literal {u : UInt16} (h : (0x30≤u.toNat ∧ u.toNat≤0x39) ∨
    (0x61≤u.toNat ∧ u.toNat≤0x66) ∨ u=0x2E ∨ u=colon) :
    u≠comma ∧ u≠pipe ∧ u≠percent ∧ u≠bracketOpen ∧ u≠bracketClose ∧
      isSpace u=false := by
  rcases h with hdigit | hletter | rfl | rfl
  · have hspace : isSpace u=false := by
      unfold isSpace
      rw [decide_eq_false_iff_not]
      omega
    refine ⟨?_,?_,?_,?_,?_,hspace⟩ <;>
    · rintro rfl
      revert hdigit
      decide
  · have hspace : isSpace u=false := by
      unfold isSpace
      rw [decide_eq_false_iff_not]
      omega
    refine ⟨?_,?_,?_,?_,?_,hspace⟩ <;>
    · rintro rfl
      revert hletter
      decide
  · decide
  · decide

theorem ED2KLinkSource.Sound.plainHost (h : src.Sound addr) :
    PlainHost addr (src.host addr) ∧ addr.fromString (src.host addr)=src.address := by
  have hreach := h.reachable
  unfold ED2KLinkSource.Reachable at hreach
  unfold ED2KLinkSource.host
  cases haddress : src.address with
  | none =>
    rw [haddress] at hreach
    obtain ⟨hne,hunits,hnone⟩ := hreach
    refine ⟨⟨hne,fun u hu => ?_,fun hcolon => ?_⟩,hnone⟩
    · have hplain := hunits u hu
      simp only [isHostSyntax,Bool.or_eq_false_iff,decide_eq_false_iff_not,List.mem_cons,
        List.not_mem_nil,or_false,not_or] at hplain
      obtain ⟨hspace,hcomma,hpipe,hpercent,-,hopen,hclose⟩ := hplain
      exact ⟨hcomma,hpipe,hpercent,hopen,hclose,hspace⟩
    · exact absurd (hunits _ hcolon) (by decide)
  | ipv4 ip =>
    rw [haddress] at hreach
    dsimp only at hreach
    have hzero : ip≠0 := by
      rintro rfl
      revert hreach
      decide
    have hback := addr.fromString_ipv4 ip hzero
    rw [if_neg (by simp [Address.isNull])]
    refine ⟨⟨fun hnil => ?_,fun u hu => ?_,fun hcolon => ?_⟩,hback⟩
    · rw [hnil,addr.fromString_nil] at hback
      cases hback
    · exact plain_of_literal ((addr.ipv4_units ip u hu).imp_right fun hdot => Or.inr (Or.inl hdot))
    · rcases addr.ipv4_units ip _ hcolon with hdigit | hdot
      · exact absurd hdigit (by decide)
      · exact absurd hdot (by decide)
  | ipv6 ip =>
    rw [haddress] at hreach
    have hback := addr.fromString_ipv6 ip hreach
    rw [if_neg (by simp [Address.isNull])]
    refine ⟨⟨fun hnil => ?_,fun u hu => plain_of_literal (addr.ipv6_units ip u hu),fun _ => ?_⟩,
      hback⟩
    · rw [hnil,addr.fromString_nil] at hback
      cases hback
    · rw [hback]
      rfl

theorem linkSource_sourceToken (h : src.Sound r.addr)
    (hv6 : ipv6Only=true → src.address.isIPv6=true) :
    linkSource r ipv6Only (sourceToken r.addr src)=some (src.written r.addr) := by
  obtain ⟨hhost,hback⟩ := h.plainHost
  have hlow : (src.address.isIPv4 && isLowID src.address.toNetworkUint32)=false := by
    have hreach := h.reachable
    unfold ED2KLinkSource.Reachable at hreach
    cases haddress : src.address with
    | none => rfl
    | ipv4 ip =>
      rw [haddress] at hreach
      rw [hreach,Bool.and_false]
    | ipv6 ip => rfl
  have honly : (ipv6Only && !src.address.isIPv6)=false := by
    cases hv : ipv6Only with
    | false => rfl
    | true => rw [hv6 hv]; rfl
  unfold linkSource sourceToken
  rw [parseHostPort_formatHostPort hhost h.port]
  dsimp only
  rw [hback,honly,if_neg (by simp),hlow,if_neg (by simp)]
  rfl

theorem appendLinkSources_tokens {srcs : List ED2KLinkSource} {link : ED2KFileLink}
    (hsound : ∀ src∈srcs,src.Sound r.addr)
    (hv6 : ipv6Only=true → ∀ src∈srcs,src.address.isIPv6=true)
    (hcap : link.hostnameSources.length+srcs.length≤kMaxLinkSources) :
    appendLinkSources r ipv6Only (srcs.map (sourceToken r.addr)) link =
      { link with hostnameSources :=
          link.hostnameSources++srcs.map (ED2KLinkSource.written r.addr) } := by
  induction srcs generalizing link with
  | nil =>
    rw [List.map_nil,appendLinkSources,List.map_nil,List.append_nil]
  | cons src srcs ih =>
    obtain ⟨hsrc,hsrcs⟩ := List.forall_mem_cons.mp hsound
    rw [List.length_cons] at hcap
    rw [List.map_cons,appendLinkSources,if_neg (by omega),linkSource_sourceToken hsrc
      fun h => hv6 h src List.mem_cons_self]
    dsimp only
    rw [ih hsrcs (fun h src hmem => hv6 h src (List.mem_cons_of_mem _ hmem)) (by
      simp only [List.length_append,List.length_singleton]
      omega)]
    simp

theorem splitSkipEmpty_joined {sep : UInt16} {tokens : List QString} (hne : tokens≠[])
    (h : ∀ t∈tokens,t≠[] ∧ sep∉t) : splitSkipEmpty sep (joined sep tokens)=tokens := by
  rw [splitSkipEmpty,joined,List.splitOn_intercalate sep (fun t ht => (h t ht).2) hne,
    List.filter_eq_self]
  exact fun t ht => by simpa using (h t ht).1

theorem sourceToken_plain (h : src.Sound addr) :
    sourceToken addr src≠[] ∧ ∀ u∈sourceToken addr src,u≠comma ∧ u≠pipe ∧ u≠percent := by
  obtain ⟨hhost,-⟩ := h.plainHost
  refine ⟨fun hnil => ?_,fun u hu => formatHostPort_units hhost hu⟩
  have hparse := parseHostPort_formatHostPort hhost h.port 0
  unfold sourceToken at hnil
  rw [hnil] at hparse
  simp [parseHostPort,splitHostPort,trimmed,QString.trimmed] at hparse

end Sources

section Text

variable {addr : AddressText} {link : ED2KFileLink} {fmt : ED2KLinkFormat} {cs : List Char}
  {sources : List ED2KLinkSource}

/-- The parameters a source block adds. -/
def sourceParams (addr : AddressText) (sources : List ED2KLinkSource) : List QString :=
  let v6Tokens := (sources.filter (·.address.isIPv6)).map (sourceToken addr)
  let v4Tokens := (sources.filter (!·.address.isIPv6)).map (sourceToken addr)
  (if v6Tokens ≠ [] then [lit "s6=" ++ joined comma v6Tokens] else []) ++
    (if v4Tokens ≠ [] then [lit "sources," ++ joined comma v4Tokens] else []) ++
    (if v6Tokens ≠ [] ∨ v4Tokens ≠ [] then [[slash]] else [])

/-- What a link has between its bars, after `file`. -/
def linkParams (addr : AddressText) (link : ED2KFileLink) (fmt : ED2KLinkFormat) : List QString :=
  [urlEncode (stripInvalidFilenameChars link.name),number link.size.toNat,md4str link.hash] ++
    (if fmt.partHashes && decide (link.partHashes ≠ []) then
      [lit "p=" ++ joined colon (link.partHashes.map md4str)]
    else []) ++
    (if fmt.aichHash && link.hasValidAICHHash then [lit "h=" ++ encodeBase32 link.aichHash.bytes]
    else []) ++
    [[slash]] ++
    (if fmt.sources && decide (link.hostnameSources ≠ []) then
      sourceParams addr link.hostnameSources
    else [])

theorem arg_one {pre post : QString} (x : QString) (hpre : ∀ u∈pre,u≠percent)
    (hpost : ∀ u∈post,u≠percent) (hdigit : ∀ v,post.head? = some v → digit? v=none) :
    arg (pre++percent::0x31::post) x=pre++x++post :=
  arg_at (n := 1) (closed_of_units hpre) (by decide) (by decide) hdigit
    (by rw [markers_of_units hpre]; simp) (by rw [markers_of_units hpost]; simp)

theorem sourceBlock_eq (hsound : ∀ src∈sources,src.Sound addr) :
    sourceBlock addr sources=(sourceParams addr sources).flatMap (pipe :: ·) := by
  have hemitted : sources.filter (·.isEmitted)=sources := by
    refine List.filter_eq_self.mpr fun src hsrc => ?_
    have hport := (hsound src hsrc).port
    have hurl := (hsound src hsrc).url
    simp [ED2KLinkSource.isEmitted,hport,hurl]
  have hv6 : ∀ x,arg (lit "|s6=%1") x=pipe::(lit "s6=" ++ x) := by
    intro x
    have hlit : lit "|s6=%1" = lit "|s6=" ++ percent::0x31::[] := by decide
    rw [hlit,arg_one x (List.all_iff_forall_prop.mp (by decide)) (by simp) (by simp),
      List.append_nil]
    rfl
  have hv4 : ∀ x,arg (lit "|sources,%1") x=pipe::(lit "sources," ++ x) := by
    intro x
    have hlit : lit "|sources,%1" = lit "|sources," ++ percent::0x31::[] := by decide
    rw [hlit,arg_one x (List.all_iff_forall_prop.mp (by decide)) (by simp) (by simp),
      List.append_nil]
    rfl
  have hend : lit "|/" = [pipe,slash] := by decide
  unfold sourceBlock sourceParams
  dsimp only
  rw [hemitted,hend]
  generalize (sources.filter (·.address.isIPv6)).map (sourceToken addr)=v6Tokens
  generalize (sources.filter (!·.address.isIPv6)).map (sourceToken addr)=v4Tokens
  by_cases h6 : v6Tokens=[] <;> by_cases h4 : v4Tokens=[] <;> simp [h6,h4,hv6,hv4]

/-- The three substitutions of the first part of a link. -/
theorem arg_file (h : PlainName link.name cs) :
    arg (arg (arg (lit "ed2k://|file|%1|%2|%3|")
      (urlEncode (stripInvalidFilenameChars link.name))) (number link.size.toNat))
      (md4str link.hash) =
    lit "ed2k://|file" ++ ([urlEncode (stripInvalidFilenameChars link.name),
      number link.size.toNat,md4str link.hash].flatMap (pipe :: ·))++[pipe] := by
  have hhigh := h.markers_high
  have hclosed : Closed (urlEncode (stripInvalidFilenameChars link.name)) :=
    toPercentEncoding_closed _
  generalize urlEncode (stripInvalidFilenameChars link.name)=enc at hhigh hclosed ⊢
  have hsize : ∀ u∈number link.size.toNat,u≠percent := by
    rintro u hu rfl
    exact absurd (number_units hu) (by decide)
  generalize number link.size.toNat=size at hsize ⊢
  have hunits : ∀ u∈lit "ed2k://|file|", u≠percent :=
    List.all_iff_forall_prop.mp (by decide)
  have hpipe : ∀ u∈[pipe], u≠percent := List.all_iff_forall_prop.mp (by decide)
  have hlit : lit "ed2k://|file|%1|%2|%3|" =
      lit "ed2k://|file|" ++ percent::0x31::lit "|%2|%3|" := by decide
  have hpre : Closed (lit "ed2k://|file|" ++ enc++[pipe]) :=
    closed_append (closed_append (closed_of_units hunits) hclosed) (closed_of_units hpipe)
  have hmarkers : markers (lit "ed2k://|file|" ++ enc++[pipe])=markers enc := by
    rw [List.append_assoc,markers_append (closed_of_units hunits),markers_of_units hunits,
      markers_append hclosed,markers_of_units hpipe]
    simp
  have hpre' : Closed (lit "ed2k://|file|" ++ enc++[pipe]++(size++[pipe])) :=
    closed_append hpre (closed_append (closed_of_units hsize) (closed_of_units hpipe))
  have hmarkers' : markers (lit "ed2k://|file|" ++ enc++[pipe]++(size++[pipe])) =
      markers enc := by
    rw [markers_append hpre,hmarkers,markers_append (closed_of_units hsize),
      markers_of_units hsize,markers_of_units hpipe]
    simp
  have hfirst : arg (lit "ed2k://|file|%1|%2|%3|") enc =
      lit "ed2k://|file|" ++ enc++[pipe]++percent::0x32::lit "|%3|" := by
    rw [hlit,arg_at (n := 1) (closed_of_units hunits) (by decide) (by decide) (by rintro v ⟨⟩; decide)
      (by rw [markers_of_units hunits]; simp) (by decide)]
    simp [lit,pipe,percent]
  have hsecond : arg (lit "ed2k://|file|" ++ enc++[pipe]++percent::0x32::lit "|%3|") size =
      lit "ed2k://|file|" ++ enc++[pipe]++(size++[pipe])++percent::0x33::[pipe] := by
    rw [arg_at (n := 2) hpre (by decide) (by decide) (by rintro v ⟨⟩; decide)
      (fun m hm => by have := hhigh m (hmarkers ▸ hm); omega) (by decide)]
    simp [lit,pipe,percent]
  rw [hfirst,hsecond,arg_at (n := 3) hpre' (by decide) (by decide) (by rintro v ⟨⟩; decide)
    (fun m hm => hhigh m (hmarkers' ▸ hm)) (by decide)]
  simp [lit,pipe]

theorem toLink_eq (hhtml : fmt.html=false) (hname : PlainName link.name cs)
    (hsound : ∀ src∈link.hostnameSources,src.Sound addr) :
    link.toLink addr fmt=lit "ed2k://|file" ++ (linkParams addr link fmt).flatMap (pipe :: ·) := by
  have haich : ∀ x,arg (lit "h=%1|") x=lit "h=" ++ x++[pipe] := by
    intro x
    have hlit : lit "h=%1|" = lit "h=" ++ percent::0x31::[pipe] := by decide
    rw [hlit,arg_one x (List.all_iff_forall_prop.mp (by decide))
      (List.all_iff_forall_prop.mp (by decide)) (by rintro v ⟨⟩; decide)]
  unfold ED2KFileLink.toLink linkParams
  rw [arg_file hname,sourceBlock_eq hsound,haich,hhtml]
  have hmd4 : (link.partHashes.map fun h => encodeBase16 h.bytes)=link.partHashes.map md4str := rfl
  rw [hmd4,if_neg Bool.false_ne_true,if_neg Bool.false_ne_true]
  split_ifs <;> simp

/-- What a parameter is made of: it has no bar, and a slash in it stands before no escape. -/
structure PlainParam (p : QString) : Prop where
  pipe : pipe∉p
  escape : slash∉p ∨ percent∉p

theorem plainParam_append {pre p : QString} (hpre : ∀ u∈pre,u≠pipe ∧ u≠percent)
    (h : ∀ u∈p,u≠pipe ∧ u≠percent) : PlainParam (pre++p) := by
  refine ⟨fun hmem => ?_,Or.inr fun hmem => ?_⟩
  · exact (List.mem_append.mp hmem).elim (fun hu => (hpre _ hu).1 rfl) fun hu => (h _ hu).1 rfl
  · exact (List.mem_append.mp hmem).elim (fun hu => (hpre _ hu).2 rfl) fun hu => (h _ hu).2 rfl

theorem plainParam_of_units {p : QString} (h : ∀ u∈p,u≠pipe ∧ u≠percent) : PlainParam p :=
  ⟨fun hmem => (h _ hmem).1 rfl,Or.inr fun hmem => (h _ hmem).2 rfl⟩

theorem mem_joined {sep u : UInt16} {tokens : List QString} (h : u∈joined sep tokens) :
    u=sep ∨ ∃ t∈tokens, u∈t := by
  induction tokens with
  | nil => cases h
  | cons t tokens ih =>
    cases tokens with
    | nil => exact Or.inr ⟨t,List.mem_cons_self,by simpa [joined] using h⟩
    | cons t' tokens =>
      rw [joined,List.intercalate_cons_cons,List.append_assoc,List.mem_append] at h
      rcases h with hu | hu
      · exact Or.inr ⟨t,List.mem_cons_self,hu⟩
      · rcases List.mem_append.mp hu with hsep | hrest
        · exact Or.inl (List.mem_singleton.mp hsep)
        · rcases ih hrest with hsep | ⟨s,hs,hu⟩
          · exact Or.inl hsep
          · exact Or.inr ⟨s,List.mem_cons_of_mem t hs,hu⟩

theorem ne_of_capital {u : UInt16} (h : (0x30≤u.toNat ∧ u.toNat≤0x39) ∨
    (0x41≤u.toNat ∧ u.toNat≤0x5A)) : u≠pipe ∧ u≠percent ∧ u≠colon := by
  refine ⟨?_,?_,?_⟩ <;>
  · rintro rfl
    revert h
    decide

theorem plainParam_tokens {pre : QString} (hpre : ∀ u∈pre,u≠pipe ∧ u≠percent)
    (hsound : ∀ src∈sources,src.Sound addr) :
    PlainParam (pre++joined comma (sources.map (sourceToken addr))) := by
  refine plainParam_append hpre fun u hu => ?_
  rcases mem_joined hu with rfl | ⟨t,ht,hu⟩
  · decide
  · obtain ⟨src,hsrc,rfl⟩ := List.mem_map.mp ht
    exact ((sourceToken_plain (hsound src hsrc)).2 u hu).2

theorem linkParams_plain (hsound : ∀ src∈link.hostnameSources,src.Sound addr) :
    ∀ p∈linkParams addr link fmt, PlainParam p := by
  have hname : PlainParam (urlEncode (stripInvalidFilenameChars link.name)) := by
    refine ⟨fun hmem => ?_,Or.inl fun hmem => ?_⟩
    · exact absurd (toPercentEncoding_units hmem) (by decide)
    · exact absurd (toPercentEncoding_units hmem) (by decide)
  have hsize : PlainParam (number link.size.toNat) :=
    plainParam_of_units fun u hu =>
      have hrange := ne_of_capital (Or.inl (number_units hu))
      ⟨hrange.1,hrange.2.1⟩
  have hhash : ∀ h : MD4Hash, ∀ u∈md4str h,u≠pipe ∧ u≠percent := fun h u hu =>
    have hrange := ne_of_capital (encodeBase16_units hu)
    ⟨hrange.1,hrange.2.1⟩
  have hslash : PlainParam [slash] := ⟨by decide,Or.inr (by decide)⟩
  intro p hp
  simp only [linkParams,List.mem_append,List.mem_cons,List.not_mem_nil,or_false] at hp
  rcases hp with (((hp | hp) | hp) | rfl) | hp
  · rcases hp with rfl | rfl | rfl
    · exact hname
    · exact hsize
    · exact plainParam_of_units (hhash _)
  · split_ifs at hp
    · rw [List.mem_singleton.mp hp]
      refine plainParam_append (List.all_iff_forall_prop.mp (by decide)) fun u hu => ?_
      rcases mem_joined hu with rfl | ⟨t,ht,hu⟩
      · decide
      · obtain ⟨h,-,rfl⟩ := List.mem_map.mp ht
        exact hhash h u hu
    · cases hp
  · split_ifs at hp
    · rw [List.mem_singleton.mp hp]
      refine plainParam_append (List.all_iff_forall_prop.mp (by decide)) fun u hu => ?_
      have hrange := ne_of_capital (encodeBase32_units hu)
      exact ⟨hrange.1,hrange.2.1⟩
    · cases hp
  · exact hslash
  · split_ifs at hp
    · have hmem : ∀ q : ED2KLinkSource → Bool, ∀ src∈link.hostnameSources.filter q,
          src.Sound addr := fun q src hsrc => hsound src (List.mem_of_mem_filter hsrc)
      simp only [sourceParams,List.mem_append] at hp
      rcases hp with (hp | hp) | hp
      · split_ifs at hp
        · rw [List.mem_singleton.mp hp]
          exact plainParam_tokens (List.all_iff_forall_prop.mp (by decide)) (hmem _)
        · cases hp
      · split_ifs at hp
        · rw [List.mem_singleton.mp hp]
          exact plainParam_tokens (List.all_iff_forall_prop.mp (by decide)) (hmem _)
        · cases hp
      · split_ifs at hp
        · exact List.mem_singleton.mp hp ▸ hslash
        · cases hp
    · cases hp

variable {params : List QString}

theorem splitOn_params {f : QString} (hf : pipe∉f) (h : ∀ p∈params,PlainParam p) :
    (f++params.flatMap (pipe :: ·)).splitOn pipe=f::params := by
  induction params generalizing f with
  | nil => rw [List.flatMap_nil,List.append_nil,List.splitOn_eq_singleton hf]
  | cons p params ih =>
    obtain ⟨hp,hparams⟩ := List.forall_mem_cons.mp h
    rw [List.flatMap_cons,List.cons_append,List.splitOn_append_cons_self_of_not_mem hf,
      ih hp.pipe hparams]

/-- No escape follows a slash. -/
def NoEscapeAfterSlash (s : QString) : Prop := s.IsChain fun a b => a=slash → b≠percent

theorem noEscapeAfterSlash_of_units {s : QString} (h : slash∉s ∨ percent∉s) :
    NoEscapeAfterSlash s := by
  refine List.isChain_iff_forall_rel_of_append_cons_cons.mpr fun a b pre post hs ha hb => ?_
  subst hs ha hb
  rcases h with h | h <;> exact h (by simp)

theorem noEscapeAfterSlash_params (h : ∀ p∈params,PlainParam p) :
    NoEscapeAfterSlash (params.flatMap (pipe :: ·)) := by
  induction params with
  | nil => exact List.isChain_nil
  | cons p params ih =>
    obtain ⟨hp,hparams⟩ := List.forall_mem_cons.mp h
    refine List.isChain_append.mpr ⟨List.isChain_cons.mpr ⟨fun y _ hpipe => ?_,
      noEscapeAfterSlash_of_units hp.escape⟩,ih hparams,fun x _ y hy _ => ?_⟩
    · exact absurd hpipe (by decide)
    · cases params with
      | nil => cases hy
      | cons q params =>
        obtain rfl := Option.some.inj hy
        decide

theorem foldCase_eq {u v : UInt16} (hv : v=slash ∨ v=percent) (h : foldCase u=v) : u=v := by
  unfold foldCase at h
  split_ifs at h with hupper hkelvin hlong
  · have hvalue := congrArg UInt16.toNat h
    rw [UInt16.toNat_add] at hvalue
    have hcase : (0x20 : UInt16).toNat=0x20 := rfl
    rw [hcase] at hvalue
    rcases hv with rfl | rfl
    · have hslash : slash.toNat=0x2F := rfl
      omega
    · have hpercent : percent.toNat=0x25 := rfl
      omega
  · rcases hv with rfl | rfl <;> exact absurd h (by decide)
  · rcases hv with rfl | rfl <;> exact absurd h (by decide)
  · exact h

theorem normalizeEd2kLink_eq {s : QString} (h : NoEscapeAfterSlash s) :
    normalizeEd2kLink s=s := by
  have hmap : NoEscapeAfterSlash (s.map foldCase) :=
    List.isChain_map_of_isChain foldCase (fun a b hab hslash hpercent =>
      hab (foldCase_eq (Or.inl rfl) hslash) (foldCase_eq (Or.inr rfl) hpercent)) h
  have hno : containsFold s (lit "ed2k://%7c")=false := by
    refine decide_eq_false fun hinfix => ?_
    have hpattern : [slash,percent] <:+: lit "ed2k://%7c" := by decide
    have hchain := hmap.infix (hpattern.trans hinfix)
    exact (List.isChain_pair.mp hchain) rfl rfl
  rw [normalizeEd2kLink,hno,if_neg Bool.false_ne_true]

theorem sourceParams_last (addr : AddressText) (sources : List ED2KLinkSource) :
    sourceParams addr sources=[] ∨ ∃ params, sourceParams addr sources=params++[[slash]] := by
  unfold sourceParams
  dsimp only
  generalize (sources.filter (·.address.isIPv6)).map (sourceToken addr)=v6Tokens
  generalize (sources.filter (!·.address.isIPv6)).map (sourceToken addr)=v4Tokens
  by_cases hnone : v6Tokens≠[] ∨ v4Tokens≠[]
  · rw [if_pos hnone]
    exact Or.inr ⟨_,rfl⟩
  · rw [not_or,not_not,not_not] at hnone
    obtain ⟨rfl,rfl⟩ := hnone
    exact Or.inl rfl

theorem linkParams_last (addr : AddressText) (link : ED2KFileLink) (fmt : ED2KLinkFormat) :
    ∃ params, linkParams addr link fmt=params++[[slash]] := by
  unfold linkParams
  by_cases hsources : (fmt.sources && decide (link.hostnameSources≠[]))=true
  · rw [if_pos hsources]
    rcases sourceParams_last addr link.hostnameSources with hnil | ⟨params,hparams⟩
    · rw [hnil,List.append_nil]
      exact ⟨_,rfl⟩
    · rw [hparams,← List.append_assoc]
      exact ⟨_,rfl⟩
  · rw [if_neg hsources,List.append_nil]
    exact ⟨_,rfl⟩

theorem trimmed_link (h : ∃ ps, params=ps++[[slash]]) :
    trimmed (lit "ed2k://|file" ++ params.flatMap (pipe :: ·)) =
      lit "ed2k://|file" ++ params.flatMap (pipe :: ·) := by
  obtain ⟨ps,rfl⟩ := h
  refine trimmed_eq (fun v hv => ?_) (fun v hv => ?_)
  · obtain rfl := Option.some.inj hv
    decide
  · have hsplit : lit "ed2k://|file" ++ (ps++[[slash]]).flatMap (pipe :: ·) =
        (lit "ed2k://|file" ++ ps.flatMap (pipe :: ·)++[pipe])++[slash] := by simp
    rw [hsplit,List.getLast?_append_of_ne_nil _ (by simp)] at hv
    obtain rfl := Option.some.inj hv
    decide

end Text

section Parse

variable {r : LinkReader} {link : ED2KFileLink} {fmt : ED2KLinkFormat} {cs : List Char}
  {sources : List ED2KLinkSource}

theorem startsWithFold_append {pre : QString} (hpre : pre.map foldCase=pre) (s : QString) :
    startsWithFold (pre++s) pre=true := by
  rw [startsWithFold,List.map_append,hpre,List.isPrefixOf_iff_prefix]
  exact List.prefix_append pre _

theorem parseFileParam_slash (link : ED2KFileLink) : parseFileParam r link [slash]=link := by
  rw [parseFileParam,if_pos (Or.inr rfl)]

theorem parseFileParam_partHashes (link : ED2KFileLink) (s : QString) :
    parseFileParam r link (lit "p=" ++ s)=appendPartHashes link s := by
  rfl

theorem parseFileParam_aich (link : ED2KFileLink) (s : QString) :
    parseFileParam r link (lit "h=" ++ s)=appendAICHHash link s := by
  have hne : ¬ (lit "h=" ++ s=[] ∨ lit "h=" ++ s=[slash]) := by
    simp [lit]
  have hp : startsWithFold (lit "h=" ++ s) (lit "p=")=false := rfl
  rw [parseFileParam,if_neg hne,hp,if_neg Bool.false_ne_true,
    if_pos (startsWithFold_append (by decide) s)]
  rfl

theorem parseFileParam_v6 (link : ED2KFileLink) (s : QString) :
    parseFileParam r link (lit "s6=" ++ s) =
      appendLinkSources r true (splitSkipEmpty comma s) link := by
  have hne : ¬ (lit "s6=" ++ s=[] ∨ lit "s6=" ++ s=[slash]) := by
    simp [lit]
  have hp : startsWithFold (lit "s6=" ++ s) (lit "p=")=false := rfl
  have hh : startsWithFold (lit "s6=" ++ s) (lit "h=")=false := rfl
  have hs : startsWithFold (lit "s6=" ++ s) (lit "s=")=false := rfl
  rw [parseFileParam,if_neg hne,hp,if_neg Bool.false_ne_true,hh,if_neg Bool.false_ne_true,hs,
    if_neg Bool.false_ne_true,if_pos (startsWithFold_append (by decide) s)]
  rfl

theorem parseFileParam_v4 (link : ED2KFileLink) (s : QString) :
    parseFileParam r link (lit "sources," ++ s) =
      appendLinkSources r false (splitSkipEmpty comma s) link := by
  have hne : ¬ (lit "sources," ++ s=[] ∨ lit "sources," ++ s=[slash]) := by
    simp [lit]
  have hp : startsWithFold (lit "sources," ++ s) (lit "p=")=false := rfl
  have hh : startsWithFold (lit "sources," ++ s) (lit "h=")=false := rfl
  have hs : startsWithFold (lit "sources," ++ s) (lit "s=")=false := rfl
  have hs6 : startsWithFold (lit "sources," ++ s) (lit "s6=")=false := rfl
  have hsources : startsWithFold (lit "sources," ++ s) (lit "sources")=true :=
    @startsWithFold_append (lit "sources") (by decide) (comma::s)
  have hindex : (lit "sources," ++ s).idxOf comma=(lit "sources").length :=
    @idxOf_append_self _ (lit "sources") (by decide) s
  have htake : (lit "sources," ++ s).take (lit "sources").length=lit "sources" :=
    @List.take_left' _ (lit "sources") (comma::s) _ rfl
  have hdrop : (lit "sources," ++ s).drop ((lit "sources").length+1)=s := rfl
  have hdated : sourcesBlockExpired r (lit "sources")=false := rfl
  rw [parseFileParam,if_neg hne,hp,if_neg Bool.false_ne_true,hh,if_neg Bool.false_ne_true,hs,
    if_neg Bool.false_ne_true,hs6,if_neg Bool.false_ne_true,if_pos hsources,hindex,htake,hdrop,
    hdated,if_pos ⟨List.mem_append_left s (by decide),rfl⟩]

theorem foldl_tokens {pre : QString} {ipv6Only : Bool} {srcs : List ED2KLinkSource}
    (hparam : ∀ link s,parseFileParam r link (pre++s) =
      appendLinkSources r ipv6Only (splitSkipEmpty comma s) link)
    (hsound : ∀ src∈srcs,src.Sound r.addr)
    (hv6 : ipv6Only=true → ∀ src∈srcs,src.address.isIPv6=true)
    (hcap : link.hostnameSources.length+srcs.length≤kMaxLinkSources) :
    (if srcs.map (sourceToken r.addr)≠[] then
        [pre++joined comma (srcs.map (sourceToken r.addr))]
      else []).foldl (parseFileParam r) link =
    { link with hostnameSources :=
        link.hostnameSources++srcs.map (ED2KLinkSource.written r.addr) } := by
  by_cases hne : srcs.map (sourceToken r.addr)≠[]
  · have htokens : ∀ t∈srcs.map (sourceToken r.addr), t≠[] ∧ comma∉t := by
      intro t ht
      obtain ⟨src,hsrc,rfl⟩ := List.mem_map.mp ht
      obtain ⟨htoken,hunits⟩ := sourceToken_plain (hsound src hsrc)
      exact ⟨htoken,fun hcomma => (hunits _ hcomma).1 rfl⟩
    rw [if_pos hne,List.foldl_cons,List.foldl_nil,hparam,splitSkipEmpty_joined hne htokens,
      appendLinkSources_tokens hsound hv6 hcap]
  · rw [if_neg hne]
    have hnil : srcs=[] := by simpa using hne
    rw [hnil,List.map_nil,List.append_nil]
    rfl

theorem foldl_sourceParams (hsound : ∀ src∈sources,src.Sound r.addr)
    (hcap : link.hostnameSources.length+sources.length≤kMaxLinkSources) :
    (sourceParams r.addr sources).foldl (parseFileParam r) link =
      { link with
        hostnameSources := link.hostnameSources++List.map (ED2KLinkSource.written r.addr)
          (sources.filter (·.address.isIPv6)++sources.filter (!·.address.isIPv6)) } := by
  have hlength := (List.filter_append_perm (·.address.isIPv6) sources).length_eq
  rw [List.length_append] at hlength
  have hmem : ∀ q : ED2KLinkSource → Bool, ∀ src∈sources.filter q,src.Sound r.addr :=
    fun q src hsrc => hsound src (List.mem_of_mem_filter hsrc)
  have hend : ∀ (b : Prop) [Decidable b] (link : ED2KFileLink),
      (if b then [[slash]] else []).foldl (parseFileParam r) link=link := by
    intro b _ link
    split_ifs
    · exact parseFileParam_slash (r := r) link
    · rfl
  unfold sourceParams
  rw [List.foldl_append,List.foldl_append,
    foldl_tokens parseFileParam_v6 (hmem _) (fun _ src hsrc => (List.mem_filter.mp hsrc).2)
      (by omega),
    foldl_tokens parseFileParam_v4 (hmem _) (by simp) (by
      rw [List.length_append,List.length_map]
      omega),
    hend,List.map_append,List.append_assoc]

theorem strmd4_md4str_map (hashes : List MD4Hash) :
    (hashes.map md4str).filterMap strmd4=hashes := by
  rw [List.filterMap_map]
  conv_rhs => rw [← List.filterMap_some (l := hashes)]
  exact List.filterMap_congr fun h _ => strmd4_md4str h

theorem appendPartHashes_joined {hashes : List MD4Hash} (hne : hashes≠[]) :
    ∃ hashset, appendPartHashes link (joined colon (hashes.map md4str)) =
      { link with partHashes := hashes, hashset } := by
  have htokens : ∀ t∈hashes.map md4str,t≠[] ∧ colon∉t := by
    intro t ht
    obtain ⟨h,-,rfl⟩ := List.mem_map.mp ht
    refine ⟨fun hnil => ?_,fun hcolon => (ne_of_capital (encodeBase16_units hcolon)).2.2 rfl⟩
    have hlength := md4str_length h
    rw [hnil] at hlength
    cases hlength
  unfold appendPartHashes
  rw [splitSkipEmpty_joined (by simpa using hne) htokens,strmd4_md4str_map]
  exact ⟨_,rfl⟩

theorem appendAICHHash_encoded (hash : AICHHash) :
    appendAICHHash link (encodeBase32 hash.bytes) =
      { link with aichHash := hash, hasValidAICHHash := true } := by
  unfold appendAICHHash
  rw [decodeBase32_encodeBase32]
  dsimp only
  rw [dif_pos hash.size]

end Parse

/-- The link, parsed without the parameters after the hash. -/
def ED2KFileLink.bare (link : ED2KFileLink) : ED2KFileLink :=
  { ED2KFileLink.blank with
    name := stripInvalidFilenameChars link.name, size := link.size, hash := link.hash }

section Assemble

variable {r : LinkReader} {link : ED2KFileLink} {fmt : ED2KLinkFormat} {cs : List Char}

theorem parseED2KLink_text {params : List QString}
    (hplain : ∀ p∈params,PlainParam p) (hlast : ∃ ps, params=ps++[[slash]]) :
    parseED2KLink r (lit "ed2k://|file" ++ params.flatMap (pipe :: ·)) =
      (parseFileLink r (lit "file" :: params)).map .file := by
  have hescape : NoEscapeAfterSlash (lit "ed2k://|file" ++ params.flatMap (pipe :: ·)) := by
    refine List.isChain_append.mpr ⟨noEscapeAfterSlash_of_units (by decide),
      noEscapeAfterSlash_params hplain,fun x hx y _ hslash => ?_⟩
    obtain rfl := Option.some.inj hx
    exact absurd hslash (by decide)
  have hne : lit "ed2k://|file" ++ params.flatMap (pipe :: ·)≠[] := by simp [lit]
  have hmagnet : startsWithFold (lit "ed2k://|file" ++ params.flatMap (pipe :: ·))
      (lit "magnet:")=false := rfl
  have hed2k : startsWithFold (lit "ed2k://|file" ++ params.flatMap (pipe :: ·))
      (lit "ed2k://|")=true := by
    have hsplit : lit "ed2k://|file" ++ params.flatMap (pipe :: ·) =
        lit "ed2k://|" ++ (lit "file" ++ params.flatMap (pipe :: ·)) := by
      rw [← List.append_assoc]
      rfl
    rw [hsplit]
    exact startsWithFold_append (by decide) _
  have hbody : (lit "ed2k://|file" ++ params.flatMap (pipe :: ·)).drop 8 =
      lit "file" ++ params.flatMap (pipe :: ·) := rfl
  have htype : toLower ((lit "file" :: params).headD [])=lit "file" := by
    rw [List.headD_cons]
    decide
  unfold parseED2KLink
  rw [if_neg hne,trimmed_link hlast,normalizeEd2kLink_eq hescape]
  dsimp only
  rw [hmagnet,if_neg Bool.false_ne_true,hed2k,if_neg (by simp),hbody,
    splitOn_params (by decide) hplain,htype,if_pos rfl]

theorem parseFileLink_params {params : List QString} (hname : PlainName link.name cs)
    (hpositive : 0<link.size) (hsize : link.size.toNat≤MAX_EMULE_FILE_SIZE) :
    parseFileLink r (lit "file" :: urlEncode (stripInvalidFilenameChars link.name) ::
      number link.size.toNat::md4str link.hash::params) =
    some (params.foldl (parseFileParam r) link.bare) := by
  have hvalid : isValidLinkFileSize link.size.toNat=true :=
    decide_eq_true ⟨UInt64.lt_iff_toNat_lt.mp hpositive,hsize⟩
  unfold parseFileLink
  dsimp only
  rw [hname.decoded,if_neg hname.stripped_ne_nil,toULongLong_number link.size.toNat_lt,
    strmd4_md4str]
  dsimp only
  rw [if_pos hvalid,UInt64.ofNat_toNat]
  rfl

theorem foldl_partHashes {flag : Bool} (hashes : List MD4Hash) (hnone : link.partHashes=[]) :
    ∃ hashset, (if flag && decide (hashes≠[]) then [lit "p=" ++ joined colon (hashes.map md4str)]
        else []).foldl (parseFileParam r) link =
      { link with partHashes := if flag then hashes else [], hashset } := by
  cases flag with
  | false =>
    rw [Bool.false_and,if_neg Bool.false_ne_true,if_neg Bool.false_ne_true]
    exact ⟨link.hashset,by rw [← hnone]; rfl⟩
  | true =>
    rw [Bool.true_and,if_pos rfl]
    by_cases hne : hashes≠[]
    · obtain ⟨hashset,hset⟩ := @appendPartHashes_joined link hashes hne
      rw [if_pos (decide_eq_true hne),List.foldl_cons,List.foldl_nil,parseFileParam_partHashes,
        hset]
      exact ⟨hashset,rfl⟩
    · rw [if_neg (by simpa using hne)]
      rw [not_not] at hne
      exact ⟨link.hashset,by rw [hne,← hnone]; rfl⟩

theorem foldl_aich {flag : Prop} [Decidable flag] (hash : AICHHash) :
    (if flag then [lit "h=" ++ encodeBase32 hash.bytes] else []).foldl (parseFileParam r) link =
      if flag then { link with aichHash := hash, hasValidAICHHash := true } else link := by
  split_ifs
  · rw [List.foldl_cons,List.foldl_nil,parseFileParam_aich,appendAICHHash_encoded]
  · rfl

theorem foldl_sources {flag : Bool} {sources : List ED2KLinkSource}
    (hsound : ∀ src∈sources,src.Sound r.addr) (hnone : link.hostnameSources=[])
    (hcap : sources.length≤kMaxLinkSources) :
    ∃ srcs, (if flag && decide (sources≠[]) then sourceParams r.addr sources else []).foldl
        (parseFileParam r) link = { link with hostnameSources := srcs } ∧
      srcs.Perm (if flag then sources.map (ED2KLinkSource.written r.addr) else []) := by
  have hkeep : link = { link with hostnameSources := [] } := by rw [← hnone]
  cases flag with
  | false =>
    exact ⟨[],hkeep,List.Perm.refl _⟩
  | true =>
    rw [Bool.true_and,if_pos rfl]
    by_cases hne : sources≠[]
    · rw [if_pos (decide_eq_true hne),foldl_sourceParams hsound (by
        rw [hnone,List.length_nil]
        omega),hnone,List.nil_append]
      exact ⟨_,rfl,(List.filter_append_perm _ sources).map _⟩
    · rw [if_neg (by simpa using hne)]
      rw [not_not] at hne
      exact ⟨[],hkeep,by rw [hne]; exact List.Perm.refl _⟩

end Assemble

/-- What a link with a plain name and sound sources comes back as. -/
theorem parseED2KLink_toLink (r : LinkReader) (link : ED2KFileLink) (fmt : ED2KLinkFormat)
    (cs : List Char) (hhtml : fmt.html = false) (hname : PlainName link.name cs)
    (hpositive : 0 < link.size) (hsize : link.size.toNat ≤ MAX_EMULE_FILE_SIZE)
    (hsound : ∀ src ∈ link.hostnameSources, src.Sound r.addr)
    (hcap : link.hostnameSources.length ≤ kMaxLinkSources) :
    ∃ link', parseED2KLink r (link.toLink r.addr fmt) = some (.file link') ∧
      link'.name = stripInvalidFilenameChars link.name ∧ link'.size = link.size ∧
      link'.hash = link.hash ∧
      link'.partHashes = (if fmt.partHashes then link.partHashes else []) ∧
      link'.hasValidAICHHash = (fmt.aichHash && link.hasValidAICHHash) ∧
      (link'.hasValidAICHHash = true → link'.aichHash = link.aichHash) ∧
      link'.hostnameSources.Perm
        (if fmt.sources then link.hostnameSources.map (ED2KLinkSource.written r.addr) else []) := by
  obtain ⟨hashset,hparts⟩ := @foldl_partHashes r link.bare fmt.partHashes link.partHashes rfl
  generalize hlink₁ : { link.bare with
    partHashes := if fmt.partHashes then link.partHashes else [], hashset } = link₁ at hparts
  have haich := @foldl_aich r link₁ ((fmt.aichHash && link.hasValidAICHHash)=true) _ link.aichHash
  generalize hlink₂ : (if (fmt.aichHash && link.hasValidAICHHash)=true then
    { link₁ with aichHash := link.aichHash, hasValidAICHHash := true } else link₁)=link₂ at haich
  have hnone : link₂.hostnameSources=[] := by
    rw [← hlink₂,← hlink₁]
    split_ifs <;> rfl
  obtain ⟨srcs,hsources,hperm⟩ := @foldl_sources r link₂ fmt.sources _ hsound hnone hcap
  refine ⟨{ link₂ with hostnameSources := srcs },?_,?_⟩
  · rw [toLink_eq hhtml hname hsound,
      parseED2KLink_text (linkParams_plain hsound) (linkParams_last r.addr link fmt)]
    unfold linkParams
    rw [List.append_assoc,List.append_assoc,List.append_assoc,List.cons_append,List.cons_append,
      List.cons_append,List.nil_append,parseFileLink_params hname hpositive hsize,
      List.foldl_append,List.foldl_append,List.foldl_append,hparts,haich,List.foldl_cons,
      List.foldl_nil,parseFileParam_slash,hsources]
    rfl
  · subst hlink₁ hlink₂
    dsimp only
    cases hflag : fmt.aichHash && link.hasValidAICHHash with
    | false => exact ⟨rfl,rfl,rfl,rfl,rfl,fun h => (Bool.false_ne_true h).elim,hperm⟩
    | true => exact ⟨rfl,rfl,rfl,rfl,rfl,fun _ => rfl,hperm⟩

section Samples

/-- Addresses in full, and links of no other kind. -/
def sampleReader : LinkReader :=
  ⟨fullAddressText,fun _ => none,fun _ => true,fun _ => none,fun _ => none,fun _ => none⟩

def sampleLink (name : QString) (size : UInt64) (sources : List ED2KLinkSource) : ED2KFileLink :=
  { ED2KFileLink.blank with name, size, hostnameSources := sources }

def withSources : ED2KLinkFormat := ⟨true,true,true,false⟩

/-- `::ffff:1.2.3.4`. -/
def mappedAddress : Address :=
  .ipv6 ⟨[0,0,0,0,0,0,0,0,0,0,0xFF,0xFF,1,2,3,4],rfl⟩

/-- An empty file, a source whose address ends with zero or is IPv4 in IPv6, a name with a byte
order mark in front, and a name whose comma is taken for a marker. -/
theorem not_toLink_roundTrip :
    parseED2KLink sampleReader
        ((sampleLink (lit "a") 0 []).toLink fullAddressText withSources) = none ∧
      parseED2KLink sampleReader
          ((sampleLink (lit "a") 1 [⟨[], 4662, .ipv4 0x01020300, []⟩]).toLink fullAddressText
            withSources) = some (.file (sampleLink (lit "a") 1 [])) ∧
      parseED2KLink sampleReader
          ((sampleLink (lit "a") 1 [⟨[], 4662, mappedAddress, []⟩]).toLink fullAddressText
            withSources) = some (.file (sampleLink (lit "a") 1 [])) ∧
      parseED2KLink sampleReader
          ((sampleLink [0xFEFF, 0x61] 1 []).toLink fullAddressText withSources) =
        some (.file (sampleLink (lit "a") 1 [])) ∧
      parseED2KLink sampleReader
          ((sampleLink (lit "a,b") 12 []).toLink fullAddressText withSources) =
        some (.file (sampleLink (lit "a12Cb") 12 [])) := by
  decide +kernel

/-- An IPv4 source, a host name and an IPv6 source. -/
def sampleSources : List ED2KLinkSource :=
  [⟨[],4662,.ipv4 0x01020304,[]⟩,⟨lit "example.org",80,.none,[]⟩,
    ⟨[],4663,.ipv6 ⟨[0x20,0x01,0x1D,0xB8,0x11,0x22,0x33,0x44,0x55,0x66,0x77,0x88,0x99,
      0xAA,0xBB,0xCC],rfl⟩,[]⟩]

theorem sampleSources_sound : ∀ src∈sampleSources,src.Sound fullAddressText := by
  intro src hsrc
  simp only [sampleSources,List.mem_cons,List.not_mem_nil,or_false] at hsrc
  rcases hsrc with rfl | rfl | rfl
  · exact ⟨by decide,rfl,show isLowID _ = false by decide⟩
  · exact ⟨by decide,rfl,show _ ∧ _ ∧ _ from
      ⟨by decide,List.all_iff_forall_prop.mp (by decide),by decide +kernel⟩⟩
  · exact ⟨by decide,rfl,show IPv6Bytes.isMapped _ = false by decide⟩

/-- A link with all there is. -/
theorem parseED2KLink_toLink_sample :
    ∃ link', parseED2KLink sampleReader (ED2KFileLink.toLink fullAddressText
        { sampleLink (lit "A: b (1).iso") 5000 sampleSources with
          partHashes := [Digest.zero 16], hasValidAICHHash := true } withSources) =
        some (.file link') ∧
      link'.name = lit "A_ b (1).iso" ∧ link'.partHashes = [Digest.zero 16] ∧
      link'.hasValidAICHHash = true ∧
      link'.hostnameSources.Perm
        (sampleSources.map (ED2KLinkSource.written fullAddressText)) := by
  obtain ⟨link',hparse,hname,-,-,hhashes,haich,-,hsources⟩ :=
    parseED2KLink_toLink sampleReader
      { sampleLink (lit "A: b (1).iso") 5000 sampleSources with
        partHashes := [Digest.zero 16], hasValidAICHHash := true } withSources
      "A: b (1).iso".toList rfl
      ⟨by decide,by decide,by decide,List.all_iff_forall_prop.mp (by decide)⟩ (by decide)
      (by decide) sampleSources_sound (by decide)
  have hstrip : stripInvalidFilenameChars (lit "A: b (1).iso")=lit "A_ b (1).iso" := by decide
  exact ⟨link',hparse,hname.trans hstrip,hhashes,haich,hsources⟩

end Samples

end EmuleQt.Protocol
