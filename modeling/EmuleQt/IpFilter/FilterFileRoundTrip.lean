import EmuleQt.IpFilter.FilterFile
import EmuleQt.IpFilter.MergedTable

namespace EmuleQt.IpFilter

open Net Utils Utils.QString RangeKey

theorem dash_eq : dash=[0x20,0x2D,0x20] := by decide

theorem lit_comma : lit " , " = [0x20,comma,0x20] := by decide

section Scan

variable {blanks rest : QString} {n : Nat}

theorem dropWhile_blanks (hblanks : ∀ u∈blanks,isBlank u=true)
    (hrest : ∀ u∈rest.head?,isBlank u=false) : (blanks++rest).dropWhile isBlank=rest := by
  rw [List.dropWhile_append_of_pos hblanks]
  cases rest with
  | nil => rfl
  | cons u rest => rw [List.dropWhile_cons_of_neg (by simp [hrest u rfl])]

theorem isBlank_number {u : UInt16} (h : u∈number n) : isBlank u=false := by
  have hu := number_units h
  rw [isBlank,decide_eq_false_iff_not,← UInt16.toNat_inj]
  simp
  omega

theorem digitsOf_number (hrest : ∀ u∈rest.head?,digit? u=none) (k : Nat) :
    ofDigits (digitsOf (number n++rest.take k))=n ∧
      (digitsOf (number n++rest.take k)).length=(number n).length := by
  obtain ⟨ds,-,hsmall,hnumber,hvalue⟩ := number_digits n
  have hdigit : ∀ u∈number n,(digit? u).isSome=true := fun u hu => by
    obtain ⟨d,hd⟩ := number_digit hu
    rw [hd]
    rfl
  have htake : (number n++rest.take k).takeWhile (fun u => (digit? u).isSome)=number n := by
    rw [List.takeWhile_append_of_pos hdigit]
    cases rest with
    | nil => simp
    | cons u rest =>
      cases k with
      | zero => simp
      | succ k =>
        rw [List.take_succ_cons,List.takeWhile_cons_of_neg (by simp [hrest u rfl]),List.append_nil]
  have hfilter : (number n).filterMap digit? = ds := by
    rw [hnumber,List.filterMap_map]
    refine (List.filterMap_congr fun d hd => digit?_ofNat (hsmall d hd)).trans ?_
    exact List.filterMap_some
  rw [digitsOf,htake,hfilter,hvalue,hnumber,List.length_map]
  exact ⟨rfl,rfl⟩

theorem scanU3_number (hn : n<1000) (hblanks : ∀ u∈blanks,isBlank u=true)
    (hrest : ∀ u∈rest.head?,digit? u=none) :
    scanU3 (blanks++(number n++rest))=some (UInt32.ofNat n, rest) := by
  have hlength : (number n).length≤3 := number_length_le (by decide) (by omega)
  obtain ⟨u,us,hu⟩ := List.exists_cons_of_ne_nil (number_ne_nil n)
  have hfirst := number_units (n := n) (u := u) (by rw [hu]; exact List.mem_cons_self)
  have hhead : (number n++rest).head? = some u := by rw [hu]; rfl
  have hfield : (number n++rest).take 3=number n++rest.take (3-(number n).length) := by
    rw [List.take_append,List.take_of_length_le hlength]
  have hsign : u≠0x2B ∧ u≠0x2D := by
    rw [ne_eq,ne_eq,← UInt16.toNat_inj,← UInt16.toNat_inj]
    simp
    omega
  obtain ⟨hvalue,hcount⟩ := digitsOf_number (n := n) hrest (3-(number n).length)
  have hfield' : (number n++rest.take (3-(number n).length)).head? = some u := by rw [hu]; rfl
  have hne : digitsOf (number n++rest.take (3-(number n).length))≠[] := by
    rw [← List.length_pos_iff,hcount,List.length_pos_iff]
    exact number_ne_nil n
  have hblank : ∀ v∈(number n++rest).head?, isBlank v=false := by
    rw [hhead]
    rintro _ ⟨⟩
    exact isBlank_number (n := n) (by rw [hu]; exact List.mem_cons_self)
  rw [scanU3,dropWhile_blanks hblanks hblank]
  simp only [hfield,hfield',Option.some.injEq,hsign,or_self,if_false,List.drop_zero,hne,hvalue,
    hcount,Nat.zero_add,List.drop_left]

variable {format : List Directive}

theorem sscanf_u3 (hn : n<1000) (hblanks : ∀ u∈blanks,isBlank u=true)
    (hrest : ∀ u∈rest.head?,digit? u=none) :
    sscanf (.u3::format) (blanks++(number n++rest)) =
      (UInt32.ofNat n::(sscanf format rest).1, (sscanf format rest).2) := by
  rw [sscanf,scanU3_number hn hblanks hrest]

theorem sscanf_blanks (hblanks : ∀ u∈blanks,isBlank u=true)
    (hrest : ∀ u∈rest.head?,isBlank u=false) :
    sscanf (.blanks::format) (blanks++rest)=sscanf format rest := by
  rw [sscanf,dropWhile_blanks hblanks hrest]

theorem sscanf_byte (u : UInt16) :
    sscanf (.byte u::format) (u::rest)=sscanf format rest := if_pos rfl

/-- The numbers of an address. -/
def octets (ip : UInt32) : List UInt32 :=
  [UInt32.ofNat (ip.toNat / 2 ^ 24), UInt32.ofNat (ip.toNat / 2 ^ 16 % 2 ^ 8),
    UInt32.ofNat (ip.toNat / 2 ^ 8 % 2 ^ 8), UInt32.ofNat (ip.toNat % 2 ^ 8)]

theorem sscanf_dotted (ip : UInt32) (hblanks : ∀ u∈blanks,isBlank u=true)
    (hrest : ∀ u∈rest.head?,digit? u=none) :
    sscanf (dotted++format) (blanks++(ipv4Text ip++rest)) =
      (octets ip++(sscanf format rest).1, (sscanf format rest).2) := by
  have hip := ip.toNat_lt
  have hdot : ∀ (post : QString) (u : UInt16), u∈((0x2E : UInt16)::post).head? →
      digit? u=none := by
    rintro post _ ⟨⟩
    rfl
  have hnone : ∀ u∈([] : QString), isBlank u=true := by simp
  simp only [dotted,ipv4Text,List.intercalate_cons_cons,List.intercalate_singleton,
    List.append_assoc,List.cons_append,List.nil_append]
  rw [sscanf_u3 (by omega) hblanks (hdot _),sscanf_byte,← List.nil_append (number _ ++ _),
    sscanf_u3 (by omega) hnone (hdot _),sscanf_byte,← List.nil_append (number _ ++ _),
    sscanf_u3 (by omega) hnone (hdot _),sscanf_byte,← List.nil_append (number _ ++ _),
    sscanf_u3 (by omega) hnone hrest]
  rfl

end Scan

theorem ipOf_octets (ip : UInt32) :
    ipOf (UInt32.ofNat (ip.toNat/2^24)) (UInt32.ofNat (ip.toNat/2^16%2^8))
      (UInt32.ofNat (ip.toNat/2^8%2^8)) (UInt32.ofNat (ip.toNat%2^8))=ip := by
  have hip := ip.toNat_lt
  have hor : ∀ {i b : Nat} (a : Nat), b<2^i → a*2^i ||| b=a*2^i+b := by
    intro i b a hb
    rw [Nat.mul_comm,Nat.two_pow_add_eq_or_of_lt hb]
  apply UInt32.toNat_inj.mp
  simp only [ipOf,UInt32.toNat_or,UInt32.toNat_shiftLeft,UInt32.toNat_ofNat',UInt32.reduceToNat,
    Nat.shiftLeft_eq,Nat.reduceMod]
  rw [show ip.toNat/2^24%2^32*2^24%2^32=ip.toNat/2^24*2^24 by omega,
    show ip.toNat/2^16%2^8%2^32*2^16%2^32 =
      ip.toNat/2^16%2^8*2^16 by omega,
    show ip.toNat/2^8%2^8%2^32*2^8%2^32=ip.toNat/2^8%2^8*2^8 by
      omega,
    hor _ (by omega),
    show ip.toNat/2^24*2^24+ip.toNat/2^16%2^8*2^16 =
      ip.toNat/2^16*2^16 by omega,hor _ (by omega),
    show ip.toNat/2^16*2^16+ip.toNat/2^8%2^8*2^8 =
      ip.toNat/2^8*2^8 by omega,hor _ (by omega)]
  omega

/-- A line up to the comma that the description follows. -/
def lineHead (start stop : QString) (level : UInt32) : QString :=
  start++dash++stop++lit " , " ++ padLeft level.toNat++[0x20]

theorem lineText_eq (start stop : QString) (level : UInt32) (desc : String) :
    lineText start stop level desc =
      lineHead start stop level++comma::0x20::(cStr (lit desc)++[newline]) := by
  rw [lineText,lineHead,lit_comma]
  simp

/-- A line of an IPv4 range. -/
def line4 (a b level : UInt32) (tail : QString) : QString :=
  lineHead (padRight (ipv4Text a)) (padRight (ipv4Text b)) level++comma::tail

/-- A line of an IPv6 range. -/
def line6 (addr : AddressText) (a b : V6Key) (level : UInt32) (tail : QString) : QString :=
  lineHead (addr.toString (.ipv6 a)) (addr.toString (.ipv6 b)) level++comma::tail

section Line4

variable {a b level : UInt32} {tail : QString}

theorem ipv4Text_head (ip : UInt32) (rest : QString) :
    ∀ u∈(ipv4Text ip++rest).head?, isBlank u=false := by
  obtain ⟨u,us,hu⟩ := List.exists_cons_of_ne_nil (number_ne_nil (ip.toNat/2^24))
  rw [ipv4Text,List.intercalate_cons_cons,hu]
  rintro _ ⟨⟩
  exact isBlank_number (n := ip.toNat/2^24) (by rw [hu]; exact List.mem_cons_self)

theorem blank_replicate (n : Nat) : ∀ u∈List.replicate n (0x20 : UInt16), isBlank u=true := by
  intro u hu
  rw [List.eq_of_mem_replicate hu]
  rfl

theorem blank_spaces (n : Nat) :
    ∀ u∈List.replicate n (0x20 : UInt16)++[0x20], isBlank u=true := by
  intro u hu
  exact blank_replicate (n+1) u (by rwa [List.replicate_succ'])

theorem digit_blanks (n : Nat) (rest : QString) :
    ∀ u∈(List.replicate n (0x20 : UInt16)++0x20::rest).head?, digit? u=none := by
  cases n with
  | zero =>
    rintro _ ⟨⟩
    rfl
  | succ n =>
    rintro _ ⟨⟩
    rfl

theorem sscanf_range (a b : UInt32) (format : List Directive) (rest : QString) :
    ∃ k, sscanf (rangeFormat++format)
        (padRight (ipv4Text a)++dash++padRight (ipv4Text b)++0x20::rest) =
      (octets a++(octets b++(sscanf format (List.replicate k 0x20++0x20::rest)).1),
        (sscanf format (List.replicate k 0x20++0x20::rest)).2) := by
  refine ⟨15-(ipv4Text b).length,?_⟩
  have hnone : ∀ u∈([] : QString), isBlank u=true := by simp
  have htext : padRight (ipv4Text a)++dash++padRight (ipv4Text b)++0x20::rest =
      []++(ipv4Text a++(List.replicate (15-(ipv4Text a).length) 0x20 ++
        0x20::0x2D::0x20 ::
          (ipv4Text b++(List.replicate (15-(ipv4Text b).length) 0x20++0x20::rest)))) := by
    simp [padRight,dash_eq]
  have hformat : rangeFormat++format =
      dotted ++ .blanks :: .byte 0x2D :: .blanks::(dotted++format) := by simp [rangeFormat]
  rw [htext,hformat,sscanf_dotted a hnone (digit_blanks _ _),List.append_cons,
    sscanf_blanks (blank_spaces _) (by rintro _ ⟨⟩; rfl),sscanf_byte,
    show ∀ t : QString, 0x20::t=List.replicate 0 0x20++[0x20]++t from fun _ => rfl,
    sscanf_blanks (blank_spaces 0) (ipv4Text_head b _),← List.nil_append (ipv4Text b++_),
    sscanf_dotted b hnone (digit_blanks _ _)]

theorem padRight_units {text : QString} {u : UInt16} (h : u∈padRight text) :
    u∈text ∨ u=0x20 :=
  (List.mem_append.mp h).imp_right List.eq_of_mem_replicate

theorem padLeft_units {n : Nat} {u : UInt16} (h : u∈padLeft n) : u∈number n ∨ u=0x20 :=
  (List.mem_append.mp h).symm.imp_right List.eq_of_mem_replicate

theorem lineHead_units {start stop : QString} (hstart : ∀ u∈start,0x20≤u.toNat)
    (hstop : ∀ u∈stop,0x20≤u.toNat) : ∀ u∈lineHead start stop level, 0x20≤u.toNat := by
  intro u hu
  simp only [lineHead,List.mem_append,lit_comma,
    dash_eq] at hu
  rcases hu with ((((hu | hu) | hu) | hu) | hu) | hu
  · exact hstart u hu
  · simp only [List.mem_cons,List.not_mem_nil,or_false] at hu
    rcases hu with rfl | rfl | rfl <;> decide
  · exact hstop u hu
  · simp only [List.mem_cons,List.not_mem_nil,or_false] at hu
    rcases hu with rfl | rfl | rfl <;> decide
  · rcases padLeft_units hu with hu | rfl
    · exact (by decide : 0x20≤0x30).trans (number_units hu).1
    · decide
  · rw [List.mem_singleton.mp hu]
    decide

theorem padRight_ipv4Text (ip : UInt32) : ∀ u∈padRight (ipv4Text ip), 0x20≤u.toNat := by
  intro u hu
  rcases padRight_units hu with hu | rfl
  · rcases ipv4Text_units hu with hdigit | rfl
    · exact (by decide : 0x20≤0x30).trans hdigit.1
    · decide
  · decide

theorem cStr_line (a b level : UInt32) (tail : QString) :
    cStr (line4 a b level tail) =
      padRight (ipv4Text a)++dash++padRight (ipv4Text b)++0x20::comma::0x20 ::
        (padLeft level.toNat++0x20::comma::cStr tail) := by
  have hzero : ∀ u∈lineHead (padRight (ipv4Text a)) (padRight (ipv4Text b)) level,
      (decide (u≠0))=true := by
    intro u hu
    have hunit := lineHead_units (padRight_ipv4Text a) (padRight_ipv4Text b) u hu
    rw [decide_eq_true_eq]
    rintro rfl
    exact absurd hunit (by decide)
  rw [cStr,line4,List.takeWhile_append_of_pos hzero,List.takeWhile_cons_of_pos (by decide)]
  simp [lineHead,cStr,lit_comma]

theorem parseFilterDatLine_line (hlevel : level.toNat<1000) (tail : QString) :
    ∃ desc, parseFilterDatLine (line4 a b level tail)=some (a, b, level, desc) := by
  obtain ⟨k,hscan⟩ := sscanf_range a b [.blanks,.byte comma,.blanks,.u3,.blanks,.byte comma,
    .blanks,.n] (comma::0x20::(padLeft level.toNat++0x20::comma ::
      cStr tail))
  have hrest : ∃ rest, sscanf [.blanks,.byte comma,.blanks,.u3,.blanks,.byte comma,.blanks,.n]
      (List.replicate k 0x20++0x20::comma::0x20::(padLeft level.toNat++0x20::comma ::
        cStr tail))=([level],rest) := by
    obtain ⟨u,us,hu⟩ := List.exists_cons_of_ne_nil (number_ne_nil level.toNat)
    have hnumber : ∀ (rest : QString), ∀ u∈(number level.toNat++rest).head?,
        isBlank u=false := by
      rw [hu]
      rintro rest _ ⟨⟩
      exact isBlank_number (n := level.toNat) (by rw [hu]; exact List.mem_cons_self)
    refine ⟨some ((cStr tail).dropWhile isBlank),?_⟩
    rw [List.append_cons,sscanf_blanks (blank_spaces k) (by rintro _ ⟨⟩; rfl),sscanf_byte,padLeft,
      List.append_assoc,← List.cons_append,← List.replicate_succ,
      sscanf_blanks (blank_replicate _) (hnumber _),← List.nil_append (number _ ++ _),
      sscanf_u3 hlevel (by simp) (by rintro _ ⟨⟩; rfl),UInt32.ofNat_toNat,sscanf,
      List.dropWhile_cons_of_pos (by decide),List.dropWhile_cons_of_neg (by decide),sscanf_byte]
    rfl
  obtain ⟨rest,hrest⟩ := hrest
  rw [hrest] at hscan
  rw [parseFilterDatLine,cStr_line]
  have hformat : filterDatFormat=rangeFormat++[.blanks,.byte comma,.blanks,.u3,
    .blanks,.byte comma,.blanks,.n] := rfl
  rw [hformat,hscan]
  exact ⟨_,by simp only [octets,List.cons_append,List.nil_append,ipOf_octets]; rfl⟩

end Line4

section Parts

variable {pre post front core : QString} {c : UInt16} {atEnd : List UInt16}

theorem rdropWhile_append_cons (p : UInt16 → Bool) (hc : p c=false) (pre post : QString) :
    (pre++c::post).rdropWhile p=pre++c::post.rdropWhile p := by
  rw [List.rdropWhile,List.reverse_append,List.reverse_cons,List.append_assoc,List.dropWhile_append,
    List.rdropWhile]
  split_ifs with hempty
  · simp [List.isEmpty_iff.mp hempty,hc]
  · simp

theorem strip_append (hfront : ∀ u∈front,u=0x20)
    (hhead : ∀ u∈(core++[c]).head?, u≠0x20 ∧ u≠0x09) (hc : c∉atEnd) (post : QString) :
    strip atEnd (front++(core++c::post))=core++c::post.rdropWhile (· ∈ atEnd) := by
  rw [strip,← List.append_assoc,rdropWhile_append_cons _ (by simpa using hc),List.append_assoc,
    List.dropWhile_append_of_pos fun u hu => by simp [hfront u hu]]
  cases core with
  | nil =>
    refine List.dropWhile_cons_of_neg ?_
    simpa using hhead c rfl
  | cons u core =>
    refine List.dropWhile_cons_of_neg ?_
    simpa using hhead u rfl

theorem splitAt_unit (h : c∉pre) (post : QString) :
    splitAt [c] (pre++c::post)=some (pre, post) := by
  induction pre with
  | nil => simp [splitAt]
  | cons u pre ih =>
    obtain ⟨hu,hpre⟩ := List.ne_and_not_mem_of_not_mem_cons h
    simp [splitAt,ih hpre,hu]

theorem splitAt_none (h : c∉pre) : splitAt [c] pre=none := by
  induction pre with
  | nil => rfl
  | cons u pre ih =>
    obtain ⟨hu,hpre⟩ := List.ne_and_not_mem_of_not_mem_cons h
    simp [splitAt,ih hpre,hu]

theorem splitAt_dash (h : 0x2D∉pre) (post : QString) :
    splitAt dash (pre++dash++post)=some (pre, post) := by
  rw [dash_eq]
  induction pre with
  | nil => simp [splitAt]
  | cons u pre ih =>
    obtain ⟨-,hpre⟩ := List.ne_and_not_mem_of_not_mem_cons h
    have hno : ([0x20,0x2D,0x20] : QString).isPrefixOf (u::(pre++[0x20,0x2D,0x20]++post)) =
        false := by
      cases pre with
      | nil => simp [List.isPrefixOf]
      | cons v pre => simp [List.isPrefixOf,(List.ne_and_not_mem_of_not_mem_cons hpre).1]
    rw [List.cons_append,List.cons_append,splitAt,hno,ih hpre]
    rfl

theorem trimmed_padded (h : ∀ u∈pre,isSpace u=false) (k : Nat) :
    trimmed (pre++List.replicate k 0x20)=pre := by
  rcases List.eq_nil_or_concat' pre with rfl | ⟨core,c,rfl⟩
  · simp [trimmed,isSpace]
  · have hfirst : ((core++[c])++List.replicate k 0x20).dropWhile isSpace =
        core++c::List.replicate k 0x20 := by
      cases core with
      | nil => exact List.dropWhile_cons_of_neg (by simp [h c])
      | cons u core => exact (List.dropWhile_cons_of_neg (by simp [h u])).trans (by simp)
    rw [trimmed,hfirst,rdropWhile_append_cons _ (h c (by simp))]
    simp [isSpace]

variable (addr : AddressText) {start stop : QString}

theorem parseV6RangeSpec_dash (hstart : ∀ u∈start,u≠slash ∧ u≠0x2D)
    (hstop : ∀ u∈core++[c], u≠slash)
    (hhead : ∀ u∈(start++[0x20]).head?, u≠0x20 ∧ u≠0x09)
    (hc : c∉[0x20,0x09,0x0D]) (k : Nat) :
    parseV6RangeSpec addr (start++dash++core++c::List.replicate k 0x20) =
      (parseV6Literal addr start).bind fun start =>
        (parseV6Literal addr (core++[c])).bind fun stop =>
          if start ≤ stop then some (start, stop) else none := by
  have hblanks : (List.replicate k (0x20 : UInt16)).rdropWhile (· ∈ [0x20,0x09,0x0D])=[] := by
    simp
  have hstrip : stripped (start++dash++core++c::List.replicate k 0x20) =
      start++dash++(core++[c]) := by
    rw [stripped,← List.nil_append (start++dash++core++_),strip_append (by simp) ?_ hc,
      hblanks]
    · simp
    · rw [dash_eq]
      cases start with
      | nil => simp at hhead
      | cons u start => simpa using hhead
  have hslash : slash∉start++dash++(core++[c]) := by
    rw [List.mem_append,List.mem_append,not_or,not_or]
    exact ⟨⟨fun h => (hstart _ h).1 rfl,by decide⟩,fun h => hstop _ h rfl⟩
  rw [parseV6RangeSpec,hstrip]
  rw [if_neg (by simp [dash_eq]),splitAt_none hslash,splitAt_dash fun h => (hstart _ h).2 rfl]
  rfl

theorem parseSuffix_none (h : colon∉post) (pre : QString) : parseSuffix addr pre post=none := by
  induction post generalizing pre with
  | nil => rfl
  | cons u post ih =>
    obtain ⟨hu,hpost⟩ := List.ne_and_not_mem_of_not_mem_cons h
    rw [parseSuffix,if_neg (Ne.symm hu),ih hpost]

end Parts

section Line6

variable {addr : AddressText} {level : UInt32} {start stop tail : QString}

theorem lineHead_comma (start stop : QString) (level : UInt32) (tail : QString) :
    lineHead start stop level++comma::tail=start++dash++stop++[0x20]++comma ::
      (0x20::padLeft level.toNat++0x20::comma::tail) := by
  simp [lineHead,lit_comma]

theorem level_text (hlevel : level.toNat<1000) :
    stripped (0x20::padLeft level.toNat++[0x20])=number level.toNat ∧
      allDigits (number level.toNat)=true ∧ UInt32.ofInt (atoi (number level.toNat))=level := by
  refine ⟨?_,?_,?_⟩
  · obtain h | ⟨core,c,hcore⟩ := List.eq_nil_or_concat' (number level.toNat)
    · exact absurd h (number_ne_nil _)
    · have hplain : ∀ u∈number level.toNat,u≠0x20 ∧ u≠0x09 ∧ u≠0x0D := by
        intro u hu
        have hrange := (number_units hu).1
        refine ⟨?_,?_,?_⟩
        all_goals
          rintro rfl
          exact absurd hrange (by decide)
      rw [hcore] at hplain
      have hc := hplain c (by simp)
      rw [stripped,padLeft,← List.cons_append,← List.replicate_succ,hcore,List.append_assoc,
        List.append_assoc,List.singleton_append,
        strip_append (fun u hu => List.eq_of_mem_replicate hu)
          (fun u hu => ⟨(hplain u (List.mem_of_mem_head? hu)).1,
            (hplain u (List.mem_of_mem_head? hu)).2.1⟩) (by simp [hc])]
      simp
  · rw [allDigits,Bool.and_eq_true,List.all_eq_true]
    refine ⟨by simpa using number_ne_nil _,fun u hu => ?_⟩
    obtain ⟨d,hd⟩ := number_digit hu
    rw [hd]
    rfl
  · have hvalue : ofDigits (digitsOf (number level.toNat++([] : QString).take 0))=level.toNat :=
      (digitsOf_number (by simp) 0).1
    rw [List.take_nil,List.append_nil] at hvalue
    apply UInt32.toNat_inj.mp
    rw [atoi,hvalue,UInt32.ofInt,UInt32.toNat_ofNat',Int.bmod_eq_of_le] <;> omega

theorem comma_notMem_spec (hstart : comma∉start) (hstop : comma∉stop) :
    comma∉start++dash++stop++[0x20] := by
  simp only [List.mem_append,not_or]
  exact ⟨⟨⟨hstart,by decide⟩,hstop⟩,by decide⟩

/-- What addresses are written with, and colons. -/
def Plain (u : UInt16) : Prop := 0x2E ≤ u.toNat ∧ u.toNat < 0x80 ∧ u ≠ slash

theorem Plain.ne {u v : UInt16} (h : Plain u) (hv : v.toNat<0x2E) : u≠v := by
  rintro rfl
  exact absurd h.1 (not_le.mpr hv)

theorem Plain.isSpace {u : UInt16} (h : Plain u) : isSpace u=false := by
  have hlow := h.1
  have hhigh := h.2.1
  rw [QString.isSpace,decide_eq_false_iff_not]
  omega

theorem ipv4Text_plain (ip : UInt32) : ∀ u∈ipv4Text ip,Plain u ∧ u≠colon := by
  intro u hu
  rcases ipv4Text_units hu with hdigit | rfl
  · refine ⟨⟨by omega,by omega,?_⟩,?_⟩ <;>
    · rintro rfl
      exact absurd hdigit (by decide)
  · exact ⟨⟨by decide,by decide,by decide⟩,by decide⟩

theorem ipv6Text_plain (ip : V6Key) : ∀ u∈addr.toString (.ipv6 ip), Plain u := by
  intro u hu
  rcases addr.ipv6_units ip u hu with hdigit | hletter | rfl | rfl
  · refine ⟨by omega,by omega,?_⟩
    rintro rfl
    exact absurd hdigit (by decide)
  · refine ⟨by omega,by omega,?_⟩
    rintro rfl
    exact absurd hletter (by decide)
  · exact ⟨by decide,by decide,by decide⟩
  · exact ⟨by decide,by decide,by decide⟩

variable (addr) in
theorem parseV6RangeSpec_plain (hstart : ∀ u∈start,Plain u) (hstop : ∀ u∈stop,Plain u)
    (hne : start≠[]) (hne' : stop≠[]) (j k : Nat) :
    parseV6RangeSpec addr (start++List.replicate j 0x20++dash++stop ++
        List.replicate k 0x20) =
      (parseV6Literal addr (start++List.replicate j 0x20)).bind fun start =>
        (parseV6Literal addr stop).bind fun stop =>
          if start ≤ stop then some (start, stop) else none := by
  obtain h | ⟨core,c,rfl⟩ := List.eq_nil_or_concat' stop
  · exact absurd h hne'
  obtain ⟨u,us,rfl⟩ := List.exists_cons_of_ne_nil hne
  have hc := hstop c (by simp)
  have hu := hstart u List.mem_cons_self
  have hends : ∀ v∈u::us++List.replicate j 0x20, v≠slash ∧ v≠0x2D := by
    intro v hv
    rcases List.mem_append.mp hv with hv | hv
    · exact ⟨(hstart v hv).2.2,(hstart v hv).ne (by decide)⟩
    · rw [List.eq_of_mem_replicate hv]
      decide
  have hhead : ∀ v∈(u::us++List.replicate j 0x20++[0x20]).head?, v≠0x20 ∧ v≠0x09 := by
    rintro _ ⟨⟩
    exact ⟨hu.ne (by decide),hu.ne (by decide)⟩
  have hlast : c∉[0x20,0x09,0x0D] := by
    simp [hc.ne (v := 0x20) (by decide),hc.ne (v := 0x09) (by decide),hc.ne (v := 0x0D) (by decide)]
  have hdash := parseV6RangeSpec_dash addr hends (fun v hv => (hstop v hv).2.2) hhead hlast k
  simpa using hdash

theorem parseIPv6Line_line4 (hfamily : ∀ ip,(addr.fromString (ipv4Text ip)).isIPv6=false)
    (a b : UInt32) : parseIPv6Line addr (line4 a b level tail)=none := by
  have hne : ∀ ip,ipv4Text ip≠[] := by simp [ipv4Text]
  have hunits : ∀ (ip : UInt32), ∀ v∈padRight (ipv4Text ip), v≠comma ∧ v≠colon := by
    intro ip v hv
    rcases padRight_units hv with hv | rfl
    · exact ⟨(ipv4Text_plain ip v hv).1.ne (by decide),(ipv4Text_plain ip v hv).2⟩
    · decide
  have hliteral : parseV6Literal addr (padRight (ipv4Text a))=none := by
    have ha := hfamily a
    rw [parseV6Literal,padRight,trimmed_padded fun u hu => (ipv4Text_plain a u hu).1.isSpace]
    cases hfrom : addr.fromString (ipv4Text a) with
    | ipv6 ip => simp [hfrom,Address.isIPv6] at ha
    | _ => rfl
  have hspec : parseV6RangeSpec addr (padRight (ipv4Text a)++dash++padRight (ipv4Text b) ++
      [0x20])=none := by
    have hplain := parseV6RangeSpec_plain addr (fun u hu => (ipv4Text_plain a u hu).1)
      (fun u hu => (ipv4Text_plain b u hu).1) (hne a) (hne b) (15-(ipv4Text a).length)
      (15-(ipv4Text b).length+1)
    rw [← padRight,hliteral,List.replicate_succ'] at hplain
    simpa [padRight] using hplain
  have hcolon : colon∉padRight (ipv4Text a)++dash++padRight (ipv4Text b)++[0x20] := by
    simp only [List.mem_append,not_or]
    exact ⟨⟨⟨fun h => (hunits a _ h).2 rfl,by decide⟩,fun h => (hunits b _ h).2 rfl⟩,by decide⟩
  rw [line4,lineHead_comma,parseIPv6Line]
  split_ifs
  · rw [splitAt_unit (comma_notMem_spec (fun h => (hunits a _ h).1 rfl) fun h =>
      (hunits b _ h).1 rfl)]
    dsimp only
    rw [hspec,parseSuffix_none addr hcolon]
    rfl
  · rfl

variable (tail) in
theorem parseIPv6Line_line6 {a b : V6Key} (hlevel : level.toNat<1000)
    (ha : addr.fromString (addr.toString (.ipv6 a)) = .ipv6 a)
    (hb : addr.fromString (addr.toString (.ipv6 b)) = .ipv6 b) (hle : a≤b) :
    ∃ desc, parseIPv6Line addr (line6 addr a b level tail)=some (a, b, level, desc) := by
  have hne : ∀ ip,addr.toString (.ipv6 ip)≠[] := fun ip =>
    List.ne_nil_of_mem (addr.ipv6_colon ip)
  have hcomma : ∀ ip,comma∉addr.toString (.ipv6 ip) := fun ip h =>
    (ipv6Text_plain ip _ h).ne (by decide) rfl
  have hliteral : ∀ {ip}, addr.fromString (addr.toString (.ipv6 ip)) = .ipv6 ip →
      parseV6Literal addr (addr.toString (.ipv6 ip))=some ip := by
    intro ip hip
    have htrimmed := trimmed_padded (fun u (hu : u∈addr.toString (.ipv6 ip)) =>
      (ipv6Text_plain ip u hu).isSpace) 0
    rw [List.replicate_zero,List.append_nil] at htrimmed
    rw [parseV6Literal,htrimmed,hip]
  have hspec := parseV6RangeSpec_plain addr (ipv6Text_plain a) (ipv6Text_plain b) (hne a)
    (hne b) 0 1
  rw [List.replicate_zero,List.append_nil,List.replicate_one,hliteral ha,hliteral hb,
    Option.bind_some,Option.bind_some,if_pos hle] at hspec
  obtain ⟨hstripped,hdigits,hvalue⟩ := level_text hlevel
  have htail : comma∉0x20::padLeft level.toNat++[0x20] := by
    intro h
    simp only [List.cons_append,List.mem_cons,List.mem_append,List.not_mem_nil,or_false] at h
    rcases h with h | h | h
    · exact absurd h (by decide)
    · rcases padLeft_units h with h | h
      · exact absurd (number_units h) (by decide)
      · exact absurd h (by decide)
    · exact absurd h (by decide)
  rw [line6,lineHead_comma,parseIPv6Line,if_neg (not_not.mpr (by simp [addr.ipv6_colon a])),
    splitAt_unit (comma_notMem_spec (hcomma a) (hcomma b)),
    show ∀ t,0x20::padLeft level.toNat++0x20::comma::t =
      0x20::padLeft level.toNat++[0x20]++comma::t by simp]
  dsimp only
  rw [splitAt_unit htail]
  rw [hspec,hstripped,hdigits,if_pos rfl,hvalue]
  exact ⟨_,rfl⟩

end Line6

section Lines

/-- What `readLine` takes at once: one newline at most, at its end. -/
structure IsLine (l : QString) : Prop where
  nonempty : l≠[]
  short : l.length≤4096
  once : newline∉l.dropLast

theorem readLine_append {l : QString} (h : IsLine l) (rest : QString)
    (hends : rest=[] ∨ newline∈l) : readLine (l++rest)=(l, rest) := by
  obtain hnil | ⟨body,c,rfl⟩ := List.eq_nil_or_concat' l
  · exact absurd hnil h.nonempty
  have honce : newline∉body := by simpa using h.once
  have htake : ((body++[c])++rest).take 4096 =
      body++c::rest.take (4096-(body.length+1)) := by
    rw [List.take_append,List.take_of_length_le h.short]
    simp
  have hn : (if newline∈body++c::rest.take (4096-(body.length+1)) then
      (body++c::rest.take (4096-(body.length+1))).idxOf newline+1
      else (body++c::rest.take (4096-(body.length+1))).length)=(body++[c]).length := by
    by_cases hc : c=newline
    · rw [hc,if_pos (by simp),List.idxOf_append_of_notMem honce,List.idxOf_cons_self]
      simp
    · have hrest : rest=[] := hends.resolve_right fun h => by
        rcases List.mem_append.mp h with h | h
        · exact honce h
        · exact hc (List.mem_singleton.mp h).symm
      rw [hrest,List.take_nil,if_neg (by simp [honce,Ne.symm hc])]
  rw [readLine,htake,hn,List.take_left,List.drop_left]

theorem readLines_flatten {ls : List QString} (hlines : ∀ l∈ls,IsLine l)
    (hends : ∀ l∈ls.dropLast,newline∈l) {left : Nat} (hleft : ls.flatten.length≤left) :
    readLines left ls.flatten=ls := by
  induction ls generalizing left with
  | nil => cases left <;> rfl
  | cons l ls ih =>
    obtain ⟨hl,hrest⟩ := List.forall_mem_cons.mp hlines
    have hpos := List.length_pos_iff.mpr hl.nonempty
    rw [List.flatten_cons] at hleft ⊢
    rw [List.length_append] at hleft
    cases left with
    | zero => omega
    | succ left =>
      have hends' : ls.flatten=[] ∨ newline∈l := by
        cases ls with
        | nil => exact Or.inl rfl
        | cons l' ls => exact Or.inr (hends l (by simp))
      rw [readLines,if_neg (by simp [hl.nonempty]),readLine_append hl _ hends',
        ih hrest (fun l' hl' => hends l' ?_) (by omega)]
      cases ls with
      | nil => simp at hl'
      | cons l'' ls => exact List.mem_cons_of_mem _ hl'

end Lines

section Load

variable {addr : AddressText} {a b level : UInt32} {tail : QString}

theorem detect_line (htags : ¬ (0x3E∈line4 a b level tail ∧ 0x3C∈line4 a b level tail)) :
    detect (line4 a b level tail)=(.FilterDat, line4 a b level tail) := by
  obtain ⟨k,hscan⟩ := sscanf_range a b [] (comma::0x20 ::
    (padLeft level.toNat++0x20::comma::cStr tail))
  have hreads : decide ((sscanf rangeFormat (cStr (line4 a b level tail))).1.length=8) =
      true := by
    rw [List.append_nil] at hscan
    rw [cStr_line,hscan]
    simp [octets,sscanf]
  rw [detect,if_neg htags]
  simp only [hreads,if_true]

theorem strip_line (tail : QString) : ∃ tail', tail' <+: tail ∧
    ∀ {start stop : QString} {level : UInt32}, (∀ u∈start.head?,Plain u) → start≠[] →
      strip [0x0A,0x0D,0x20,0x09] (lineHead start stop level++comma::tail) =
        lineHead start stop level++comma::tail' := by
  refine ⟨_,tail.rdropWhile_prefix (· ∈ [0x0A,0x0D,0x20,0x09]),
    fun {start stop level} hplain hne => ?_⟩
  obtain ⟨u,us,rfl⟩ := List.exists_cons_of_ne_nil hne
  have hu := hplain u rfl
  rw [← List.nil_append (lineHead _ _ _ ++ _)]
  refine strip_append (by simp) ?_ (by decide) tail
  rintro _ ⟨⟩
  exact ⟨hu.ne (by decide),hu.ne (by decide)⟩

theorem first_line {start stop l : QString} (hl : l=lineHead start stop level++comma::tail)
    (hplain : ∀ u∈start.head?,Plain u) (hne : start≠[]) :
    ¬ (l=[] ∨ l.head? = some 0x23 ∨ l.head? = some slash) := by
  obtain ⟨u,us,rfl⟩ := List.exists_cons_of_ne_nil hne
  have hu := hplain u rfl
  rw [hl]
  rintro (h | h | h)
  · cases h
  · exact hu.ne (by decide) (Option.some.inj h)
  · exact hu.2.2 (Option.some.inj h)

variable (tail) in
theorem loadLine_line4 (hfamily : ∀ ip,(addr.fromString (ipv4Text ip)).isIPv6=false)
    (hlevel : level.toNat<1000) {s : Loading} (htype : s.fileType = .FilterDat ∨
      s.fileType = .Unknown ∧ ¬ (0x3E∈line4 a b level tail ∧ 0x3C∈line4 a b level tail)) :
    ∃ desc, loadLine addr s (line4 a b level tail) =
      ⟨.FilterDat,s.foundRanges+1,s.filter.addIPRange a b level desc⟩ := by
  have hne : padRight (ipv4Text a)≠[] := by simp [padRight,ipv4Text]
  have hplain : ∀ u∈(padRight (ipv4Text a)).head?, Plain u := by
    obtain ⟨u,us,hu⟩ := List.exists_cons_of_ne_nil (show ipv4Text a≠[] by simp [ipv4Text])
    rw [padRight,hu]
    rintro _ ⟨⟩
    exact (ipv4Text_plain a u (by rw [hu]; exact List.mem_cons_self)).1
  obtain ⟨tail',htail,hstrip⟩ := strip_line tail
  have hsub : ∀ u,u∈line4 a b level tail' → u∈line4 a b level tail := fun u hu =>
    List.Sublist.subset ((List.Sublist.refl _).append ((htail.sublist).cons_cons _)) hu
  have hlength : ¬ (line4 a b level tail').length<15 := by
    simp only [line4,lineHead,padRight,List.length_append,List.length_replicate]
    omega
  have hdetect : (if s.fileType = .Unknown then detect (line4 a b level tail')
      else (s.fileType, line4 a b level tail'))=(.FilterDat, line4 a b level tail') := by
    rcases htype with h | ⟨h,htags⟩
    · rw [h]
      rfl
    · rw [if_pos h,detect_line fun h => htags ⟨hsub _ h.1,hsub _ h.2⟩]
  obtain ⟨desc,hparse⟩ := parseFilterDatLine_line (a := a) (b := b) hlevel tail'
  have hfirst := first_line (l := line4 a b level tail') rfl hplain hne
  rw [loadLine,show strip _ (line4 a b level tail)=line4 a b level tail' from hstrip hplain hne,
    if_neg hfirst,parseIPv6Line_line4 hfamily]
  rw [if_neg hlength,hdetect]
  dsimp only [parseLine]
  rw [hparse]
  exact ⟨_,rfl⟩

variable (tail) in
theorem loadLine_line6 {a b : V6Key} (hlevel : level.toNat<1000)
    (ha : addr.fromString (addr.toString (.ipv6 a)) = .ipv6 a)
    (hb : addr.fromString (addr.toString (.ipv6 b)) = .ipv6 b) (hle : a≤b) (s : Loading) :
    ∃ desc, loadLine addr s (line6 addr a b level tail) =
      { s with
        foundRanges := s.foundRanges+1
        filter := s.filter.addIPRange6 a b level desc } := by
  have hne : addr.toString (.ipv6 a)≠[] := List.ne_nil_of_mem (addr.ipv6_colon a)
  have hplain : ∀ u∈(addr.toString (.ipv6 a)).head?, Plain u := fun u hu =>
    ipv6Text_plain a u (List.mem_of_mem_head? hu)
  obtain ⟨tail',-,hstrip⟩ := strip_line tail
  obtain ⟨desc,hparse⟩ := parseIPv6Line_line6 tail' hlevel ha hb hle
  have hfirst := first_line (l := line6 addr a b level tail') rfl hplain hne
  rw [loadLine,show strip _ (line6 addr a b level tail)=line6 addr a b level tail' from
    hstrip hplain hne,if_neg hfirst,hparse]
  exact ⟨_,rfl⟩

end Load

/-- What saving must find so that the file tells every range: no line break in a description, no
line but the last that is cut, no tags in the first line, and addresses that are read as such. -/
structure IPFilter.Kept (addr : AddressText) (f : IPFilter) : Prop where
  unbroken : ∀ text ∈ f.texts addr, newline ∉ text.dropLast
  fits : ∀ text ∈ (f.texts addr).dropLast, text.length ≤ 255
  untagged : ∀ e ∈ f.entries.head?, ¬ (0x3E ∈ e.text.take 255 ∧ 0x3C ∈ e.text.take 255)
  readable : ∀ e ∈ f.entries6, ∀ ip ∈ [e.start, e.stop],
    addr.fromString (addr.toString (.ipv6 ip)) = .ipv6 ip

section Save

variable {addr : AddressText} {f : IPFilter}

theorem take_lineText {start stop : QString} (hlength : start.length+stop.length≤96)
    {level : UInt32} (hlevel : level.toNat<1000) (desc : String) :
    ∃ tail, (lineText start stop level desc).take 255 =
      lineHead start stop level++comma::tail := by
  have hnumber : (number level.toNat).length≤3 := number_length_le (by decide) (by omega)
  have hhead : (lineHead start stop level).length≤108 := by
    simp only [lineHead,padLeft,List.length_append,List.length_replicate,
      lit_comma,dash_eq,
      List.length_cons,List.length_nil]
    omega
  refine ⟨(0x20::(cStr (lit desc)++[newline])).take (254-(lineHead start stop level).length),
    ?_⟩
  rw [lineText_eq,List.take_append,List.take_of_length_le (by omega),
    show 255-(lineHead start stop level).length=254-(lineHead start stop level).length+1 by
      omega,List.take_succ_cons]

theorem isLine_take {text : QString} (hne : text≠[]) (h : newline∉text.dropLast) :
    IsLine (text.take 255) := by
  refine ⟨by simpa using hne,(List.length_take_le _ _).trans (by decide),fun hin => h ?_⟩
  rw [List.dropLast_eq_take,List.take_take] at hin
  rw [List.dropLast_eq_take]
  refine List.mem_of_mem_take (i := min 255 text.length-1) ?_
  rw [List.take_take]
  convert hin using 2
  rw [List.length_take]
  omega

theorem text_eq_append (start stop : QString) (level : UInt32) (desc : String) :
    ∃ body, lineText start stop level desc=body++[newline] := ⟨_,rfl⟩

theorem readLines_saveToFile (h : f.Kept addr) : readLines (saveToFile addr f).length
    (saveToFile addr f)=(f.texts addr).map fun text => text.take 255 := by
  have htext : ∀ text∈f.texts addr,∃ body, text=body++[newline] := by
    intro text ht
    rcases List.mem_append.mp ht with ht | ht
    all_goals
      obtain ⟨e,-,rfl⟩ := List.mem_map.mp ht
      exact text_eq_append ..
  refine readLines_flatten (fun l hl => ?_) (fun l hl => ?_) le_rfl
  · obtain ⟨text,ht,rfl⟩ := List.mem_map.mp hl
    obtain ⟨body,hbody⟩ := htext text ht
    exact isLine_take (by simp [hbody]) (h.unbroken text ht)
  · rw [← List.map_dropLast] at hl
    obtain ⟨text,ht,rfl⟩ := List.mem_map.mp hl
    obtain ⟨body,hbody⟩ := htext text (List.dropLast_subset _ ht)
    rw [List.take_of_length_le (h.fits text ht),hbody]
    exact List.mem_append_right _ (List.mem_singleton_self _)

variable (hfamily : ∀ ip, (addr.fromString (ipv4Text ip)).isIPv6=false)
  (hlength : ∀ ip, (addr.toString (.ipv6 ip)).length≤48)

include hfamily in
theorem foldl_lines4 (es : List (IPFilterEntry UInt32)) (hlevels : ∀ e∈es,e.level.toNat<1000)
    (s : Loading) (htype : s.fileType = .FilterDat ∨ s.fileType = .Unknown ∧ ∀ e∈es.head?,
      ¬ (0x3E∈e.text.take 255 ∧ 0x3C∈e.text.take 255)) :
    let s' := (es.map fun e => e.text.take 255).foldl (loadLine addr) s
    s'.filter.entries.map IPFilterEntry.range =
        s.filter.entries.map IPFilterEntry.range++es.map IPFilterEntry.range ∧
      s'.filter.entries6=s.filter.entries6 := by
  induction es generalizing s with
  | nil => simp
  | cons e es ih =>
    obtain ⟨hlevel,hrest⟩ := List.forall_mem_cons.mp hlevels
    have hpad : ∀ ip,(padRight (ipv4Text ip)).length≤48 := by
      intro ip
      have hip := ip.toNat_lt
      have hoctet : ∀ n<2^8,(number n).length≤3 := fun n hn =>
        number_length_le (by decide) (by omega)
      have h1 := hoctet (ip.toNat/2^24) (by omega)
      have h2 := hoctet (ip.toNat/2^16%2^8) (by omega)
      have h3 := hoctet (ip.toNat/2^8%2^8) (by omega)
      have h4 := hoctet (ip.toNat%2^8) (by omega)
      simp only [padRight,ipv4Text,List.intercalate_cons_cons,List.intercalate_singleton,
        List.length_append,List.length_replicate,List.length_cons,List.length_nil]
      omega
    obtain ⟨tail,htext⟩ := take_lineText (Nat.add_le_add (hpad e.start) (hpad e.stop)) hlevel e.desc
    have hline : e.text.take 255=line4 e.start e.stop e.level tail := htext
    obtain ⟨desc,hload⟩ := loadLine_line4 tail hfamily hlevel (htype.imp_right fun h =>
      ⟨h.1,by rw [← hline]; exact h.2 e rfl⟩)
    obtain ⟨hranges,hother⟩ := ih hrest ⟨.FilterDat,s.foundRanges+1,
      s.filter.addIPRange e.start e.stop e.level desc⟩ (Or.inl rfl)
    rw [List.map_cons,List.foldl_cons,hline,hload]
    refine ⟨hranges.trans ?_,hother⟩
    simp [IPFilter.addIPRange,IPFilterEntry.range]

include hlength in
theorem foldl_lines6 (es : List (IPFilterEntry V6Key)) (hlevels : ∀ e∈es,e.level.toNat<1000)
    (hranges : ∀ e∈es,e.start≤e.stop) (hreadable : ∀ e∈es,∀ ip∈[e.start,e.stop],
      addr.fromString (addr.toString (.ipv6 ip)) = .ipv6 ip) (s : Loading) :
    let s' := (es.map fun e => (e.text6 addr).take 255).foldl (loadLine addr) s
    s'.filter.entries6.map IPFilterEntry.range =
        s.filter.entries6.map IPFilterEntry.range++es.map IPFilterEntry.range ∧
      s'.filter.entries=s.filter.entries := by
  induction es generalizing s with
  | nil => simp
  | cons e es ih =>
    obtain ⟨hlevel,hlevels⟩ := List.forall_mem_cons.mp hlevels
    obtain ⟨hrange,hranges⟩ := List.forall_mem_cons.mp hranges
    obtain ⟨hread,hreadable⟩ := List.forall_mem_cons.mp hreadable
    obtain ⟨tail,htext⟩ := take_lineText (Nat.add_le_add (hlength e.start) (hlength e.stop)) hlevel
      e.desc
    obtain ⟨desc,hload⟩ := loadLine_line6 tail hlevel (hread _ (by simp))
      (hread _ (by simp)) hrange s
    obtain ⟨hfound,hother⟩ := ih hlevels hranges hreadable { s with
      foundRanges := s.foundRanges+1
      filter := s.filter.addIPRange6 e.start e.stop e.level desc }
    rw [List.map_cons,List.foldl_cons,show (e.text6 addr).take 255 =
      line6 addr e.start e.stop e.level tail from htext,hload]
    refine ⟨hfound.trans ?_,hother.trans ?_⟩
    · simp [IPFilter.addIPRange6,IPFilterEntry.range,not_lt.mpr hrange]
    · simp [IPFilter.addIPRange6,not_lt.mpr hrange]

end Save

section Filter

variable {κ : Type} [RangeKey κ] {es es' : List (IPFilterEntry κ)}

theorem blockedBy_range (h : es'.map IPFilterEntry.range=es.map IPFilterEntry.range) (key : κ)
    (filterLevel : UInt32) : blockedBy es' key filterLevel=blockedBy es key filterLevel := by
  have hbound : ∀ es : List (IPFilterEntry κ), upperBound es key =
      ((es.map IPFilterEntry.range).takeWhile fun r => !decide (key<r.1)).length := by
    intro es
    rw [List.takeWhile_map,List.length_map]
    rfl
  rw [blockedBy,blockedBy,hbound,hbound,h]
  cases ((es.map IPFilterEntry.range).takeWhile fun r => !decide (key<r.1)).length with
  | zero => rfl
  | succ i =>
    have hi : es'[i]?.map IPFilterEntry.range=es[i]?.map IPFilterEntry.range := by
      rw [← List.getElem?_map,h,List.getElem?_map]
    dsimp only
    generalize es'[i]?=o' at hi ⊢
    cases o' with
    | none => rw [Option.map_eq_none_iff.mp hi.symm]
    | some e' =>
      obtain ⟨e,hes,hrange⟩ := Option.map_eq_some_iff.mp hi.symm
      obtain ⟨hstart,hstop,hlevel⟩ : e.start=e'.start ∧ e.stop=e'.stop ∧ e.level=e'.level := by
        simpa [IPFilterEntry.range] using hrange
      rw [hes]
      dsimp only
      rw [hstart,hstop,hlevel]

theorem isFiltered_range {f f' : IPFilter}
    (h : f'.entries.map IPFilterEntry.range=f.entries.map IPFilterEntry.range)
    (h6 : f'.entries6.map IPFilterEntry.range=f.entries6.map IPFilterEntry.range)
    (address : Address) (filterLevel : UInt32) :
    (f'.isFiltered address filterLevel).1=(f.isFiltered address filterLevel).1 := by
  have hnil : f'.entries=[] ↔ f.entries=[] := by
    rw [← List.map_eq_nil_iff (f := IPFilterEntry.range),h,List.map_eq_nil_iff]
  have hnil6 : f'.entries6=[] ↔ f.entries6=[] := by
    rw [← List.map_eq_nil_iff (f := IPFilterEntry.range),h6,List.map_eq_nil_iff]
  cases address with
  | none => rfl
  | ipv4 ip =>
    simp only [IPFilter.isFiltered,IPFilter.isFilteredV4,hnil,blockedBy_range h]
    split_ifs
    · rfl
    · cases blockedBy f.entries _ filterLevel <;> rfl
  | ipv6 ip =>
    simp only [IPFilter.isFiltered,IPFilter.isFilteredV6,hnil6,blockedBy_range h6]
    split_ifs
    · rfl
    · cases blockedBy f.entries6 _ filterLevel <;> rfl

end Filter

/-- A merged table comes back from its file with the same ranges, and blocks the same addresses. -/
theorem loadFromDefaultFile_saveToFile (addr : AddressText)
    (hfamily : ∀ ip, (addr.fromString (ipv4Text ip)).isIPv6 = false)
    (hlength : ∀ ip, (addr.toString (.ipv6 ip)).length ≤ 48) (f : IPFilter)
    (hmerged : Merged f.entries) (hmerged6 : Merged f.entries6)
    (hranges6 : ∀ e ∈ f.entries6, e.start ≤ e.stop)
    (hlevels : ∀ e ∈ f.entries, e.level.toNat < 1000)
    (hlevels6 : ∀ e ∈ f.entries6, e.level.toNat < 1000) (hkept : f.Kept addr) :
    let f' := loadFromDefaultFile addr (saveToFile addr f)
    f'.entries.map IPFilterEntry.range=f.entries.map IPFilterEntry.range ∧
      f'.entries6.map IPFilterEntry.range=f.entries6.map IPFilterEntry.range ∧
      ∀ address filterLevel,
        (f'.isFiltered address filterLevel).1=(f.isFiltered address filterLevel).1 := by
  obtain ⟨hfound,hother⟩ := foldl_lines4 hfamily f.entries hlevels ⟨.Unknown,0,.empty⟩
    (Or.inr ⟨rfl,hkept.untagged⟩)
  obtain ⟨hfound6,hother6⟩ := foldl_lines6 hlength f.entries6 hlevels6 hranges6 hkept.readable
    ((f.entries.map fun e => e.text.take 255).foldl (loadLine addr) ⟨.Unknown,0,.empty⟩)
  have hload : loadLines addr (saveToFile addr f)=((f.entries6.map fun e =>
      (e.text6 addr).take 255).foldl (loadLine addr) ((f.entries.map fun e =>
        e.text.take 255).foldl (loadLine addr) ⟨.Unknown,0,.empty⟩)).filter := by
    rw [loadLines,readLines_saveToFile hkept,IPFilter.texts,List.map_append,List.foldl_append,
      List.map_map,List.map_map]
    rfl
  rw [← hload] at hfound6 hother6
  rw [hother] at hfound6
  have hranges := hmerged.range_eq ((congrArg _ hother6).trans hfound)
    (loadLines addr (saveToFile addr f)).modified
  have hranges6 := hmerged6.range_eq hfound6
    (sortAndMergeRanges (loadLines addr (saveToFile addr f)).entries
      (loadLines addr (saveToFile addr f)).modified).2
  exact ⟨hranges,hranges6,isFiltered_range hranges hranges6⟩

theorem fullAddressText_family (ip : UInt32) :
    (fullAddressText.fromString (ipv4Text ip)).isIPv6=false := by
  have hread : fullAddressText.fromString (ipv4Text ip)=if ip=0 then .none else .ipv4 ip := by
    dsimp only [fullAddressText]
    rw [readIPv4_ipv4Text]
  rw [hread]
  split_ifs <;> rfl

theorem ipv6Text_length (raw : List UInt8) : (ipv6Text raw).length≤3*raw.length := by
  induction raw using ipv6Text.induct with
  | case1 a b c rest ih =>
    rw [ipv6Text,List.length_append,List.length_append,List.length_cons,List.length_cons,
      List.length_cons]
    simp only [hexPair,List.length_cons,List.length_nil] at ih ⊢
    omega
  | _ => simp [ipv6Text,hexPair]

def sampleTable : IPFilter :=
  loadLines fullAddressText
    (lit "1.0.0.0 - 1.0.0.1 , 100 , a\n2001:0db8:0000:0000:0000:0000:0000:0000/32 , 7 , b\n")

set_option maxRecDepth 4000 in
theorem loadFromDefaultFile_saveToFile_sample :
    let f' := loadFromDefaultFile fullAddressText (saveToFile fullAddressText sampleTable)
    f'.entries.map IPFilterEntry.range=sampleTable.entries.map IPFilterEntry.range ∧
      f'.entries6.map IPFilterEntry.range=sampleTable.entries6.map IPFilterEntry.range ∧
      ∀ address filterLevel,
        (f'.isFiltered address filterLevel).1=(sampleTable.isFiltered address filterLevel).1 := by
  let f := sampleTable
  let addr := fullAddressText
  -- one evaluation of the table answers every question about it
  have htable : (f.entries.length < 2 ∧ f.entries6.length < 2 ∧
      (∀ e∈f.entries6,e.start≤e.stop) ∧ (∀ e∈f.entries,e.level.toNat<1000) ∧
      ∀ e∈f.entries6,e.level.toNat<1000) ∧ (∀ text∈f.texts addr,newline∉text.dropLast) ∧
      (∀ text∈(f.texts addr).dropLast,text.length≤255) ∧
      (∀ e∈f.entries.head?,¬(0x3E∈e.text.take 255 ∧ 0x3C∈e.text.take 255)) ∧
      ∀ e∈f.entries6,∀ ip∈[e.start,e.stop],addr.fromString (addr.toString (.ipv6 ip))=.ipv6 ip := by
    decide +kernel
  obtain ⟨⟨h4,h6,hranges6,hlevels,hlevels6⟩,hunbroken,hfits,huntagged,hreadable⟩ := htable
  exact loadFromDefaultFile_saveToFile addr fullAddressText_family
    (fun ip => (ipv6Text_length ip.bytes).trans (by rw [ip.size])) f (Or.inl h4) (Or.inl h6)
    hranges6 hlevels hlevels6 ⟨hunbroken,hfits,huntagged,hreadable⟩

/-- Two ranges, the first with 213 bytes of description: its line is one byte longer than the
buffer holds. -/
def overlongTable : IPFilter :=
  loadLines fullAddressText (lit "1.0.0.0 - 1.0.0.1 , 100 , " ++ List.replicate 213 0x61 ++
    lit "\n2.0.0.0 - 2.0.0.1 , 100 , x\n")

theorem lit_stringOf (bytes : QString) :
    lit (stringOf bytes)=bytes.map fun u => UInt16.ofNat (Char.ofNat u.toNat).toNat := by
  rw [lit,stringOf,String.toList_ofList,List.map_map]
  rfl

set_option maxRecDepth 10000 in
theorem overlongTable_entries : overlongTable.entries6=[] ∧ overlongTable.entries =
    [⟨0x01000000,0x01000001,100,0,stringOf (List.replicate 213 0x61)⟩,
      ⟨0x02000000,0x02000001,100,0,stringOf (lit "x")⟩] := ⟨rfl,rfl⟩

set_option maxRecDepth 10000 in
theorem saveToFile_overlongTable : saveToFile fullAddressText overlongTable =
    lit "1.0.0.0         - 1.0.0.1         , 100 , " ++ List.replicate 213 0x61 ++
      lit "2.0.0.0         - 2.0.0.1         , 100 , x\n" := by
  obtain ⟨h6,h4⟩ := overlongTable_entries
  simp only [saveToFile,IPFilter.texts,h6,h4,List.map_cons,List.map_nil,IPFilterEntry.text,lineText,
    lit_stringOf]
  decide +kernel

set_option maxRecDepth 10000 in
/-- Its newline is cut off, and the second range is read as the first one's description. -/
theorem overlong_range_lost :
    let f := overlongTable
    let f' := loadFromDefaultFile fullAddressText (saveToFile fullAddressText f)
    Merged f.entries ∧ Merged f.entries6 ∧ (∀ e∈f.entries,e.level.toNat<1000) ∧
      (∀ e∈f.entries6,e.level.toNat<1000) ∧
      f.entries.map IPFilterEntry.range =
        [(0x01000000, 0x01000001, 100),(0x02000000, 0x02000001, 100)] ∧
      f'.entries.map IPFilterEntry.range=[(0x01000000, 0x01000001, 100)] ∧
      (f.isFiltered (.ipv4 0x02000000) 127).1=true ∧
      (f'.isFiltered (.ipv4 0x02000000) 127).1=false := by
  obtain ⟨h6,h4⟩ := overlongTable_entries
  simp only [saveToFile_overlongTable,h4,h6]
  exact ⟨Or.inr ⟨by decide,by decide,by decide⟩,Or.inl (by decide),by decide,by simp,rfl,
    by decide +kernel⟩

end EmuleQt.IpFilter
