import EmuleQt.Utils.QtArg

namespace EmuleQt.Files

open Utils Utils.QString

def INT_MAX : Nat := 2147483647

def dot : UInt16 := 0x2E
def openParen : UInt16 := 0x28
def closeParen : UInt16 := 0x29

/-- `QString::lastIndexOf`. -/
def lastIndexOf (u : UInt16) : QString → Option Nat
  | [] => none
  | v :: s =>
    match lastIndexOf u s with
    | some i => some (i + 1)
    | none => if v = u then some 0 else none

/-- The zeros of the decimal digits of Unicode, as far as they are one code unit. -/
def zeroDigits : List Nat :=
  [0x30,0x660,0x6F0,0x7C0,0x966,0x9E6,0xA66,0xAE6,0xB66,0xBE6,0xC66,0xCE6,0xD66,0xDE6,
    0xE50,0xED0,0xF20,0x1040,0x1090,0x17E0,0x1810,0x1946,0x19D0,0x1A80,0x1A90,0x1B50,
    0x1BB0,0x1C40,0x1C50,0xA620,0xA8D0,0xA900,0xA9D0,0xA9F0,0xAA50,0xABF0,0xFF10]

/-- `QChar::isDigit`. -/
def isDigit (u : UInt16) : Bool :=
  zeroDigits.any fun first => decide (first ≤ u.toNat ∧ u.toNat ≤ first + 9)

/-- `QStringView::toInt` of digits: 0 if one is not ASCII, or the number does not fit. -/
def toInt (digits : QString) : Nat :=
  match digits.mapM digit? with
  | some ds => if ofDigits ds ≤ INT_MAX then ofDigits ds else 0
  | none => 0

namespace FileMoveThread

/-- What a candidate is made of: `count` is the number the name ends in already. -/
structure Parts where
  dir : QString
  stem : QString
  ext : QString
  count : Nat

/-- A stem that ends in a number in brackets: what comes before it, and the number. -/
def numbered (stem : QString) : Option (QString × Nat) :=
  if stem.getLast? = some closeParen then
    match lastIndexOf openParen stem with
    | some bracket =>
      let digits := (stem.drop (bracket + 1)).take (stem.length - bracket - 2)
      if 0 < bracket ∧ digits ≠ [] ∧ digits.all isDigit = true then
        some (stem.take bracket, toInt digits)
      else none
    | none => none
  else none

/-- A name without its extension, and the extension with its dot. -/
def splitExt (name : QString) : QString × QString :=
  match lastIndexOf dot name with
  | some i => if 0 < i then (name.take i, name.drop i) else (name, [])
  | none => (name, [])

def parts (path : QString) : Parts :=
  let start := (lastIndexOf slash path).elim 0 (· + 1)
  let (stem, ext) := splitExt (path.drop start)
  match numbered stem with
  | some (stem, count) => ⟨path.take start, stem, ext, count⟩
  | none => ⟨path.take start, stem, ext, 0⟩

def candidate (p : Parts) (count : Nat) : QString :=
  arg (arg (argTwo (lit "%1%2(%3)%4") p.dir p.stem) (number count)) p.ext

/-- The loop, with so many steps left before `++count` overflows, which is undefined. -/
def nextFree (taken : QString → Bool) (p : Parts) : (left : Nat) → (count : Nat) → Option QString
  | 0, _ => none
  | left+1, count =>
    if taken (candidate p (count+1)) then nextFree taken p left (count+1)
    else some (candidate p (count+1))

/-- `none` where the behaviour is undefined. -/
def uniqueDestination (path : QString) (taken : QString → Bool) : Option QString :=
  if taken path then nextFree taken (parts path) (INT_MAX - (parts path).count) (parts path).count
  else some path

/-- The name with another number, in the same directory. -/
def Parts.beside (p : Parts) (m : Nat) : QString :=
  p.dir ++ p.stem ++ (openParen :: number m ++ closeParen :: p.ext)

/-- A path that is free: the one asked for, or one beside it. -/
structure Unique (path : QString) (taken : QString → Bool) (r : QString) : Prop where
  free : taken r = false
  named : r = path ∨ ∃ m, r = (parts path).beside m

variable {path s : QString} {taken : QString → Bool} {p : Parts} {left count n m : Nat}
  {u v d : UInt16}

/-- What the template is after the directory and the stem. -/
def template : QString := lit "(%3)%4"

theorem argTwo_template (x y : QString) : argTwo (lit "%1%2(%3)%4") x y=x++y++template := by
  have hpieces : pieces (lit "%1%2(%3)%4") =
      .marker 1 (lit "%1") :: .marker 2 (lit "%2")::pieces template := by decide
  have hfirst : (markers (lit "%1%2(%3)%4")).min? = some 1 := by decide
  have hsecond : ((markers (lit "%1%2(%3)%4")).filter fun n => decide (1<n)).min? = some 2 := by
    decide
  have hrest : (pieces template).flatMap (fun p =>
      if p.number? = some 1 then x else if p.number? = some 2 then y else p.text)=template := by
    conv_rhs => rw [← pieces_text template]
    refine List.flatMap_congr fun p hp => ?_
    have hnumber : p.number? ≠ some 1 ∧ p.number? ≠ some 2 := by
      revert p
      decide
    rw [if_neg hnumber.1,if_neg hnumber.2]
  rw [argTwo,hfirst]
  dsimp only
  rw [hsecond]
  dsimp only
  rw [hpieces,List.flatMap_cons,List.flatMap_cons,hrest]
  simp [Piece.number?]

theorem candidate_eq (p : Parts) (n : Nat) :
    candidate p n=arg (arg (p.dir++p.stem++template) (number n)) p.ext := by
  rw [candidate,argTwo_template]

theorem number_no_percent (n : Nat) : ∀ u∈number n,u≠percent := by
  intro u hu heq
  obtain ⟨d,hd⟩ := number_digit hu
  rw [heq] at hd
  cases hd

/-- What follows the stem once the number is in. -/
def numberedTail (n : Nat) : QString := openParen::(number n++closeParen::lit "%4")

theorem fill_template (n : Nat) : fill 3 (number n) (pieces template)=numberedTail n := by
  have hpieces : pieces template =
      [.unit openParen,.marker 3 (lit "%3"),.unit closeParen,.marker 4 (lit "%4")] := by decide
  rw [hpieces]
  simp [fill,Piece.number?,Piece.text,numberedTail]

theorem bracketed_no_percent (n : Nat) :
    ∀ u∈openParen::(number n++[closeParen]), u≠percent := by
  intro u hu
  rcases List.mem_cons.mp hu with rfl | hu
  · decide
  · rcases List.mem_append.mp hu with hu | hu
    · exact number_no_percent n u hu
    · rw [List.mem_singleton.mp hu]
      decide

theorem numberedTail_eq (n : Nat) :
    numberedTail n=openParen::(number n++[closeParen])++lit "%4" := by
  simp [numberedTail]

theorem markers_numberedTail (n : Nat) : markers (numberedTail n)=[4] := by
  rw [numberedTail_eq,markers_append (closed_of_units (bracketed_no_percent n)),
    markers_of_units (bracketed_no_percent n)]
  rfl

theorem fill_numberedTail (n : Nat) (x : QString) :
    fill 4 x (pieces (numberedTail n))=openParen::number n++closeParen::x := by
  have hnone : 4∉markers (openParen::(number n++[closeParen])) := by
    rw [markers_of_units (bracketed_no_percent n)]
    exact List.not_mem_nil
  have hlast : fill 4 x (pieces (lit "%4"))=x := by
    have hpieces : pieces (lit "%4")=[.marker 4 (lit "%4")] := by decide
    simp [hpieces,fill,Piece.number?]
  rw [numberedTail_eq,closed_of_units (bracketed_no_percent n),fill_append,fill_none hnone,hlast]
  simp

theorem template_head : ∀ v,template.head? = some v → digit? v=none := by
  intro v hv
  cases hv
  decide

theorem numberedTail_head (n : Nat) : ∀ v,(numberedTail n).head? = some v → digit? v=none := by
  intro v hv
  cases hv
  decide

theorem markers_min {s t : QString} (ht : ∀ v,t.head? = some v → digit? v=none)
    (hmem : n∈markers s++markers t) (hlow : ∀ k∈markers s++markers t,n≤k) :
    (markers (s++t)).min? = some n := by
  rw [markers_append_of_no_digit s ht,List.min?_eq_some_iff]
  exact ⟨hmem,hlow⟩

theorem arg_number (hlow : ∀ k∈markers s,3<k) (n : Nat) :
    arg (s++template) (number n)=s++numberedTail n := by
  have hmarkers : markers template=[3,4] := by decide
  have hmin : (markers (s++template)).min? = some 3 := by
    refine markers_min template_head (by simp [hmarkers]) fun k hk => ?_
    rcases List.mem_append.mp hk with hk | hk
    · exact Nat.le_of_lt (hlow k hk)
    · rw [hmarkers] at hk
      simp at hk
      omega
  have hnone : 3∉markers s := fun hmem => Nat.lt_irrefl 3 (hlow 3 hmem)
  rw [arg_eq hmin,pieces_append s template_head,fill_append,fill_none hnone,fill_template]

theorem arg_ext (hlow : ∀ k∈markers s,4≤k) (n : Nat) (x : QString) :
    arg (s++numberedTail n) x =
      fill 4 x (pieces s)++(openParen::number n++closeParen::x) := by
  have hmin : (markers (s++numberedTail n)).min? = some 4 := by
    refine markers_min (numberedTail_head n) (by simp [markers_numberedTail]) fun k hk => ?_
    rw [markers_numberedTail,List.mem_append,List.mem_singleton] at hk
    rcases hk with hk | rfl
    · exact hlow k hk
    · exact Nat.le_refl 4
  rw [arg_eq hmin,pieces_append s (numberedTail_head n),fill_append,fill_numberedTail]

theorem candidate_plain (hplain : ∀ k∈markers (p.dir++p.stem), 4<k) (n : Nat) :
    candidate p n=p.beside n := by
  have hnone : 4∉markers (p.dir++p.stem) := fun hmem => Nat.lt_irrefl 4 (hplain 4 hmem)
  rw [candidate_eq,arg_number (fun k hk => Nat.lt_of_succ_lt (hplain k hk)),
    arg_ext (fun k hk => Nat.le_of_lt (hplain k hk)),fill_none hnone]
  rfl

theorem changed_ne {pre pre' post' xs ys zs : QString} (hd : d≠percent) (hv : v≠percent)
    (h : pre++d::xs=pre'++percent::post') :
    pre'++v::ys≠pre++percent::zs := by
  induction pre generalizing pre' with
  | nil =>
    intro heq
    cases pre' with
    | nil => exact hd (List.cons.inj h).1
    | cons w pre' =>
      have hw : d=w := (List.cons.inj h).1
      exact hd (hw.trans (List.cons.inj heq).1)
  | cons w pre ih =>
    intro heq
    cases pre' with
    | nil =>
      have hw : w=percent := (List.cons.inj h).1
      exact hv ((List.cons.inj heq).1.trans hw)
    | cons w' pre' => exact ih (List.cons.inj h).2 (List.cons.inj heq).2

theorem number_head (n : Nat) : ∃ d ds, number n=d::ds ∧ d≠percent := by
  obtain ⟨d,ds,hnumber⟩ := List.exists_cons_of_ne_nil (number_ne_nil n)
  exact ⟨d,ds,hnumber,number_no_percent n d (hnumber ▸ List.mem_cons_self)⟩

theorem number_count (n : Nat) : (number n).count percent=0 :=
  List.count_eq_zero_of_not_mem fun hmem => number_no_percent n percent hmem rfl

theorem number_in_ne (hmem : n∈markers s) (hmin : (markers (s++template)).min? = some n)
    {e : QString} (count : Nat) (ys : QString) :
    arg (arg (s++template) (number count)) (dot::e)≠s++ys := by
  obtain ⟨d,ds,hnumber,hd⟩ := number_head count
  obtain ⟨pre,post,post',hs,hfill⟩ := fill_first hmem (number count)
  have hfirst : arg (s++template) (number count) =
      pre++d::(ds++post'++fill n (number count) (pieces template)) := by
    rw [arg_eq hmin,pieces_append s template_head,fill_append,hfill,hnumber]
    simp
  have hwanted : s++ys=pre++percent::(post++ys) := by
    rw [hs,List.append_assoc]
    rfl
  rw [hwanted]
  cases hnext : (markers (arg (s++template) (number count))).min? with
  | none =>
    rw [arg,hnext,hfirst]
    intro heq
    exact hd (List.cons.inj (List.append_cancel_left heq)).1
  | some k =>
    obtain ⟨pre',post'',ys',hsplit,hfill'⟩ := fill_first (List.min?_mem hnext) (dot::e)
    rw [arg_eq hnext,hfill',List.append_assoc]
    exact changed_ne hd (by decide) (hfirst.symm.trans hsplit)

theorem ext_in_ne (hmem : 4∈markers s) (hlow : ∀ k∈markers s,4≤k) {e : QString}
    (count : Nat) (ys : QString) :
    arg (s++numberedTail count) (dot::e)≠s++ys := by
  obtain ⟨pre,post,post',hs,hfill⟩ := fill_first hmem (dot::e)
  rw [arg_ext hlow,hfill,hs]
  intro heq
  simp only [List.append_assoc] at heq
  exact absurd (List.cons.inj (List.append_cancel_left heq)).1 (by decide)

theorem arg_count (hmin : (markers s).min? = some n) (x : QString) :
    (arg s x).count percent+(markers s).count n =
      s.count percent+(markers s).count n*x.count percent := by
  rw [arg_eq hmin]
  exact fill_count s n x

theorem arg_nil_count (hmem : n∈markers s) : ∃ k, k∈markers s ∧ (markers s).min? = some k ∧
    (arg s []).count percent+(markers s).count k=s.count percent := by
  cases hmin : (markers s).min? with
  | none =>
    rw [List.min?_eq_none_iff] at hmin
    rw [hmin] at hmem
    cases hmem
  | some k =>
    have hcount := arg_count hmin []
    exact ⟨k,List.min?_mem hmin,rfl,hcount⟩

theorem no_ext_count (hmem : 3∈markers s ∨ 4∈markers s) (hlow : ∀ k∈markers s,3≤k)
    (count : Nat) :
    (arg (arg (s++template) (number count)) []).count percent<s.count percent := by
  have hmarkers : markers template=[3,4] := by decide
  by_cases hthree : 3∈markers s
  · have hmin : (markers (s++template)).min? = some 3 := by
      refine markers_min template_head (List.mem_append_left _ hthree) fun k hk => ?_
      rw [hmarkers,List.mem_append] at hk
      rcases hk with hk | hk
      · exact hlow k hk
      · simp at hk
        omega
    have hfirst := arg_count hmin (number count)
    have hpos : 0<(markers s).count 3 := List.count_pos_iff.mpr hthree
    have hall : (s++template).count percent=s.count percent+2 := by
      rw [List.count_append]
      rfl
    rw [number_count,Nat.mul_zero,Nat.add_zero,hall,markers_append_of_no_digit s template_head,
      hmarkers,List.count_append] at hfirst
    have hfour : 4∈markers (arg (s++template) (number count)) := by
      rw [arg_eq hmin,pieces_append s template_head,fill_append,fill_template,
        markers_append_of_no_digit _ (numberedTail_head count),markers_numberedTail]
      exact List.mem_append_right _ List.mem_cons_self
    obtain ⟨k,hk,-,hsecond⟩ := arg_nil_count hfour
    have hkpos := List.count_pos_iff.mpr hk
    have hone : [3,4].count 3=1 := rfl
    omega
  · have hfour : 4∈markers s := hmem.resolve_left hthree
    have habove : ∀ k∈markers s,3<k := fun k hk =>
      Nat.lt_of_le_of_ne (hlow k hk) fun heq => hthree (heq ▸ hk)
    have hmin : (markers (s++numberedTail count)).min? = some 4 := by
      refine markers_min (numberedTail_head count) (List.mem_append_left _ hfour) fun k hk => ?_
      rw [markers_numberedTail,List.mem_append,List.mem_singleton] at hk
      rcases hk with hk | rfl
      · exact habove k hk
      · exact Nat.le_refl 4
    have hcount := arg_count hmin []
    have hpos := List.count_pos_iff.mpr hfour
    have hone : (numberedTail count).count percent=1 := by
      rw [numberedTail_eq,List.count_append,
        List.count_eq_zero_of_not_mem fun hm => bracketed_no_percent count percent hm rfl]
      rfl
    rw [markers_append_of_no_digit s (numberedTail_head count),markers_numberedTail,
      List.count_append,List.count_append,hone,List.count_nil] at hcount
    have hlast : [4].count 4=1 := rfl
    rw [arg_number habove]
    omega

theorem no_ext_last (hn : n<3)
    (hmin : (markers (s++template)).min? = some n) (count : Nat) :
    (arg (arg (s++template) (number count)) []).getLast? = some 0x34 := by
  have hmarkers : markers template=[3,4] := by decide
  have hnone : n∉markers template := by
    rw [hmarkers]
    simp
    omega
  have hpieces : pieces template =
      [.unit openParen,.marker 3 (lit "%3"),.unit closeParen]++[.marker 4 (lit "%4")] := by decide
  have hfirst : arg (s++template) (number count) =
      fill n (number count) (pieces s)++template := by
    rw [arg_eq hmin,pieces_append s template_head,fill_append,fill_none hnone]
  have hthree : 3∈markers (fill n (number count) (pieces s)++template) := by
    rw [markers_append_of_no_digit _ template_head,hmarkers]
    simp
  obtain ⟨k,-,hk,-⟩ := arg_nil_count hthree
  have hle : k≤3 := (List.min?_eq_some_iff.mp hk).2 3 hthree
  have hkept : fill k [] [.marker 4 (lit "%4")]=lit "%4" := by
    have hne : 4≠k := by omega
    simp [fill,Piece.number?,Piece.text,hne]
  rw [hfirst,arg_eq hk,pieces_append _ template_head,hpieces,fill_append,fill_append,hkept,
    List.getLast?_append,List.getLast?_append]
  rfl

theorem candidate_marked (hmem : n∈markers (p.dir++p.stem)) (hn : n≤4)
    (hext : p.ext=[] ∨ ∃ e, p.ext=dot::e) (count m : Nat) :
    candidate p count≠p.beside m := by
  obtain ⟨a,hmin⟩ := Option.ne_none_iff_exists'.mp fun hnone =>
    List.ne_nil_of_mem hmem (List.min?_eq_none_iff.mp hnone)
  obtain ⟨ha,hlow⟩ := List.min?_eq_some_iff.mp hmin
  have hle : a≤4 := Nat.le_trans (hlow n hmem) hn
  have hmarkers : markers template=[3,4] := by decide
  have hbefore : a≤3 → (markers (p.dir++p.stem++template)).min? = some a := by
    intro hthree
    refine markers_min template_head (List.mem_append_left _ ha) fun k hk => ?_
    rw [hmarkers,List.mem_append] at hk
    rcases hk with hk | hk
    · exact hlow k hk
    · simp at hk
      omega
  have habove : a=4 → ∀ k∈markers (p.dir++p.stem), 3<k := by
    intro hfour k hk
    have hlt := hlow k hk
    omega
  rw [candidate_eq]
  rcases hext with hext | ⟨e,hext⟩
  · rw [hext]
    by_cases hfirst : a<3
    · intro heq
      have hlast := no_ext_last hfirst (hbefore (Nat.le_of_lt hfirst)) count
      rw [heq,Parts.beside,hext,List.getLast?_append,List.getLast?_append] at hlast
      cases hlast
    · have hmem' : 3∈markers (p.dir++p.stem) ∨ 4∈markers (p.dir++p.stem) := by
        rcases (show a=3 ∨ a=4 by omega) with rfl | rfl
        · exact Or.inl ha
        · exact Or.inr ha
      have hless := no_ext_count hmem' (fun k hk => by have hlt := hlow k hk; omega) count
      intro heq
      rw [heq,Parts.beside,hext,List.count_append] at hless
      omega
  · rw [hext]
    by_cases hthree : a≤3
    · exact number_in_ne ha (hbefore hthree) count _
    · have hfour : a=4 := by omega
      rw [arg_number (habove hfour)]
      exact ext_in_ne (hfour ▸ ha) (fun k hk => habove hfour k hk) count _

theorem lastIndexOf_none (h : lastIndexOf u s=none) : u∉s := by
  induction s with
  | nil => exact List.not_mem_nil
  | cons v s ih =>
    rw [lastIndexOf] at h
    cases hrest : lastIndexOf u s with
    | some j =>
      rw [hrest] at h
      cases h
    | none =>
      rw [hrest] at h
      dsimp only at h
      split_ifs at h with hv
      exact fun hmem => (List.mem_cons.mp hmem).elim (fun heq => hv heq.symm) (ih hrest)

theorem lastIndexOf_some {i : Nat} (h : lastIndexOf u s=some i) :
    s.drop i=u::s.drop (i+1) ∧ u∉s.drop (i+1) := by
  induction s generalizing i with
  | nil => cases h
  | cons v s ih =>
    rw [lastIndexOf] at h
    cases hrest : lastIndexOf u s with
    | some j =>
      rw [hrest] at h
      cases h
      exact ih hrest
    | none =>
      rw [hrest] at h
      dsimp only at h
      split_ifs at h with hv
      cases h
      exact ⟨by rw [hv]; rfl,lastIndexOf_none hrest⟩

theorem toInt_le (digits : QString) : toInt digits≤INT_MAX := by
  unfold toInt
  split
  · split_ifs with hfits
    · exact hfits
    · exact Nat.zero_le _
  · exact Nat.zero_le _

theorem nextFree_spec (taken : QString → Bool) (p : Parts) (left count : Nat) :
    match nextFree taken p left count with
    | some r => ∃ n, count<n ∧ n≤count+left ∧ r=candidate p n ∧ taken r=false
    | none => ∀ n,count<n → n≤count+left → taken (candidate p n)=true := by
  induction left generalizing count with
  | zero =>
    intro n hlt hle
    omega
  | succ left ih =>
    have hrest := ih (count+1)
    rw [nextFree]
    by_cases htaken : taken (candidate p (count+1))=true
    · rw [if_pos htaken]
      cases hnext : nextFree taken p left (count+1) with
      | some r =>
        rw [hnext] at hrest
        obtain ⟨n,hlt,hle,hr,hfree⟩ := hrest
        exact ⟨n,by omega,by omega,hr,hfree⟩
      | none =>
        rw [hnext] at hrest
        intro n hlt hle
        rcases Nat.lt_or_ge (count+1) n with hmore | hsame
        · exact hrest n hmore (by omega)
        · have hn : n=count+1 := by omega
          rw [hn]
          exact htaken
    · rw [if_neg htaken]
      exact ⟨count+1,by omega,by omega,rfl,by simpa using htaken⟩

/-- How a path is taken apart; `old` is the number in brackets its stem ends in. -/
structure TakenApart (path : QString) (p : Parts) (old : QString) : Prop where
  whole : path=p.dir++p.stem++old++p.ext
  dir : p.dir=[] ∨ p.dir.getLast? = some slash
  name : slash∉p.stem++old++p.ext
  ext : p.ext=[] ∨ ∃ e, p.ext=dot::e ∧ dot∉e
  old : old=[] ∨ ∃ digits, digits≠[] ∧ digits.all isDigit=true ∧
    old=openParen::(digits++[closeParen])
  count : p.count≤INT_MAX

theorem splitExt_spec (name : QString) : name=(splitExt name).1++(splitExt name).2 ∧
    ((splitExt name).2=[] ∨ ∃ e, (splitExt name).2=dot::e ∧ dot∉e) := by
  unfold splitExt
  cases hdot : lastIndexOf dot name with
  | none => exact ⟨(List.append_nil name).symm,Or.inl rfl⟩
  | some i =>
    obtain ⟨hsplit,hnot⟩ := lastIndexOf_some hdot
    dsimp only
    split_ifs
    · exact ⟨(List.take_append_drop i name).symm,Or.inr ⟨name.drop (i+1),hsplit,hnot⟩⟩
    · exact ⟨(List.append_nil name).symm,Or.inl rfl⟩

theorem numbered_spec {stem bare : QString} (h : numbered stem=some (bare, count)) :
    count≤INT_MAX ∧ ∃ digits, digits≠[] ∧ digits.all isDigit=true ∧
      stem=bare++openParen::(digits++[closeParen]) := by
  unfold numbered at h
  split_ifs at h with hlast
  cases hopen : lastIndexOf openParen stem with
  | none =>
    rw [hopen] at h
    cases h
  | some i =>
    rw [hopen] at h
    dsimp only at h
    split_ifs at h with hnumeric
    cases h
    obtain ⟨hsplit,-⟩ := lastIndexOf_some hopen
    have hinside : i<stem.length := by
      by_contra hge
      rw [List.drop_eq_nil_of_le (by omega)] at hsplit
      cases hsplit
    have htail : (stem.drop i).getLast? = some closeParen := by
      rw [List.getLast?_drop,if_neg (by omega),hlast]
    obtain ⟨front,hfront⟩ := List.getLast?_eq_some_iff.mp htail
    rw [hsplit] at hfront
    cases front with
    | nil => cases hfront
    | cons w digits =>
      have hrest : stem.drop (i+1)=digits++[closeParen] := (List.cons.inj hfront).2
      have hlen := congrArg List.length hrest
      rw [List.length_drop,List.length_append,List.length_singleton] at hlen
      have hdigits : (stem.drop (i+1)).take (stem.length-i-2)=digits := by
        rw [hrest,List.take_append_of_le_length (by omega),List.take_of_length_le (by omega)]
      rw [hdigits] at hnumeric
      refine ⟨toInt_le _,digits,hnumeric.2.1,hnumeric.2.2,?_⟩
      rw [← hrest,← hsplit,List.take_append_drop]

theorem slash_spec (path : QString) :
    (path.take ((lastIndexOf slash path).elim 0 (· + 1))=[] ∨
        (path.take ((lastIndexOf slash path).elim 0 (· + 1))).getLast? = some slash) ∧
      slash∉path.drop ((lastIndexOf slash path).elim 0 (· + 1)) := by
  cases hslash : lastIndexOf slash path with
  | none => exact ⟨Or.inl rfl,lastIndexOf_none hslash⟩
  | some i =>
    obtain ⟨hsplit,hnot⟩ := lastIndexOf_some hslash
    refine ⟨Or.inr ?_,hnot⟩
    rw [Option.elim_some,List.take_add,hsplit,List.getLast?_append]
    rfl

theorem parts_takenApart (path : QString) : ∃ old, TakenApart path (parts path) old := by
  obtain ⟨hdir,hname⟩ := slash_spec path
  unfold parts
  generalize (lastIndexOf slash path).elim 0 (· + 1)=start at *
  obtain ⟨hwhole,hext⟩ := splitExt_spec (path.drop start)
  have hpath : path=path.take start++((splitExt (path.drop start)).1 ++
      (splitExt (path.drop start)).2) := by
    rw [← hwhole,List.take_append_drop]
  rw [hwhole] at hname
  dsimp only
  cases hnumbered : numbered (splitExt (path.drop start)).1 with
  | none =>
    refine ⟨[],?_,hdir,?_,hext,Or.inl rfl,Nat.zero_le _⟩
    · simpa using hpath
    · simpa using hname
  | some r =>
    obtain ⟨hcount,digits,hne,hdigits,hstem⟩ := numbered_spec hnumbered
    rw [hstem] at hname
    refine ⟨openParen::(digits++[closeParen]),?_,hdir,hname,hext,
      Or.inr ⟨digits,hne,hdigits,rfl⟩,hcount⟩
    rw [hstem] at hpath
    simpa using hpath

/-- The loop meets its purpose exactly where the path is free, or where no marker up to four stands
in the directory or the stem and a number that fits is free. -/
theorem uniqueDestination_unique_iff (path : QString) (taken : QString → Bool) :
    (∃ old, TakenApart path (parts path) old) ∧
      ((∃ r, uniqueDestination path taken = some r ∧ Unique path taken r) ↔
        taken path = false ∨ (∀ k ∈ markers ((parts path).dir ++ (parts path).stem), 4 < k) ∧
          ∃ n, (parts path).count < n ∧ n ≤ INT_MAX ∧ taken ((parts path).beside n) = false) := by
  obtain ⟨old,hparts⟩ := parts_takenApart path
  have hloop := nextFree_spec taken (parts path) (INT_MAX-(parts path).count) (parts path).count
  have hlast : (parts path).count+(INT_MAX-(parts path).count)=INT_MAX :=
    Nat.add_sub_cancel' hparts.count
  rw [hlast] at hloop
  refine ⟨⟨old,hparts⟩,?_⟩
  by_cases htaken : taken path=true
  · have hrun : uniqueDestination path taken =
        nextFree taken (parts path) (INT_MAX-(parts path).count) (parts path).count :=
      if_pos htaken
    rw [hrun]
    constructor
    · rintro ⟨r,hr,hfree,hnamed⟩
      rw [hr] at hloop
      obtain ⟨n,hlt,hle,hcandidate,-⟩ := hloop
      rcases hnamed with hsame | ⟨m,hm⟩
      · rw [hsame,htaken] at hfree
        cases hfree
      · have hplain : ∀ k∈markers ((parts path).dir++(parts path).stem), 4<k := by
          intro k hk
          by_contra hge
          exact candidate_marked hk (by omega) (hparts.ext.imp_right fun ⟨e,he,_⟩ => ⟨e,he⟩) n m
            (hcandidate.symm.trans hm)
        rw [hcandidate,candidate_plain hplain] at hfree
        exact Or.inr ⟨hplain,n,hlt,hle,hfree⟩
    · rintro (hfree | ⟨hplain,n,hlt,hle,hfree⟩)
      · rw [htaken] at hfree
        cases hfree
      · cases hnext : nextFree taken (parts path) (INT_MAX-(parts path).count)
            (parts path).count with
        | none =>
          rw [hnext] at hloop
          have hall := hloop n hlt hle
          rw [candidate_plain hplain,hfree] at hall
          cases hall
        | some r =>
          rw [hnext] at hloop
          obtain ⟨k,-,-,hcandidate,hr⟩ := hloop
          exact ⟨r,rfl,hr,Or.inr ⟨k,hcandidate.trans (candidate_plain hplain k)⟩⟩
  · have hfree : taken path=false := by simpa using htaken
    exact ⟨fun _ => Or.inl hfree,fun _ => ⟨path,if_neg htaken,hfree,Or.inl rfl⟩⟩

/-- A marker in the name takes the number, and the extension goes where the number belongs. -/
theorem percentName_not_unique : ¬∀ (path : QString) (taken : QString → Bool),
    {q | taken q = true}.Finite →
      ∃ r, uniqueDestination path taken = some r ∧ Unique path taken r := by
  intro h
  have hfinite : {q : QString | decide (q=lit "/in/a%1.avi")=true}.Finite := by simp
  obtain ⟨r,hr,-,hnamed⟩ := h (lit "/in/a%1.avi") (fun q => decide (q=lit "/in/a%1.avi")) hfinite
  have hrun : uniqueDestination (lit "/in/a%1.avi") (fun q => decide (q=lit "/in/a%1.avi")) =
      some (lit "/in/a1(.avi)%4") := by decide
  rw [hrun] at hr
  cases hr
  rcases hnamed with hsame | ⟨m,hm⟩
  · revert hsame
    decide
  · have hends := congrArg List.getLast? hm
    have hext : (parts (lit "/in/a%1.avi")).ext=lit ".avi" := by decide
    have hlast : (closeParen::lit ".avi").getLast? = some 0x69 := by decide
    rw [Parts.beside,hext,List.getLast?_append,List.getLast?_append,hlast,Option.some_or,
      Option.some_or] at hends
    revert hends
    decide

end FileMoveThread

end EmuleQt.Files
