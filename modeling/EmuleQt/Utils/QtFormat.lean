import EmuleQt.Utils.QtText
import Mathlib.Data.List.DropRight
import Mathlib.Data.Nat.Digits.Lemmas

namespace EmuleQt.Utils.QString

/-- A `QStringLiteral` of ASCII characters. -/
def lit (s : String) : QString := s.toList.map fun c => UInt16.ofNat c.toNat

def percent : UInt16 := 0x25
def comma : UInt16 := 0x2C
def slash : UInt16 := 0x2F
def colon : UInt16 := 0x3A
def pipe : UInt16 := 0x7C

def digit? (u : UInt16) : Option Nat :=
  if 0x30≤u.toNat ∧ u.toNat≤0x39 then some (u.toNat-0x30) else none

/-- A code unit of a text, or a place marker with its number. -/
inductive Piece
  | unit (u : UInt16)
  | marker (n : Nat) (text : QString)
  deriving DecidableEq

/-- A percent sign and one digit or two are a marker. -/
def pieces : QString → List Piece
  | u :: a :: b :: rest =>
    if u = percent then
      match digit? a, digit? b with
      | some m, some n => .marker (10 * m + n) [u, a, b] :: pieces rest
      | some m, none => .marker m [u, a] :: pieces (b :: rest)
      | none, _ => .unit u :: pieces (a :: b :: rest)
    else .unit u :: pieces (a :: b :: rest)
  | [u, a] =>
    match digit? a with
    | some m => if u = percent then [.marker m [u, a]] else [.unit u, .unit a]
    | none => [.unit u, .unit a]
  | [u] => [.unit u]
  | [] => []

def Piece.text : Piece → QString
  | .unit u => [u]
  | .marker _ text => text

def Piece.number? : Piece → Option Nat
  | .unit _ => none
  | .marker n _ => if n=0 then none else some n

/-- The numbers of the markers `%1` to `%99`. -/
def markers (s : QString) : List Nat := (pieces s).filterMap Piece.number?

/-- `QString::arg` replaces the markers of the lowest number. -/
def arg (s x : QString) : QString :=
  match (markers s).min? with
  | none => s
  | some n => (pieces s).flatMap fun p => if p.number? = some n then x else p.text

/-- `QString::number`. -/
def number (n : Nat) : QString :=
  if n = 0 then [0x30] else (Nat.digits 10 n).reverse.map fun d => UInt16.ofNat (0x30 + d)

def isSpace (u : UInt16) : Bool :=
  decide (u.toNat = 0x20 ∨ (0x09 ≤ u.toNat ∧ u.toNat ≤ 0x0D) ∨ u.toNat = 0x85 ∨ u.toNat = 0xA0 ∨
    u.toNat = 0x1680 ∨ (0x2000 ≤ u.toNat ∧ u.toNat ≤ 0x200A) ∨ u.toNat = 0x2028 ∨
    u.toNat = 0x2029 ∨ u.toNat = 0x202F ∨ u.toNat = 0x205F ∨ u.toNat = 0x3000)

def trimmed (s : QString) : QString := (s.dropWhile isSpace).rdropWhile isSpace

/-- The number some digits are, most significant first. -/
def ofDigits (ds : List Nat) : Nat := ds.foldl (fun n d => 10*n+d) 0

def toULongLong (s : QString) : Option Nat :=
  let s := trimmed s
  let s := if s.head? = some 0x2B then s.tail else s
  match s.mapM digit? with
  | none => none
  | some ds => if ds ≠ [] ∧ ofDigits ds < 2 ^ 64 then some (ofDigits ds) else none

/-- Case folding, where it leads to ASCII: of the Kelvin sign and the long s as well. -/
def foldCase (u : UInt16) : UInt16 :=
  if 0x41≤u.toNat ∧ u.toNat≤0x5A then u+0x20
  else if u=0x212A then 0x6B
  else if u=0x17F then 0x73
  else u

/-- `startsWith` of a lower-case literal, `Qt::CaseInsensitive`. -/
def startsWithFold (s pre : QString) : Bool := pre.isPrefixOf (s.map foldCase)

/-- `contains` of a lower-case literal, `Qt::CaseInsensitive`. -/
def containsFold (s part : QString) : Bool := decide (part <:+: s.map foldCase)

/-- `toLower`, where it leads to ASCII. -/
def toLower (s : QString) : QString :=
  s.map fun u =>
    if 0x41 ≤ u.toNat ∧ u.toNat ≤ 0x5A then u + 0x20 else if u = 0x212A then 0x6B else u

variable {s pre post x : QString} {u : UInt16} {n : Nat}

theorem pieces_unit (h : u≠percent) (s : QString) : pieces (u::s) = .unit u::pieces s := by
  match s with
  | [] => rfl
  | [a] =>
    rw [pieces]
    cases digit? a with
    | none => rfl
    | some m =>
      dsimp only
      rw [if_neg h]
      rfl
  | a::b::rest => rw [pieces,if_neg h]

/-- No marker reaches from the text into what follows it. -/
def Closed (pre : QString) : Prop := ∀ s, pieces (pre ++ s) = pieces pre ++ pieces s

theorem closed_append (hpre : Closed pre) (hpost : Closed post) : Closed (pre++post) := by
  intro s
  rw [List.append_assoc,hpre,hpost,hpre,List.append_assoc]

theorem closed_of_units (h : ∀ u∈s,u≠percent) : Closed s := by
  intro t
  induction s with
  | nil => rfl
  | cons u s ih =>
    obtain ⟨hu,hs⟩ := List.forall_mem_cons.mp h
    rw [List.cons_append,pieces_unit hu,pieces_unit hu,ih hs,List.cons_append]

theorem markers_of_units (h : ∀ u∈s,u≠percent) : markers s=[] := by
  induction s with
  | nil => rfl
  | cons u s ih =>
    obtain ⟨hu,hs⟩ := List.forall_mem_cons.mp h
    have hrest := ih hs
    unfold markers at hrest ⊢
    rw [pieces_unit hu,List.filterMap_cons]
    exact hrest

theorem markers_append (h : Closed pre) (s : QString) :
    markers (pre++s)=markers pre++markers s := by
  unfold markers
  rw [h,List.filterMap_append]

theorem pieces_text (s : QString) : (pieces s).flatMap Piece.text=s := by
  induction s using pieces.induct <;>
    simp_all [pieces,Piece.text,List.flatMap_cons]

theorem closed_escape {a b : UInt16} (ha : a≠percent) (hb : b≠percent) :
    Closed [percent,a,b] := by
  intro s
  cases hfirst : digit? a with
  | none =>
    have hunits : Closed [a,b] := closed_of_units (by simp [ha,hb])
    have hpieces : ∀ t,pieces (percent::a::b::t) = .unit percent::pieces (a::b::t) := by
      intro t
      rw [pieces,if_pos rfl,hfirst]
    have hrest := hunits s
    rw [List.cons_append,List.cons_append,List.nil_append] at hrest
    rw [List.cons_append,List.cons_append,List.cons_append,List.nil_append,hpieces,hpieces,
      hrest,List.cons_append]
  | some m =>
    rw [List.cons_append,List.cons_append,List.cons_append,List.nil_append,pieces,pieces,
      if_pos rfl,if_pos rfl,hfirst]
    cases hsecond : digit? b with
    | none =>
      simp only [pieces_unit hb,List.cons_append]
      rfl
    | some n => rfl

theorem pieces_marker {d : UInt16} (hd : digit? d=some n)
    (hpost : ∀ v,post.head? = some v → digit? v=none) :
    pieces (percent::d::post) = .marker n [percent,d]::pieces post := by
  match post with
  | [] =>
    rw [pieces,hd]
    rfl
  | v::rest =>
    rw [pieces,if_pos rfl,hd,hpost v rfl]

theorem arg_at {d : UInt16} (hpre : Closed pre) (hd : digit? d=some n) (hn : n≠0)
    (hpost : ∀ v,post.head? = some v → digit? v=none)
    (hlow : ∀ m∈markers pre,n < m) (hhigh : ∀ m∈markers post,n < m) :
    arg (pre++percent::d::post) x=pre++x++post := by
  have hpieces : pieces (pre++percent::d::post) =
      pieces pre ++ .marker n [percent,d]::pieces post := by
    rw [hpre,pieces_marker hd hpost]
  have hnumber : (Piece.marker n [percent,d]).number? = some n := if_neg hn
  have hmarkers : markers (pre++percent::d::post)=markers pre++n::markers post := by
    unfold markers
    rw [hpieces,List.filterMap_append,List.filterMap_cons_some hnumber]
  have hmin : (markers (pre++percent::d::post)).min? = some n := by
    rw [hmarkers,List.min?_eq_some_iff]
    refine ⟨by simp,fun m hm => ?_⟩
    rcases List.mem_append.mp hm with hm | hm
    · exact (hlow m hm).le
    · rcases List.mem_cons.mp hm with rfl | hm
      · exact Nat.le_refl m
      · exact (hhigh m hm).le
  have hkeep : ∀ t : QString, (∀ m∈markers t,n < m) →
      ((pieces t).flatMap fun p => if p.number? = some n then x else p.text)=t := by
    intro t ht
    conv_rhs => rw [← pieces_text t]
    refine List.flatMap_congr fun p hp => if_neg fun hsame => ?_
    exact absurd (ht n (List.mem_filterMap.mpr ⟨p,hp,hsame⟩)) (Nat.lt_irrefl n)
  rw [arg,hmin]
  dsimp only
  rw [hpieces,List.flatMap_append,List.flatMap_cons,hkeep pre hlow,hkeep post hhigh,
    if_pos hnumber,List.append_assoc]

theorem digit?_ofNat {d : Nat} (h : d<10) : digit? (UInt16.ofNat (0x30+d))=some d := by
  have hvalue : (UInt16.ofNat (0x30+d)).toNat=0x30+d := by
    rw [UInt16.toNat_ofNat']
    omega
  rw [digit?,hvalue,if_pos (by omega),Nat.add_sub_cancel_left]

theorem isSpace_digit {d : Nat} (h : digit? u=some d) : isSpace u=false := by
  unfold digit? at h
  split_ifs at h with hrange
  unfold isSpace
  rw [decide_eq_false_iff_not]
  omega

theorem mapM_digit? {ds : List Nat} (h : ∀ d∈ds,d<10) :
    (ds.map fun d => UInt16.ofNat (0x30+d)).mapM digit? = some ds := by
  induction ds with
  | nil => rfl
  | cons d ds ih =>
    obtain ⟨hd,hds⟩ := List.forall_mem_cons.mp h
    rw [List.map_cons,List.mapM_cons,digit?_ofNat hd,ih hds]
    rfl

theorem ofDigits_reverse (ds : List Nat) : ofDigits ds.reverse=Nat.ofDigits 10 ds := by
  rw [ofDigits,List.foldl_reverse]
  induction ds with
  | nil => rfl
  | cons d ds ih =>
    rw [List.foldr_cons,ih,Nat.ofDigits_cons,Nat.add_comm]

theorem number_digits (n : Nat) : ∃ ds : List Nat, ds≠[] ∧ (∀ d∈ds,d<10) ∧
    number n=(ds.map fun d => UInt16.ofNat (0x30+d)) ∧ ofDigits ds=n := by
  by_cases hzero : n=0
  · exact ⟨[0],by simp,by simp,by rw [number,if_pos hzero]; rfl,hzero.symm⟩
  · refine ⟨(Nat.digits 10 n).reverse,?_,fun d hd => ?_,by rw [number,if_neg hzero],?_⟩
    · simpa [Nat.digits_eq_nil_iff_eq_zero] using hzero
    · exact Nat.digits_lt_base (by decide) (List.mem_reverse.mp hd)
    · rw [ofDigits_reverse,Nat.ofDigits_digits]

theorem number_digit (h : u∈number n) : ∃ d, digit? u=some d := by
  obtain ⟨ds,-,hsmall,hnumber,-⟩ := number_digits n
  rw [hnumber] at h
  obtain ⟨d,hd,rfl⟩ := List.mem_map.mp h
  exact ⟨d,digit?_ofNat (hsmall d hd)⟩

theorem number_length_le {k : Nat} (hk : 0<k) (h : n<10^k) : (number n).length≤k := by
  unfold number
  split_ifs
  · exact hk
  · rw [List.length_map,List.length_reverse]
    exact (Nat.digits_length_le_iff (by decide) n).mpr h

theorem number_ne_nil (n : Nat) : number n≠[] := by
  obtain ⟨ds,hne,-,hnumber,-⟩ := number_digits n
  rw [hnumber]
  simpa using hne

theorem trimmed_eq (hhead : ∀ v,s.head? = some v → isSpace v=false)
    (hlast : ∀ v,s.getLast? = some v → isSpace v=false) : trimmed s=s := by
  have hfront : s.dropWhile isSpace=s := by
    cases s with
    | nil => rfl
    | cons u s => rw [List.dropWhile_cons,if_neg (by simpa using hhead u rfl)]
  rw [trimmed,hfront,List.rdropWhile_eq_self_iff]
  intro hne
  simpa using hlast _ (List.getLast?_eq_some_getLast hne)

theorem trimmed_number (n : Nat) : trimmed (number n)=number n := by
  have hspace : ∀ v∈number n,isSpace v=false := fun v hv =>
    isSpace_digit (number_digit hv).choose_spec
  exact trimmed_eq (fun v hv => hspace v (List.mem_of_head? hv))
    (fun v hv => hspace v (List.mem_of_getLast? hv))

theorem number_head {u : UInt16} (hu : digit? u=none) (n : Nat) : (number n).head? ≠ some u := by
  intro hhead
  obtain ⟨d,hd⟩ := number_digit (List.mem_of_head? hhead)
  rw [hu] at hd
  cases hd

theorem toULongLong_number (h : n<2^64) : toULongLong (number n)=some n := by
  obtain ⟨ds,hne,hsmall,hnumber,hvalue⟩ := number_digits n
  unfold toULongLong
  dsimp only
  rw [trimmed_number,if_neg (number_head rfl n),hnumber,mapM_digit? hsmall]
  dsimp only
  rw [hvalue,if_pos ⟨hne,h⟩]

end EmuleQt.Utils.QString
