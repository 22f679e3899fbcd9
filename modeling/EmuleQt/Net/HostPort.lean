import EmuleQt.Net.Address
import EmuleQt.Utils.QtFormat
import Mathlib.Data.Bool.AllAny

namespace EmuleQt.Net

open Utils Utils.QString

def bracketOpen : UInt16 := 0x5B
def bracketClose : UInt16 := 0x5D

/-- `::ffff:a.b.c.d`, which reads back as an IPv4 address. -/
def IPv6Bytes.isMapped (ip : IPv6Bytes) : Bool :=
  decide (ip.bytes.take 12=[0,0,0,0,0,0,0,0,0,0,0xFF,0xFF])

/-- Addresses as `QHostAddress` writes and reads them. -/
structure AddressText where
  toString : Address → QString
  fromString : QString → Address
  ipv4_units : ∀ ip, ∀ u ∈ toString (.ipv4 ip), (0x30 ≤ u.toNat ∧ u.toNat ≤ 0x39) ∨ u = 0x2E
  ipv6_units : ∀ ip, ∀ u ∈ toString (.ipv6 ip), (0x30 ≤ u.toNat ∧ u.toNat ≤ 0x39) ∨
    (0x61 ≤ u.toNat ∧ u.toNat ≤ 0x66) ∨ u = 0x2E ∨ u = colon
  ipv6_colon : ∀ ip, colon ∈ toString (.ipv6 ip)
  fromString_nil : fromString [] = .none
  fromString_ipv4 : ∀ ip, ip ≠ 0 → fromString (toString (.ipv4 ip)) = .ipv4 ip
  fromString_ipv6 : ∀ ip, ip.isMapped = false → fromString (toString (.ipv6 ip)) = .ipv6 ip

def parsePortDigits (text : QString) : Option UInt16 :=
  if text = [] ∨ 5 < text.length then none
  else
    match text.mapM digit? with
    | none => none
    | some ds => if ofDigits ds ≤ 65535 then some (UInt16.ofNat (ofDigits ds)) else none

structure HostPort where
  host : QString
  port : UInt16
  hostIsLiteral : Bool
  deriving DecidableEq

variable (addr : AddressText)

def splitHostPort (trimmed : QString) (defaultPort : UInt16) : Option (QString × UInt16) :=
  if trimmed.head? = some bracketOpen then
    if bracketClose ∉ trimmed then none
    else
      let close := trimmed.idxOf bracketClose
      let hostPart := (trimmed.take close).drop 1
      let tail := trimmed.drop (close + 1)
      let port :=
        if tail = [] then some defaultPort
        else if tail.head? = some colon then parsePortDigits tail.tail
        else none
      if (addr.fromString hostPart).isIPv6 then port.map fun p => (hostPart, p) else none
  else if 2 ≤ trimmed.count colon then
    if (addr.fromString trimmed).isIPv6 then some (trimmed, defaultPort) else none
  else if colon ∉ trimmed then some (trimmed, defaultPort)
  else
    let at_ := trimmed.idxOf colon
    (parsePortDigits (trimmed.drop (at_ + 1))).map fun p => (trimmed.take at_, p)

def parseHostPort (text : QString) (defaultPort : UInt16) : Option HostPort :=
  match splitHostPort addr (trimmed text) defaultPort with
  | none => none
  | some (host, port) =>
    if trimmed text = [] ∨ host = [] ∨ port = 0 then none
    else some ⟨host, port, !(addr.fromString host).isNull⟩

def formatHostPort (host : QString) (port : UInt16) : QString :=
  if colon ∈ host then arg (arg (lit "[%1]:%2") host) (number port.toNat)
  else arg (arg (lit "%1:%2") host) (number port.toNat)

section RoundTrip

variable {host post : QString} {port d : UInt16} {addr : AddressText}

theorem parsePortDigits_number (port : UInt16) : parsePortDigits (number port.toNat)=some port := by
  obtain ⟨ds,-,hsmall,hnumber,hvalue⟩ := number_digits port.toNat
  have hport := port.toNat_lt
  have hlength : (number port.toNat).length≤5 := number_length_le (by decide) (by omega)
  have hshort : ¬ (number port.toNat=[] ∨ 5<(number port.toNat).length) := by
    rw [not_or]
    exact ⟨number_ne_nil _,by omega⟩
  rw [parsePortDigits,if_neg hshort,hnumber,mapM_digit? hsmall]
  dsimp only
  rw [hvalue,if_pos (by omega),UInt16.ofNat_toNat]

theorem number_units {n : Nat} {u : UInt16} (h : u∈number n) :
    0x30≤u.toNat ∧ u.toNat≤0x39 := by
  obtain ⟨d,hd⟩ := number_digit h
  unfold digit? at hd
  split_ifs at hd with hrange
  exact hrange

theorem arg_host_port (pre sep : QString) (hpre : ∀ u∈pre,u≠percent)
    (hsep : ∀ u∈sep,u≠percent) (hdigit : ∀ v,sep.head? = some v → digit? v=none)
    (hne : sep≠[]) (hhost : ∀ u∈host,u≠percent) :
    arg (arg (pre++percent::0x31::(sep++[percent,0x32])) host) (number port.toNat) =
      pre++host++sep++number port.toNat := by
  have htwo : markers [percent,0x32]=[2] := by decide
  have hpost : markers (sep++[percent,0x32])=[2] := by
    rw [markers_append (closed_of_units hsep),markers_of_units hsep,htwo]
    rfl
  have hfirst : arg (pre++percent::0x31::(sep++[percent,0x32])) host =
      pre++host++sep++[percent,0x32] := by
    rw [arg_at (n := 1) (closed_of_units hpre) (by decide) (by decide) (fun v hv => ?_)
      (by rw [markers_of_units hpre]; simp) (by rw [hpost]; simp),← List.append_assoc]
    rw [List.head?_append_of_ne_nil _ hne] at hv
    exact hdigit v hv
  have hunits : ∀ u∈pre++host++sep,u≠percent := by
    intro u hu
    rcases List.mem_append.mp hu with hu | hu
    · exact (List.mem_append.mp hu).elim (hpre u) (hhost u)
    · exact hsep u hu
  rw [hfirst,arg_at (n := 2) (closed_of_units hunits) (by decide) (by decide) (by simp)
    (by rw [markers_of_units hunits]; simp) (by decide),List.append_nil]

/-- A host as a token writes it: an IPv6 literal, or text without a colon. -/
structure PlainHost (addr : AddressText) (host : QString) : Prop where
  ne_nil : host≠[]
  units : ∀ u∈host, u≠comma ∧ u≠pipe ∧ u≠percent ∧ u≠bracketOpen ∧ u≠bracketClose ∧
    isSpace u=false
  colon : colon∈host → (addr.fromString host).isIPv6=true

theorem formatHostPort_plain (h : PlainHost addr host) (hcolon : colon∉host) :
    formatHostPort host port=host++colon::number port.toNat := by
  have hlit : lit "%1:%2" = []++percent::0x31::([colon]++[percent,0x32]) := by decide
  rw [formatHostPort,if_neg hcolon,hlit,arg_host_port [] [colon] (by simp)
    (List.all_iff_forall_prop.mp (by decide)) (by rintro v ⟨⟩; decide) (by decide) fun u hu => (h.units u hu).2.2.1]
  simp

theorem formatHostPort_bracketed (h : PlainHost addr host) (hcolon : colon∈host) :
    formatHostPort host port =
      bracketOpen::(host++bracketClose::colon::number port.toNat) := by
  have hlit : lit "[%1]:%2" =
      [bracketOpen]++percent::0x31::([bracketClose,colon]++[percent,0x32]) := by decide
  rw [formatHostPort,if_pos hcolon,hlit,arg_host_port [bracketOpen] [bracketClose,colon]
    (List.all_iff_forall_prop.mp (by decide)) (List.all_iff_forall_prop.mp (by decide))
    (by rintro v ⟨⟩; decide) (by decide) fun u hu => (h.units u hu).2.2.1]
  simp

theorem isSpace_number {n : Nat} {u : UInt16} (h : u∈number n) : isSpace u=false :=
  isSpace_digit (number_digit h).choose_spec

theorem trimmed_token (h : PlainHost addr host) (port : UInt16) :
    trimmed (formatHostPort host port)=formatHostPort host port := by
  have hlast : ∀ (pre : QString) v, (pre++colon::number port.toNat).getLast? = some v →
      isSpace v=false := by
    intro pre v hv
    have hnumber : (colon::number port.toNat)=[colon]++number port.toNat := rfl
    rw [hnumber,← List.append_assoc,List.getLast?_append_of_ne_nil _ (number_ne_nil _)] at hv
    exact isSpace_number (List.mem_of_getLast? hv)
  by_cases hcolon : colon∈host
  · rw [formatHostPort_bracketed h hcolon]
    refine trimmed_eq (fun v hv => ?_) (fun v hv => ?_)
    · obtain rfl := Option.some.inj hv
      decide
    · have hsplit : bracketOpen::(host++bracketClose::colon::number port.toNat) =
          (bracketOpen::(host++[bracketClose]))++colon::number port.toNat := by simp
      rw [hsplit] at hv
      exact hlast _ v hv
  · rw [formatHostPort_plain h hcolon]
    refine trimmed_eq (fun v hv => ?_) (hlast host)
    rw [List.head?_append_of_ne_nil _ h.ne_nil] at hv
    exact (h.units v (List.mem_of_head? hv)).2.2.2.2.2

theorem idxOf_append_self {u : UInt16} {pre : QString} (h : u∉pre) (rest : QString) :
    (pre++u::rest).idxOf u=pre.length := by
  rw [List.idxOf_append_of_notMem h,List.idxOf_cons_self,Nat.add_zero]

/-- The host and the port of a token. -/
theorem splitHostPort_token (h : PlainHost addr host) (port defaultPort : UInt16) :
    splitHostPort addr (formatHostPort host port) defaultPort=some (host, port) := by
  by_cases hcolon : colon∈host
  · rw [formatHostPort_bracketed h hcolon]
    have hclose : bracketClose∉bracketOpen::host := by
      intro hmem
      rcases List.mem_cons.mp hmem with hopen | hmem
      · exact absurd hopen (by decide)
      · exact (h.units _ hmem).2.2.2.2.1 rfl
    have hindex : (bracketOpen::(host++bracketClose::colon::number port.toNat)).idxOf
        bracketClose=(bracketOpen::host).length :=
      idxOf_append_self hclose (colon::number port.toNat)
    have htake : (bracketOpen::(host++bracketClose::colon::number port.toNat)).take
        (bracketOpen::host).length=bracketOpen::host :=
      @List.take_left' _ (bracketOpen::host) _ _ rfl
    have hdrop : (bracketOpen::(host++bracketClose::colon::number port.toNat)).drop
        ((bracketOpen::host).length+1)=colon::number port.toNat := by
      have hsplit : bracketOpen::(host++bracketClose::colon::number port.toNat) =
          (bracketOpen::(host++[bracketClose]))++colon::number port.toNat := by simp
      rw [hsplit]
      exact List.drop_left' (by simp)
    unfold splitHostPort
    dsimp only
    rw [List.head?_cons,if_pos rfl,if_neg (by simp),hindex,htake,hdrop,List.drop_one,
      List.tail_cons,if_pos (h.colon hcolon),if_neg (List.cons_ne_nil _ _),List.head?_cons,
      if_pos rfl,List.tail_cons,parsePortDigits_number,Option.map_some]
  · have hdigits : colon∉number port.toNat := by
      intro hmem
      exact absurd (number_units hmem) (by decide)
    have hcount : (host++colon::number port.toNat).count colon=1 := by
      rw [List.count_append,List.count_eq_zero.mpr hcolon,List.count_cons_self,
        List.count_eq_zero.mpr hdigits]
    have hopen : (host++colon::number port.toNat).head? ≠ some bracketOpen := by
      rw [List.head?_append_of_ne_nil _ h.ne_nil]
      intro hhead
      exact (h.units _ (List.mem_of_head? hhead)).2.2.2.1 rfl
    have hdrop : (host++colon::number port.toNat).drop (host.length+1) =
        number port.toNat := by
      have hsplit : host++colon::number port.toNat=(host++[colon])++number port.toNat := by
        simp
      rw [hsplit]
      exact List.drop_left' (by simp)
    rw [formatHostPort_plain h hcolon]
    unfold splitHostPort
    dsimp only
    rw [if_neg hopen,hcount,if_neg (by decide),if_neg (by simp),idxOf_append_self hcolon,hdrop,
      List.take_left,parsePortDigits_number,Option.map_some]

theorem parseHostPort_formatHostPort (h : PlainHost addr host) (hport : port≠0)
    (defaultPort : UInt16) : parseHostPort addr (formatHostPort host port) defaultPort =
      some ⟨host,port,!(addr.fromString host).isNull⟩ := by
  have hne : formatHostPort host port≠[] := by
    by_cases hcolon : colon∈host
    · rw [formatHostPort_bracketed h hcolon]
      exact List.cons_ne_nil _ _
    · rw [formatHostPort_plain h hcolon]
      simp
  unfold parseHostPort
  rw [trimmed_token h,splitHostPort_token h]
  dsimp only
  rw [if_neg (by simp [hne,h.ne_nil,hport])]

theorem formatHostPort_units (h : PlainHost addr host) {u : UInt16}
    (hu : u∈formatHostPort host port) : u≠comma ∧ u≠pipe ∧ u≠percent := by
  have hnumber : u∈number port.toNat → u≠comma ∧ u≠pipe ∧ u≠percent := by
    intro hmem
    have hrange := number_units hmem
    refine ⟨?_,?_,?_⟩ <;>
    · rintro rfl
      revert hrange
      decide
  have hhost : u∈host → u≠comma ∧ u≠pipe ∧ u≠percent := fun hmem =>
    ⟨(h.units u hmem).1,(h.units u hmem).2.1,(h.units u hmem).2.2.1⟩
  by_cases hcolon : colon∈host
  · rw [formatHostPort_bracketed h hcolon] at hu
    simp only [List.mem_cons,List.mem_append] at hu
    rcases hu with rfl | hmem | rfl | rfl | hmem
    · decide
    · exact hhost hmem
    · decide
    · decide
    · exact hnumber hmem
  · rw [formatHostPort_plain h hcolon] at hu
    simp only [List.mem_cons,List.mem_append] at hu
    rcases hu with hmem | rfl | hmem
    · exact hhost hmem
    · decide
    · exact hnumber hmem

end RoundTrip

end EmuleQt.Net
