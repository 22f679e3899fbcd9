import EmuleQt.Net.HostPort
import EmuleQt.Utils.TextCodings

namespace EmuleQt.Net

open Utils Utils.QString

/-- Four decimal numbers. -/
def ipv4Text (ip : UInt32) : QString :=
  [0x2E].intercalate [number (ip.toNat/2^24),number (ip.toNat/2^16%2^8),
    number (ip.toNat/2^8%2^8),number (ip.toNat%2^8)]

def hexDigit (n : Nat) : UInt16 := UInt16.ofNat (if n<10 then 0x30+n else 0x57+n)

def hexPair (b : UInt8) : QString := [hexDigit (b.toNat/16),hexDigit (b.toNat%16)]

/-- Groups of two bytes, no digit left out. -/
def ipv6Text : List UInt8 → QString
  | a::b::c::rest => hexPair a++hexPair b++colon::ipv6Text (c::rest)
  | [a,b] => hexPair a++hexPair b
  | [a] => hexPair a
  | [] => []

def octet? (s : QString) : Option Nat :=
  match s.mapM digit? with
  | some ds => if ds≠[] ∧ ofDigits ds<256 then some (ofDigits ds) else none
  | none => none

def readIPv4 (s : QString) : Option UInt32 :=
  match (s.splitOn 0x2E).mapM octet? with
  | some [a,b,c,d] => some (UInt32.ofNat (a*2^24+b*2^16+c*2^8+d))
  | _ => none

def readIPv6 (s : QString) : Address :=
  match base16Bytes (s.filter (· ≠ colon)) with
  | none => .none
  | some raw =>
    if h : raw.length=16 then
      if ipv6Text raw=s ∧ IPv6Bytes.isMapped ⟨raw,h⟩ = false then .ipv6 ⟨raw,h⟩ else .none
    else .none

theorem octet?_number {n : Nat} (h : n<256) : octet? (number n)=some n := by
  obtain ⟨ds,hne,hsmall,hnumber,hvalue⟩ := number_digits n
  rw [octet?,hnumber,mapM_digit? hsmall]
  dsimp only
  rw [hvalue,if_pos ⟨hne,h⟩]

theorem readIPv4_ipv4Text (ip : UInt32) : readIPv4 (ipv4Text ip)=some ip := by
  have hip := ip.toNat_lt
  have hdot : ∀ n,(0x2E : UInt16)∉number n := fun n hmem =>
    absurd (number_units hmem) (by decide)
  have hsplit : (ipv4Text ip).splitOn 0x2E =
      [number (ip.toNat/2^24),number (ip.toNat/2^16%2^8),
        number (ip.toNat/2^8%2^8),number (ip.toNat%2^8)] :=
    List.splitOn_intercalate 0x2E (by simp [hdot]) (by simp)
  have hvalue : ip.toNat/2^24*2^24+ip.toNat/2^16%2^8*2^16 +
      ip.toNat/2^8%2^8*2^8+ip.toNat%2^8=ip.toNat := by omega
  have hoctets : [number (ip.toNat/2^24),number (ip.toNat/2^16%2^8),
      number (ip.toNat/2^8%2^8),number (ip.toNat%2^8)].mapM octet? =
      some [ip.toNat/2^24,ip.toNat/2^16%2^8,ip.toNat/2^8%2^8,
        ip.toNat%2^8] := by
    rw [List.mapM_cons,List.mapM_cons,List.mapM_cons,List.mapM_cons,List.mapM_nil,
      octet?_number (by omega),octet?_number (by omega),octet?_number (by omega),
      octet?_number (by omega)]
    rfl
  rw [readIPv4,hsplit,hoctets]
  dsimp only
  rw [hvalue,UInt32.ofNat_toNat]

theorem hexDigit_units : ∀ n<16,hexCharValue (hexDigit n)=some n ∧ hexDigit n≠colon ∧
    hexDigit n≠0x2E ∧ ((0x30≤(hexDigit n).toNat ∧ (hexDigit n).toNat≤0x39) ∨
      (0x61≤(hexDigit n).toNat ∧ (hexDigit n).toNat≤0x66)) := by
  decide

theorem base16Bytes_hexPair (b : UInt8) (rest : QString) :
    base16Bytes (hexPair b++rest)=(base16Bytes rest).map (b :: ·) := by
  obtain ⟨hhi,hlo,hb⟩ := byte_halves b
  rw [hexPair,List.cons_append,List.cons_append,List.nil_append,base16Bytes,
    (hexDigit_units _ hhi).1,(hexDigit_units _ hlo).1]
  dsimp only
  rw [hb]

theorem filter_hexPair (b : UInt8) : (hexPair b).filter (· ≠ colon)=hexPair b := by
  obtain ⟨hhi,hlo,-⟩ := byte_halves b
  refine List.filter_eq_self.mpr fun u hu => ?_
  rcases List.mem_pair.mp hu with rfl | rfl
  · simpa using (hexDigit_units _ hhi).2.1
  · simpa using (hexDigit_units _ hlo).2.1

theorem base16Bytes_ipv6Text (raw : List UInt8) :
    base16Bytes ((ipv6Text raw).filter (· ≠ colon))=some raw := by
  induction raw using ipv6Text.induct with
  | case1 a b c rest ih =>
    rw [ipv6Text,List.filter_append,List.filter_append,filter_hexPair,filter_hexPair,
      List.filter_cons_of_neg (by simp),List.append_assoc,base16Bytes_hexPair,
      base16Bytes_hexPair,ih]
    rfl
  | case2 a b =>
    rw [ipv6Text,List.filter_append,filter_hexPair,filter_hexPair,base16Bytes_hexPair,
      ← List.append_nil (hexPair b),base16Bytes_hexPair]
    rfl
  | case3 a =>
    rw [ipv6Text,filter_hexPair,← List.append_nil (hexPair a),base16Bytes_hexPair]
    rfl
  | case4 => rfl

theorem ipv6Text_units {raw : List UInt8} {u : UInt16} (h : u∈ipv6Text raw) :
    ((0x30≤u.toNat ∧ u.toNat≤0x39) ∨ (0x61≤u.toNat ∧ u.toNat≤0x66) ∨ u=colon) ∧
      u≠0x2E := by
  have hpair : ∀ b : UInt8, u∈hexPair b →
      ((0x30≤u.toNat ∧ u.toNat≤0x39) ∨ (0x61≤u.toNat ∧ u.toNat≤0x66) ∨ u=colon) ∧
        u≠0x2E := by
    intro b hu
    obtain ⟨hhi,hlo,-⟩ := byte_halves b
    rcases List.mem_pair.mp hu with rfl | rfl
    · obtain ⟨-,-,hdot,hrange⟩ := hexDigit_units _ hhi
      exact ⟨hrange.imp_right Or.inl,hdot⟩
    · obtain ⟨-,-,hdot,hrange⟩ := hexDigit_units _ hlo
      exact ⟨hrange.imp_right Or.inl,hdot⟩
  induction raw using ipv6Text.induct with
  | case1 a b c rest ih =>
    rw [ipv6Text,List.mem_append,List.mem_append,List.mem_cons] at h
    rcases h with (h | h) | rfl | h
    · exact hpair a h
    · exact hpair b h
    · exact ⟨Or.inr (Or.inr rfl),by decide⟩
    · exact ih h
  | case2 a b =>
    rw [ipv6Text,List.mem_append] at h
    exact h.elim (hpair a) (hpair b)
  | case3 a => exact hpair a h
  | case4 => cases h

theorem ipv6Text_colon (ip : IPv6Bytes) : colon∈ipv6Text ip.bytes := by
  match hbytes : ip.bytes, ip.size with
  | a::b::c::rest, _ =>
    rw [ipv6Text]
    simp

theorem readIPv4_ipv6Text (raw : List UInt8) : readIPv4 (ipv6Text raw)=none := by
  have hsplit : (ipv6Text raw).splitOn 0x2E=[ipv6Text raw] :=
    List.splitOn_eq_singleton fun hdot => (ipv6Text_units hdot).2 rfl
  rw [readIPv4,hsplit,List.mapM_cons,List.mapM_nil]
  cases octet? (ipv6Text raw) <;> rfl

theorem readIPv6_ipv6Text (ip : IPv6Bytes) (h : ip.isMapped=false) :
    readIPv6 (ipv6Text ip.bytes) = .ipv6 ip := by
  rw [readIPv6,base16Bytes_ipv6Text]
  dsimp only
  rw [dif_pos ip.size,if_pos ⟨rfl,h⟩]

theorem ipv4Text_units {ip : UInt32} {u : UInt16} (h : u∈ipv4Text ip) :
    (0x30≤u.toNat ∧ u.toNat≤0x39) ∨ u=0x2E := by
  simp only [ipv4Text,List.intercalate_cons_cons,List.intercalate_singleton,List.mem_append,
    List.mem_singleton] at h
  rcases h with (h | h) | (h | h) | (h | h) | h
  all_goals
    first
      | exact Or.inl (number_units h)
      | exact Or.inr h

/-- Addresses written in full, as `QHostAddress` does when there is nothing to leave out. -/
def fullAddressText : AddressText where
  toString
    | .none => []
    | .ipv4 ip => ipv4Text ip
    | .ipv6 ip => ipv6Text ip.bytes
  fromString s :=
    match readIPv4 s with
    | some ip => if ip=0 then .none else .ipv4 ip
    | none => readIPv6 s
  ipv4_units ip u hu := ipv4Text_units hu
  ipv6_units ip u hu := by
    rcases (ipv6Text_units hu).1 with hdigit | hletter | rfl
    · exact Or.inl hdigit
    · exact Or.inr (Or.inl hletter)
    · exact Or.inr (Or.inr (Or.inr rfl))
  ipv6_colon := ipv6Text_colon
  fromString_nil := by decide
  fromString_ipv4 ip h := by
    dsimp only
    rw [readIPv4_ipv4Text]
    exact if_neg h
  fromString_ipv6 ip h := by
    dsimp only
    rw [readIPv4_ipv6Text]
    exact readIPv6_ipv6Text ip h

end EmuleQt.Net
