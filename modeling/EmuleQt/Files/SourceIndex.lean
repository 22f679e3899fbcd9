import EmuleQt.Client.DeadSourceKey
import EmuleQt.Framework.KeyIndex
import EmuleQt.Framework.Run

namespace EmuleQt.Files

open Client Crypto Framework Math Net Protocol

/-- The fields of an `UpDownClient` that say which peer it is. -/
structure ClientIdentity where
  userHash : MD4Hash
  userAddress : Address
  userPort : UInt16
  kadPort : UInt16
  userIDHybrid : UInt32
  serverAddress : Address
  serverPort : UInt16
  userIPv6 : Address
  deriving DecidableEq

namespace ClientIdentity

def hasValidHash (a : ClientIdentity) : Bool := decide (a.userHash ≠ Digest.zero 16)

def hasLowID (a : ClientIdentity) : Bool := isLowID a.userIDHybrid.toNat

def SharesPort (a b : ClientIdentity) : Prop :=
  (a.userPort≠0 ∧ a.userPort=b.userPort) ∨ (a.kadPort≠0 ∧ a.kadPort=b.kadPort)

instance instDecidableSharesPort (a b : ClientIdentity) : Decidable (SharesPort a b) :=
  inferInstanceAs (Decidable (_ ∨ _))

def SharesServer (a b : ClientIdentity) : Prop :=
  a.userIDHybrid≠0 ∧ a.userIDHybrid=b.userIDHybrid ∧ a.serverAddress.isNull=false ∧
    a.serverAddress=b.serverAddress ∧ a.serverPort≠0 ∧ a.serverPort=b.serverPort

instance instDecidableSharesServer (a b : ClientIdentity) : Decidable (SharesServer a b) :=
  inferInstanceAs (Decidable (_ ∧ _ ∧ _ ∧ _ ∧ _ ∧ _))

/-- `a.compare(b, ignoreUserHash)` -/
def compare (a b : ClientIdentity) (ignoreUserHash : Bool) : Bool :=
  if ignoreUserHash = false ∧ a.hasValidHash ∧ b.hasValidHash then
    decide (a.userHash = b.userHash)
  else if a.hasLowID then
    decide ((a.userAddress.isNull = false ∧ a.userAddress = b.userAddress ∧ SharesPort a b) ∨
      SharesServer a b)
  else if SharesPort a b then
    -- one family on both sides, or the ID decides
    if a.userAddress.isNull = false ∧ b.userAddress.isNull = false ∧
        a.userAddress.isIPv4 = b.userAddress.isIPv4 then
      decide (a.userAddress = b.userAddress)
    else decide (a.userIDHybrid = b.userIDHybrid)
  else false

/-- An IPv6 address with the same TCP port. -/
def SharesIPv6 (a b : ClientIdentity) : Prop :=
  a.userIPv6.isNull=false ∧ a.userIPv6=b.userIPv6 ∧ a.userPort≠0 ∧ a.userPort=b.userPort

instance instDecidableSharesIPv6 (a b : ClientIdentity) : Decidable (SharesIPv6 a b) :=
  inferInstanceAs (Decidable (_ ∧ _ ∧ _ ∧ _))

/-- `isSamePeer` of two clients that are not one object. -/
def samePeer (source candidate : ClientIdentity) : Bool :=
  source.compare candidate true || source.compare candidate false ||
    decide (SharesIPv6 source candidate)

end ClientIdentity

/-- The finalizer of splitmix64. -/
def mix (x : UInt64) : UInt64 :=
  let x := x + 0x9E3779B97F4A7C15
  let x := (x ^^^ (x >>> 30)) * 0xBF58476D1CE4E5B9
  let x := (x ^^^ (x >>> 27)) * 0x94D049BB133111EB
  x ^^^ (x >>> 31)

def makeKey (kind a b c : UInt64) : UInt64 := mix (mix (mix (mix kind ^^^ a) ^^^ b) ^^^ c)

namespace SourceIndex

/-- A key is put once. -/
def put (keys : List UInt64) (wanted : Bool × UInt64) : List UInt64 :=
  if wanted.1 = true ∧ wanted.2 ∉ keys then keys ++ [wanted.2] else keys

variable (hash32 : UInt32 → UInt64)

def hashKey (c : ClientIdentity) : UInt64 :=
  makeKey 1 (UInt64.ofNat (leValue (c.userHash.bytes.take 8)))
    (UInt64.ofNat (leValue (c.userHash.bytes.drop 8))) 0

def addressKey (kind : UInt64) (addr : Address) (port : UInt16) : UInt64 :=
  makeKey kind (addressHash hash32 addr) port.toUInt64 0

def idKey (kind : UInt64) (id : UInt32) (port : UInt16) : UInt64 :=
  makeKey kind id.toUInt64 port.toUInt64 0

def serverKey (c : ClientIdentity) : UInt64 :=
  makeKey 6 c.userIDHybrid.toUInt64 (addressHash hash32 c.serverAddress) c.serverPort.toUInt64

/-- One for each way two clients can be the same peer, and whether it is put. -/
def ways (c : ClientIdentity) : List (Bool × UInt64) :=
  [(c.hasValidHash, hashKey c),
    (!c.userAddress.isNull && decide (c.userPort ≠ 0),
      addressKey hash32 2 c.userAddress c.userPort),
    (!c.userAddress.isNull && decide (c.kadPort ≠ 0), addressKey hash32 3 c.userAddress c.kadPort),
    -- two IDs of 0 match on an equal port, so 0 is filed like any other
    (decide (c.userPort ≠ 0), idKey 4 c.userIDHybrid c.userPort),
    (decide (c.kadPort ≠ 0), idKey 5 c.userIDHybrid c.kadPort),
    (decide (c.userIDHybrid ≠ 0) && !c.serverAddress.isNull && decide (c.serverPort ≠ 0),
      serverKey hash32 c),
    (!c.userIPv6.isNull && decide (c.userPort ≠ 0), addressKey hash32 7 c.userIPv6 c.userPort)]

def keysOf (c : ClientIdentity) : List UInt64 := (ways hash32 c).foldl put []

/-- The client can be known by a user hash, a port, or its ID at a server. -/
def Known (c : ClientIdentity) : Prop :=
  c.hasValidHash = true ∨ c.userPort ≠ 0 ∨ c.kadPort ≠ 0 ∨
    (c.userIDHybrid ≠ 0 ∧ c.serverAddress.isNull = false ∧ c.serverPort ≠ 0)

instance instDecidableKnown (c : ClientIdentity) : Decidable (Known c) :=
  inferInstanceAs (Decidable (_ ∨ _ ∨ _ ∨ _))

variable {hash32} {a b : ClientIdentity}

theorem mem_foldl_put {k : UInt64} {wanted : List (Bool × UInt64)} {keys : List UInt64} :
    k∈wanted.foldl put keys ↔ k∈keys ∨ (true, k)∈wanted := by
  induction wanted generalizing keys with
  | nil => simp
  | cons w wanted ih =>
    rw [List.foldl_cons,ih,List.mem_cons]
    unfold put
    split_ifs with h
    · obtain ⟨hwanted,-⟩ := h
      rw [List.mem_append,List.mem_singleton,or_assoc]
      refine or_congr_right (or_congr_left ?_)
      rw [← hwanted,Prod.ext_iff]
      simp
    · constructor
      · exact Or.imp_right .inr
      · rintro (hk | rfl | hk)
        · exact .inl hk
        · exact .inl (not_not.mp fun hnew => h ⟨rfl,hnew⟩)
        · exact .inr hk

theorem mem_keysOf {k : UInt64} {c : ClientIdentity} :
    k∈keysOf hash32 c ↔ (true, k)∈ways hash32 c := by
  rw [keysOf,mem_foldl_put]
  exact or_iff_right List.not_mem_nil

theorem keysOf_eq_nil : keysOf hash32 a=[] ↔ ¬ Known a := by
  have hall : keysOf hash32 a=[] ↔ ∀ w∈ways hash32 a,w.1=false := by
    rw [List.eq_nil_iff_forall_not_mem]
    simp only [mem_keysOf]
    constructor
    · rintro h ⟨wanted,key⟩ hw
      cases wanted with
      | false => rfl
      | true => exact absurd hw (h key)
    · intro h key hkey
      cases h (true, key) hkey
  rw [hall,ways,Known]
  simp only [List.forall_mem_cons,Bool.and_eq_false_iff,Bool.not_eq_false',
    decide_eq_false_iff_not,not_not,not_or,not_and,Bool.not_eq_true]
  constructor
  · rintro ⟨hhash,-,-,hport,hkad,hserver,-⟩
    refine ⟨hhash,hport,hkad,?_⟩
    intro hid hnull
    rcases hserver with (hserver | hserver) | hserver
    · exact absurd hserver hid
    · rw [hnull] at hserver
      cases hserver
    · exact hserver
  · rintro ⟨hhash,hport,hkad,hserver⟩
    refine ⟨hhash,.inr hport,.inr hkad,hport,hkad,?_,.inr hport,nofun⟩
    by_cases hid : a.userIDHybrid=0
    · exact .inl (.inl hid)
    cases hnull : a.serverAddress.isNull with
    | true => exact .inl (.inr rfl)
    | false => exact .inr (hserver hid hnull)

/-- Two clients share a key. -/
def SharesKey (hash32 : UInt32 → UInt64) (a b : ClientIdentity) : Prop :=
  ∃ k∈keysOf hash32 b, k∈keysOf hash32 a

theorem sharesKey_of_way (i : Fin 7) (key : UInt64)
    (ha : (ways hash32 a).get i=(true, key)) (hb : (ways hash32 b).get i=(true, key)) :
    SharesKey hash32 a b :=
  ⟨key,mem_keysOf.mpr (hb ▸ List.get_mem _ _),mem_keysOf.mpr (ha ▸ List.get_mem _ _)⟩

theorem sharesKey_of_hash (ha : a.hasValidHash=true) (h : a.userHash=b.userHash) :
    SharesKey hash32 a b := by
  have hb : b.hasValidHash=true := by
    unfold ClientIdentity.hasValidHash at ha ⊢
    rwa [← h]
  refine sharesKey_of_way 0 (hashKey a) (congrArg (·, hashKey a) ha) ?_
  change (b.hasValidHash, hashKey b)=_
  rw [hb,hashKey,hashKey,h]

theorem sharesKey_of_address (ha : a.userAddress.isNull=false)
    (h : a.userAddress=b.userAddress) (hport : a.SharesPort b) : SharesKey hash32 a b := by
  rcases hport with ⟨hne,heq⟩ | ⟨hne,heq⟩
  · apply sharesKey_of_way 1 (addressKey hash32 2 a.userAddress a.userPort)
    · simp [ways,ha,hne]
    · simp [ways,← h,← heq,ha,hne]
  · apply sharesKey_of_way 2 (addressKey hash32 3 a.userAddress a.kadPort)
    · simp [ways,ha,hne]
    · simp [ways,← h,← heq,ha,hne]

theorem sharesKey_of_id (h : a.userIDHybrid=b.userIDHybrid) (hport : a.SharesPort b) :
    SharesKey hash32 a b := by
  rcases hport with ⟨hne,heq⟩ | ⟨hne,heq⟩
  · apply sharesKey_of_way 3 (idKey 4 a.userIDHybrid a.userPort)
    · simp [ways,hne]
    · simp [ways,← h,← heq,hne]
  · apply sharesKey_of_way 4 (idKey 5 a.userIDHybrid a.kadPort)
    · simp [ways,hne]
    · simp [ways,← h,← heq,hne]

theorem sharesKey_of_server (h : a.SharesServer b) : SharesKey hash32 a b := by
  obtain ⟨hid,hsame,hnull,haddress,hport,hsameport⟩ := h
  apply sharesKey_of_way 5 (serverKey hash32 a)
  · simp [ways,hid,hnull,hport]
  · simp [ways,serverKey,← hsame,← haddress,← hsameport,hid,hnull,hport]

theorem sharesKey_of_ipv6 (h : a.SharesIPv6 b) : SharesKey hash32 a b := by
  obtain ⟨hnull,hsame,hport,hsameport⟩ := h
  apply sharesKey_of_way 6 (addressKey hash32 7 a.userIPv6 a.userPort)
  · simp [ways,hnull,hport]
  · simp [ways,← hsame,← hsameport,hnull,hport]

theorem sharesKey_of_compare {ignoreUserHash : Bool} (h : a.compare b ignoreUserHash=true) :
    SharesKey hash32 a b := by
  unfold ClientIdentity.compare at h
  split_ifs at h with hhash hlow hport haddress
  · exact sharesKey_of_hash hhash.2.1 (of_decide_eq_true h)
  · rcases of_decide_eq_true h with ⟨hnull,hsame,hport⟩ | hserver
    · exact sharesKey_of_address hnull hsame hport
    · exact sharesKey_of_server hserver
  · exact sharesKey_of_address haddress.1 (of_decide_eq_true h) hport
  · exact sharesKey_of_id (of_decide_eq_true h) hport

theorem sharesKey_of_samePeer (h : a.samePeer b=true) : SharesKey hash32 a b := by
  unfold ClientIdentity.samePeer at h
  rw [Bool.or_eq_true,Bool.or_eq_true,decide_eq_true_iff] at h
  rcases h with (h | h) | h
  · exact sharesKey_of_compare h
  · exact sharesKey_of_compare h
  · exact sharesKey_of_ipv6 h

end SourceIndex

open Crypto Framework Net

variable {ι : Type*} [DecidableEq ι]

/-- Who the clients are, the index over some of them, and which have changed since they were
filed. -/
structure Filing (ι : Type*) where
  who : ι → ClientIdentity
  index : KeyIndex UInt64 ι
  stale : List ι

inductive SourceCall (ι : Type*)
  | add (client : ι)
  | remove (client : ι)
  | rekey (client : ι)
  | clear
  | identify (client : ι) (now : ClientIdentity)

namespace Filing

variable (hash32 : UInt32 → UInt64)

def init (who : ι → ClientIdentity) : Filing ι := ⟨who, .empty, []⟩

def fresh (f : Filing ι) (client : ι) : List ι := f.stale.filter fun c => decide (c ≠ client)

def step (f : Filing ι) : SourceCall ι → Filing ι
  | .add client =>
    if f.index.contains client then f
    else { f with
      index := f.index.add client (SourceIndex.keysOf hash32 (f.who client))
      stale := f.fresh client }
  | .remove client => { f with index := f.index.remove client }
  | .rekey client => { f with
      index := f.index.rekey client (SourceIndex.keysOf hash32 (f.who client))
      stale := f.fresh client }
  | .clear => { f with index := f.index.clear }
  | .identify client now => { f with
      who := Function.update f.who client now
      stale := client :: f.stale }

def candidates (f : Filing ι) (probe : ι) : List ι :=
  f.index.candidates (SourceIndex.keysOf hash32 (f.who probe))

def isSamePeer (f : Filing ι) (source candidate : ι) : Bool :=
  decide (source = candidate) || (f.who source).samePeer (f.who candidate)

/-- Each client that is filed was filed or re-keyed after its last change. -/
def Rekeyed (f : Filing ι) : Prop := ∀ c∈f.stale, f.index.contains c=false

instance instDecidableRekeyed (f : Filing ι) : Decidable f.Rekeyed :=
  inferInstanceAs (Decidable (∀ c∈f.stale, _))

/-- The index is consistent, and has the keys of each client that has not changed since. -/
structure Kept (f : Filing ι) : Prop where
  consistent : f.index.Consistent
  current : ∀ c keys, f.index.filedUnder c = some keys → c ∉ f.stale →
    keys = SourceIndex.keysOf hash32 (f.who c)

variable {hash32} {f : Filing ι}

theorem mem_fresh {c client : ι} : c∈f.fresh client ↔ c∈f.stale ∧ c≠client := by
  simp [fresh]

theorem step_kept (h : f.Kept hash32) (call : SourceCall ι) : (f.step hash32 call).Kept hash32 := by
  cases call with
  | add client =>
    unfold step
    dsimp only
    split_ifs with hin
    · exact h
    have hnew : f.index.filedUnder client=none := by simpa [KeyIndex.contains] using hin
    refine ⟨KeyIndex.add_consistent h.consistent,?_⟩
    intro c keys hkeys hc
    dsimp only at hkeys hc ⊢
    rw [KeyIndex.filedUnder_add hnew] at hkeys
    split_ifs at hkeys with heq
    · rw [heq,Option.some.inj hkeys]
    · exact h.current c keys hkeys fun hstale => hc (mem_fresh.mpr ⟨hstale,heq⟩)
  | remove client =>
    refine ⟨KeyIndex.remove_consistent h.consistent,?_⟩
    intro c keys hkeys hc
    change (f.index.remove client).filedUnder c=some keys at hkeys
    rw [KeyIndex.filedUnder_remove] at hkeys
    split_ifs at hkeys
    exact h.current c keys hkeys hc
  | rekey client =>
    refine ⟨KeyIndex.rekey_consistent h.consistent,?_⟩
    intro c keys hkeys hc
    unfold step at hkeys hc ⊢
    dsimp only at hkeys hc ⊢
    cases hin : f.index.filedUnder client with
    | none =>
      rw [KeyIndex.rekey,hin] at hkeys
      have hne : c≠client := by
        rintro rfl
        rw [hin] at hkeys
        cases hkeys
      exact h.current c keys hkeys fun hstale => hc (mem_fresh.mpr ⟨hstale,hne⟩)
    | some old =>
      rw [KeyIndex.filedUnder_rekey (hin ▸ rfl)] at hkeys
      split_ifs at hkeys with heq
      · rw [heq,Option.some.inj hkeys]
      · exact h.current c keys hkeys fun hstale => hc (mem_fresh.mpr ⟨hstale,heq⟩)
  | clear =>
    refine ⟨KeyIndex.empty_consistent,?_⟩
    intro c keys hkeys
    cases hkeys
  | identify client now =>
    refine ⟨h.consistent,?_⟩
    intro c keys hkeys hc
    obtain ⟨hne,hstale⟩ := not_or.mp (List.mem_cons.not.mp hc)
    have hwho : (f.step hash32 (.identify client now)).who c=f.who c :=
      Function.update_of_ne hne _ f.who
    rw [hwho]
    exact h.current c keys hkeys hstale

theorem run_kept (who : ι → ClientIdentity) (calls : List (SourceCall ι)) :
    (run (step hash32) (init who) calls).Kept hash32 := by
  have hstep : ∀ (f : Filing ι) call, f.Kept hash32 → True → (f.step hash32 call).Kept hash32 :=
    fun _ call h _ => step_kept h call
  exact run_invariant hstep ⟨KeyIndex.empty_consistent,nofun⟩ (along_true _ _ _)

theorem mem_candidates_iff (h : f.Kept hash32) (hrekeyed : f.Rekeyed) {c probe : ι} :
    c∈f.candidates hash32 probe ↔ f.index.contains c=true ∧
      SourceIndex.SharesKey hash32 (f.who c) (f.who probe) := by
  unfold candidates
  rw [KeyIndex.mem_candidates h.consistent]
  have hcurrent : ∀ keys,f.index.filedUnder c=some keys →
      keys=SourceIndex.keysOf hash32 (f.who c) := by
    intro keys hkeys
    apply h.current c keys hkeys
    intro hstale
    have hout := hrekeyed c hstale
    rw [KeyIndex.contains,hkeys] at hout
    cases hout
  constructor
  · rintro ⟨keys,hkeys,hshared⟩
    refine ⟨by rw [KeyIndex.contains,hkeys]; rfl,?_⟩
    rwa [hcurrent keys hkeys] at hshared
  · rintro ⟨hin,hshared⟩
    obtain ⟨keys,hkeys⟩ := Option.isSome_iff_exists.mp hin
    refine ⟨keys,hkeys,?_⟩
    rwa [hcurrent keys hkeys]

theorem mem_candidates_of_isSamePeer (h : f.Kept hash32) (hrekeyed : f.Rekeyed) {c probe : ι}
    (hin : f.index.contains c=true) (hsame : f.isSamePeer c probe=true)
    (hknown : c=probe → SourceIndex.Known (f.who probe)) : c∈f.candidates hash32 probe := by
  refine (mem_candidates_iff h hrekeyed).mpr ⟨hin,?_⟩
  rcases Bool.or_eq_true_iff.mp hsame with heq | hpeer
  · obtain rfl := of_decide_eq_true heq
    have hkeys : SourceIndex.keysOf hash32 (f.who c)≠[] :=
      mt SourceIndex.keysOf_eq_nil.mp (not_not.mpr (hknown rfl))
    obtain ⟨key,hkey⟩ := List.exists_mem_of_ne_nil _ hkeys
    exact ⟨key,hkey,hkey⟩
  · exact SourceIndex.sharesKey_of_samePeer hpeer

end Filing

/-- The sources of a download with their index. -/
structure Sources (ι : Type*) where
  filing : Filing ι
  srcList : List ι

namespace Sources

variable (hash32 : UInt32 → UInt64)

def init (who : ι → ClientIdentity) : Sources ι := ⟨.init who, []⟩

/-- `addSource`, `removeSource`, `rekeySource` and `forgetAllSources` -/
def step (s : Sources ι) (call : SourceCall ι) : Sources ι :=
  match call with
  | .add client =>
    if s.filing.index.contains client then s
    else ⟨s.filing.step hash32 call, s.srcList ++ [client]⟩
  | .remove client =>
    if s.filing.index.contains client then ⟨s.filing.step hash32 call, s.srcList.erase client⟩
    else s
  | .clear => ⟨s.filing.step hash32 call, []⟩
  | _ => { s with filing := s.filing.step hash32 call }

def after (who : ι → ClientIdentity) (calls : List (SourceCall ι)) : Sources ι :=
  run (step hash32) (init who) calls

def findSourceLike (s : Sources ι) (candidate : ι) : Option ι :=
  if s.srcList.isEmpty then none
  else if s.filing.index.contains candidate then some candidate
  else (s.filing.candidates hash32 candidate).find? fun cur => s.filing.isSamePeer cur candidate

def findSourceLikeByScan (s : Sources ι) (candidate : ι) : Option ι :=
  s.srcList.find? fun cur => s.filing.isSamePeer cur candidate

/-- The list has the clients that are filed, each once. -/
structure Listed (s : Sources ι) : Prop where
  nodup : s.srcList.Nodup
  mem : ∀ c, c ∈ s.srcList ↔ s.filing.index.contains c = true

variable {hash32} {s : Sources ι}

theorem step_filing (s : Sources ι) (call : SourceCall ι) :
    (s.step hash32 call).filing=s.filing.step hash32 call := by
  cases call with
  | add client =>
    unfold step Filing.step
    dsimp only
    split_ifs <;> rfl
  | remove client =>
    unfold step
    dsimp only
    split_ifs with hin
    · rfl
    · have hnone : s.filing.index.filedUnder client=none := by
        simpa [KeyIndex.contains] using hin
      rw [Filing.step,KeyIndex.remove,hnone]
  | rekey client => rfl
  | clear => rfl
  | identify client now => rfl

theorem run_filing (who : ι → ClientIdentity) (calls : List (SourceCall ι)) :
    (after hash32 who calls).filing=run (Filing.step hash32) (.init who) calls :=
  @run_simulation _ _ _ (step hash32) (Filing.step hash32) _ (fun s f => s.filing=f)
    (fun s _ call hrel _ => by rw [step_filing,hrel]) (init who) (.init who) calls rfl
    (along_true _ _ _)

theorem step_listed (h : s.Listed) (call : SourceCall ι) : (s.step hash32 call).Listed := by
  cases call with
  | add client =>
    unfold step
    dsimp only
    split_ifs with hin
    · exact h
    have hnew : s.filing.index.filedUnder client=none := by simpa [KeyIndex.contains] using hin
    have hlist : client∉s.srcList := fun hmem => hin ((h.mem client).mp hmem)
    refine ⟨?_,?_⟩
    · apply h.nodup.append (List.nodup_singleton client)
      intro c hc hclient
      exact hlist (List.mem_singleton.mp hclient ▸ hc)
    · intro c
      rw [List.mem_append,List.mem_singleton,h.mem,Filing.step,if_neg hin]
      rw [KeyIndex.contains,KeyIndex.contains,KeyIndex.filedUnder_add hnew]
      by_cases hc : c=client <;> simp [hc]
  | remove client =>
    unfold step
    dsimp only
    split_ifs with hin
    · refine ⟨h.nodup.erase client,?_⟩
      intro c
      rw [h.nodup.mem_erase_iff,h.mem,Filing.step]
      rw [KeyIndex.contains,KeyIndex.contains,KeyIndex.filedUnder_remove]
      by_cases hc : c=client <;> simp [hc]
    · exact h
  | rekey client =>
    refine ⟨h.nodup,?_⟩
    intro c
    apply (h.mem c).trans
    change s.filing.index.contains c=true ↔ KeyIndex.contains (KeyIndex.rekey _ _ _) c=true
    cases hin : s.filing.index.filedUnder client with
    | none => rw [KeyIndex.rekey,hin]
    | some old =>
      rw [KeyIndex.contains,KeyIndex.contains,KeyIndex.filedUnder_rekey (hin ▸ rfl)]
      by_cases hc : c=client <;> simp [hc,hin]
  | clear => exact ⟨List.nodup_nil,fun c => iff_of_false List.not_mem_nil Bool.false_ne_true⟩
  | identify client now => exact ⟨h.nodup,h.mem⟩

theorem run_listed (who : ι → ClientIdentity) (calls : List (SourceCall ι)) :
    (after hash32 who calls).Listed := by
  have hstep : ∀ (s : Sources ι) call, s.Listed → True → (s.step hash32 call).Listed :=
    fun _ call h _ => step_listed h call
  exact run_invariant hstep ⟨List.nodup_nil,fun c => iff_of_false List.not_mem_nil nofun⟩
    (along_true _ _ _)

theorem findSourceLike_isSome (h : s.Listed) (hkept : s.filing.Kept hash32)
    (hrekeyed : s.filing.Rekeyed) (candidate : ι) :
    (s.findSourceLike hash32 candidate).isSome=(s.findSourceLikeByScan candidate).isSome := by
  rw [Bool.eq_iff_iff]
  unfold findSourceLike findSourceLikeByScan
  split_ifs with hempty hin
  · rw [List.isEmpty_iff.mp hempty]
    exact Iff.rfl
  · refine iff_of_true rfl ?_
    rw [List.find?_isSome]
    exact ⟨candidate,(h.mem candidate).mpr hin,by simp [Filing.isSamePeer]⟩
  · rw [List.find?_isSome,List.find?_isSome]
    constructor
    · rintro ⟨c,hc,hsame⟩
      exact ⟨c,(h.mem c).mpr ((Filing.mem_candidates_iff hkept hrekeyed).mp hc).1,hsame⟩
    · rintro ⟨c,hc,hsame⟩
      have hfiled := (h.mem c).mp hc
      refine ⟨c,Filing.mem_candidates_of_isSamePeer hkept hrekeyed hfiled hsame ?_,hsame⟩
      rintro rfl
      exact absurd hfiled hin

/-- The index finds every filed client that may be the same peer, unless the probe itself is filed
and has nothing to be known by; the lookup and the scan agree in any case. -/
theorem candidates_complete_iff (hash32 : UInt32 → UInt64) (who : ι → ClientIdentity)
    (calls : List (SourceCall ι)) (probe : ι)
    (hrekeyed : (after hash32 who calls).filing.Rekeyed) :
    ((∀ c, (after hash32 who calls).filing.index.contains c = true →
        (after hash32 who calls).filing.isSamePeer c probe = true →
          c ∈ (after hash32 who calls).filing.candidates hash32 probe) ∧
      ((after hash32 who calls).filing.candidates hash32 probe).Nodup ∧
      (∀ c ∈ (after hash32 who calls).filing.candidates hash32 probe,
        (after hash32 who calls).filing.index.contains c = true) ∧
      (after hash32 who calls).filing = run (Filing.step hash32) (.init who) calls ∧
      ((after hash32 who calls).findSourceLike hash32 probe).isSome =
        ((after hash32 who calls).findSourceLikeByScan probe).isSome) ↔
    ((after hash32 who calls).filing.index.contains probe = true →
      SourceIndex.Known ((after hash32 who calls).filing.who probe)) := by
  have hfiling : (after hash32 who calls).filing=_ := run_filing who calls
  have hkept : (after hash32 who calls).filing.Kept hash32 := by
    rw [hfiling]
    exact Filing.run_kept who calls
  have hlisted : (after hash32 who calls).Listed := run_listed who calls
  constructor
  · rintro ⟨hall,-⟩ hin
    by_contra hunknown
    have hmem := hall probe hin (by simp [Filing.isSamePeer])
    obtain ⟨-,key,hkey,-⟩ := (Filing.mem_candidates_iff hkept hrekeyed).mp hmem
    rw [SourceIndex.keysOf_eq_nil.mpr hunknown] at hkey
    cases hkey
  · intro hknown
    refine ⟨?_,KeyIndex.nodup_candidates _ _,?_,hfiling,
      findSourceLike_isSome hlisted hkept hrekeyed probe⟩
    · intro c hin hsame
      apply Filing.mem_candidates_of_isSamePeer hkept hrekeyed hin hsame
      rintro rfl
      exact hknown hin
    · intro c hc
      exact ((Filing.mem_candidates_iff hkept hrekeyed).mp hc).1

/-- A client that nothing is known of. -/
def unknown : ClientIdentity := ⟨Digest.zero 16, .none, 0, 0, 0, .none, 0, .none⟩

/-- `std::hash<uint32>` of the common libraries. -/
def identityHash (ip : UInt32) : UInt64 := ip.toUInt64

def highID : ClientIdentity := { unknown with userPort := 4662, userIDHybrid := 0x0A000001 }

theorem candidates_complete_two :
    (after identityHash (fun _ => highID) [.add 0, .add 1]).filing.Rekeyed ∧
      0 ∈ (after identityHash (fun _ => highID) [.add 0, .add 1]).filing.candidates
        identityHash 2 :=
  ⟨by decide,((candidates_complete_iff identityHash (fun _ => highID) [.add 0,.add 1] 2
    (by decide)).mpr (by decide)).1 0 (by decide) (by decide)⟩

/-- A source that nothing is known of is the same peer as itself and not among its candidates. -/
theorem unknown_not_candidate :
    (after identityHash (fun _ => unknown) [.add 0]).filing.Rekeyed ∧
      (after identityHash (fun _ => unknown) [.add 0]).filing.index.contains 0 = true ∧
      (after identityHash (fun _ => unknown) [.add 0]).filing.isSamePeer 0 0 = true ∧
      0 ∉ (after identityHash (fun _ => unknown) [.add 0]).filing.candidates identityHash 0 := by
  decide

end Sources

end EmuleQt.Files
