import EmuleQt.Client.ClientCredits
import EmuleQt.Framework.Run

namespace EmuleQt.Client

open Crypto Framework Net

/-- What is called on the credits of a peer. -/
inductive CreditCall
  | setSecureIdent (ident : List UInt8)
  | verified (forIP : Address)
  | verifyIdent (signature : List UInt8) (forIP : Address) (chaIPKind : UInt8) (seenAs : Address)
      (serverIP : UInt32)
  | createSignature (maxSize : Nat) (challengeIP : UInt32) (chaIPKind : UInt8)
  | addDownloaded (bytes : UInt32) (forIP : Address)
  | addUploaded (bytes : UInt32) (forIP : Address)
  | setLastSeen (time : UInt32)
  | setChallengeFor (challenge : UInt32)
  | setChallengeFrom (challenge : UInt32)

namespace ClientCredits

variable (ssl : OpenSSL) (own : OwnKey) (cryptoAvailable : Bool)

/-- One call; none if it leaves an array. -/
def step (c : ClientCredits) : CreditCall → Option ClientCredits
  | .setSecureIdent ident => (c.setSecureIdent ident).map Prod.snd
  | .verified forIP => c.verified forIP
  | .verifyIdent signature forIP chaIPKind seenAs serverIP =>
    (c.verifyIdent ssl own signature forIP chaIPKind seenAs serverIP).map Prod.snd
  | .createSignature maxSize challengeIP chaIPKind =>
    (c.createSignature ssl maxSize challengeIP chaIPKind).map fun _ => c
  | .addDownloaded bytes forIP => some (c.addDownloaded cryptoAvailable bytes forIP)
  | .addUploaded bytes forIP => some (c.addUploaded cryptoAvailable bytes forIP)
  | .setLastSeen time => some { c with credits := { c.credits with lastSeen := time } }
  | .setChallengeFor challenge => some { c with cryptRndChallengeFor := challenge }
  | .setChallengeFrom challenge => some { c with cryptRndChallengeFrom := challenge }

/-- The address a call verifies. -/
def verifies (c : ClientCredits) : CreditCall → Option Address
  | .verified forIP => some forIP
  | .verifyIdent signature forIP chaIPKind seenAs serverIP =>
    if (c.verifyIdent ssl own signature forIP chaIPKind seenAs serverIP).map Prod.fst = some true
    then some forIP else none
  | _ => none

/-- The key a signature is checked against. -/
def keyInMemory (c : ClientCredits) : List UInt8 := c.publicKey.bytes.take c.publicKeyLen.toNat

/-- Both lengths stay inside their arrays. -/
structure Fits (c : ClientCredits) : Prop where
  stored : c.credits.KeyFits
  memory : c.publicKeyLen.toNat ≤ kMaxPubKeySize

variable {ssl own cryptoAvailable} {c c' : ClientCredits} {cs : CreditStruct} {forIP : Address}

/-! # The calls one by one -/

theorem ofStruct_spec (h : cs.KeyFits) : ∃ c, ofStruct cs=some c ∧ c.credits=cs ∧
    c.publicKeyLen=cs.keySize ∧ c.keyInMemory=cs.storedKey ∧
    c.identState=if cs.keySize=0 then .NotAvailable else .IdNeeded := by
  unfold ofStruct initializeIdent
  dsimp only
  split_ifs with hzero
  · refine ⟨_,rfl,rfl,hzero.symm,?_,rfl⟩
    unfold keyInMemory CreditStruct.storedKey
    rw [hzero]
    rfl
  · obtain ⟨d,hd,htaken⟩ := Digest.memcpy_of_le (.zero _) cs.secureIdent h h
    rw [hd]
    exact ⟨_,rfl,rfl,rfl,htaken,rfl⟩

theorem ofStruct_eq_none (h : ¬ cs.KeyFits) : ofStruct cs=none := by
  have hlong : kMaxPubKeySize<cs.keySize.toNat := Nat.not_le.mp h
  have hzero : cs.keySize≠0 := by
    intro hzero
    rw [hzero] at hlong
    exact absurd hlong (Nat.not_lt_zero _)
  unfold ofStruct initializeIdent
  rw [if_neg hzero,Digest.memcpy_eq_none hlong]
  rfl

theorem ofStruct_isSome : (∃ c, ofStruct cs=some c) ↔ cs.KeyFits := by
  constructor
  · rintro ⟨c,hc⟩
    by_contra hlong
    rw [ofStruct_eq_none hlong] at hc
    exact absurd hc (Option.some_ne_none c).symm
  · intro h
    obtain ⟨c,hc,-⟩ := ofStruct_spec h
    exact ⟨c,hc⟩

theorem deletePrior_key (cs : CreditStruct) : (deletePrior cs).keySize=cs.keySize ∧
    (deletePrior cs).secureIdent=cs.secureIdent := by
  unfold deletePrior
  split_ifs
  · exact ⟨rfl,rfl⟩
  · exact ⟨rfl,rfl⟩

theorem verified_spec (h : c.Fits) (forIP : Address) : ∃ c', c.verified forIP=some c' ∧
    c'.identIP=forIP ∧ c'.identState = .Identified ∧ c'.publicKeyLen=c.publicKeyLen ∧
    c'.keyInMemory=c.keyInMemory ∧
    (c.credits.keySize≠0 → c'.credits=c.credits) ∧
    (c.credits.keySize=0 → c'.credits.keySize=c.publicKeyLen ∧
      c'.credits.storedKey=c.keyInMemory ∧
      ∃ secureIdent, c'.credits =
        deletePrior { c.credits with keySize := c.publicKeyLen, secureIdent }) := by
  unfold verified
  split_ifs with hzero
  · obtain ⟨d,hd,htaken⟩ := Digest.memcpy_of_le c.credits.secureIdent c.publicKey h.memory h.memory
    obtain ⟨hsize,hident⟩ :=
      deletePrior_key { c.credits with keySize := c.publicKeyLen, secureIdent := d }
    rw [hd]
    refine ⟨_,rfl,rfl,rfl,rfl,rfl,fun hne => absurd hzero hne,fun _ => ⟨hsize,?_,d,rfl⟩⟩
    unfold CreditStruct.storedKey
    rw [hsize,hident]
    exact htaken
  · exact ⟨_,rfl,rfl,rfl,rfl,rfl,fun _ => rfl,fun hne => absurd hne hzero⟩

theorem setSecureIdent_spec (c : ClientCredits) (ident : List UInt8) :
    c.setSecureIdent ident=some (false, c) ∨
    (ident.length≤kMaxPubKeySize ∧ c.credits.keySize=0 ∧ ∃ publicKey,
      c.setSecureIdent ident=some (true, { c with
        publicKey
        publicKeyLen := UInt8.ofNat ident.length
        identState := .IdNeeded })) := by
  unfold setSecureIdent
  split_ifs with hrefused
  · exact Or.inl rfl
  · obtain ⟨hlong,hkey⟩ := not_or.mp hrefused
    have hfits := Nat.not_lt.mp hlong
    obtain ⟨d,hd,-⟩ :=
      Digest.memcpy_of_le c.publicKey (⟨ident,rfl⟩ : Digest ident.length) hfits le_rfl
    rw [hd]
    exact Or.inr ⟨hfits,not_not.mp hkey,d,rfl⟩

theorem identMessage_isSome {key : List UInt8} (h : key.length≤kMaxPubKeySize)
    (challenge ip : UInt32) (chaIPKind : UInt8) :
    ∃ msg, identMessage key challenge ip chaIPKind=some msg := by
  unfold identMessage
  rw [if_pos]
  · exact ⟨_,rfl⟩
  · have htail : (if chaIPKind≠0 then Math.leBytes 4 ip.toNat++[chaIPKind] else []).length≤5 := by
      split_ifs
      · simp
      · simp
    simp only [List.length_append,Math.leBytes_length]
    omega

theorem keyInMemory_length_le (h : c.Fits) : c.keyInMemory.length≤kMaxPubKeySize := by
  rw [keyInMemory,List.length_take]
  exact (Nat.min_le_left _ _).trans h.memory

theorem createSignature_isSome (ssl : OpenSSL) (h : c.Fits) (maxSize : Nat) (challengeIP : UInt32)
    (chaIPKind : UInt8) :
    ∃ sig, c.createSignature ssl maxSize challengeIP chaIPKind=some sig := by
  obtain ⟨msg,hmsg⟩ := identMessage_isSome (keyInMemory_length_le h) c.cryptRndChallengeFrom
    challengeIP chaIPKind
  unfold createSignature
  rw [Digest.load_of_le h.memory]
  change ∃ sig, (identMessage c.keyInMemory _ _ _).map _ = some sig
  rw [hmsg]
  exact ⟨_,rfl⟩

/-- A check says yes only where the signature is one of the key in memory, and then the credits
are verified; a check that says no leaves them, or fails an open one. -/
theorem verifyIdent_spec (ssl : OpenSSL) (own : OwnKey) (h : c.Fits) (signature : List UInt8)
    (forIP : Address) (chaIPKind : UInt8) (seenAs : Address) (serverIP : UInt32) :
    c.verifyIdent ssl own signature forIP chaIPKind seenAs serverIP=some (false, c) ∨
    c.verifyIdent ssl own signature forIP chaIPKind seenAs serverIP=some (false, c.failed) ∨
    ∃ c' peerKey msg, c.verified forIP=some c' ∧ ssl.d2iPubkey c.keyInMemory=some peerKey ∧
      ssl.rsaVerify peerKey msg signature=true ∧
      c.verifyIdent ssl own signature forIP chaIPKind seenAs serverIP=some (true, c') := by
  unfold verifyIdent
  split_ifs with hnone
  · exact Or.inl rfl
  · rw [Digest.load_of_le h.memory,Option.bind_some]
    cases hkey : ssl.d2iPubkey (c.publicKey.bytes.take c.publicKeyLen.toNat) with
    | none => exact Or.inr (Or.inl rfl)
    | some peerKey =>
      obtain ⟨msg,hmsg⟩ := identMessage_isSome own.fits c.cryptRndChallengeFor
        (boundIP forIP chaIPKind seenAs serverIP) chaIPKind
      obtain ⟨c',hc',-⟩ := verified_spec h forIP
      dsimp only
      rw [hmsg,Option.bind_some]
      split_ifs with hgood
      · rw [hc']
        exact Or.inr (Or.inr ⟨c',peerKey,msg,rfl,hkey,hgood,rfl⟩)
      · exact Or.inr (Or.inl rfl)

theorem addDownloaded_spec (cryptoAvailable : Bool) (c : ClientCredits) (bytes : UInt32)
    (forIP : Address) : c.addDownloaded cryptoAvailable bytes forIP=c ∨
    (c.refuses cryptoAvailable forIP=false ∧ ∃ downloadedLo downloadedHi,
      c.addDownloaded cryptoAvailable bytes forIP =
        { c with credits := { c.credits with downloadedLo, downloadedHi } }) := by
  unfold addDownloaded
  split_ifs with hrefused
  · exact Or.inl rfl
  · exact Or.inr ⟨eq_false_of_ne_true hrefused,_,_,rfl⟩

theorem addUploaded_spec (cryptoAvailable : Bool) (c : ClientCredits) (bytes : UInt32)
    (forIP : Address) : c.addUploaded cryptoAvailable bytes forIP=c ∨
    (c.refuses cryptoAvailable forIP=false ∧ ∃ uploadedLo uploadedHi,
      c.addUploaded cryptoAvailable bytes forIP =
        { c with credits := { c.credits with uploadedLo, uploadedHi } }) := by
  unfold addUploaded
  split_ifs with hrefused
  · exact Or.inl rfl
  · exact Or.inr ⟨eq_false_of_ne_true hrefused,_,_,rfl⟩

theorem identified_of_not_refuses (h : c.refuses true forIP=false) :
    c.identState = .NotAvailable ∨ (c.identState = .Identified ∧ forIP=c.identIP) := by
  unfold refuses currentIdentState at h
  by_cases hstate : c.identState = .Identified
  · rw [if_neg (not_not.mpr hstate)] at h
    split_ifs at h with hip
    · exact Or.inr ⟨hstate,hip⟩
  · rw [if_pos hstate] at h
    cases hs : c.identState with
    | NotAvailable => exact Or.inl rfl
    | Identified => exact absurd hs hstate
    | IdNeeded => rw [hs] at h; exact absurd h Bool.true_eq_false_eq_False
    | IdFailed => rw [hs] at h; exact absurd h Bool.true_eq_false_eq_False
    | IdBadGuy => rw [hs] at h; exact absurd h Bool.true_eq_false_eq_False

/-! # What a call can do -/

/-- Nothing but the totals, the times and the challenges has changed. -/
structure Kept (c c' : ClientCredits) : Prop where
  identState : c'.identState = c.identState
  identIP : c'.identIP = c.identIP
  publicKeyLen : c'.publicKeyLen = c.publicKeyLen
  publicKey : c'.publicKey = c.publicKey
  keySize : c'.credits.keySize = c.credits.keySize
  secureIdent : c'.credits.secureIdent = c.credits.secureIdent

theorem Kept.refl (c : ClientCredits) : Kept c c := ⟨rfl,rfl,rfl,rfl,rfl,rfl⟩

/-- What a call does to the key and the identity, with the address it verifies. -/
inductive Effect (c c' : ClientCredits) : Option Address → Prop
  | kept (h : Kept c c') : Effect c c' none
  | failed (h : c' = c.failed) : Effect c c' none
  | took (hkey : c.credits.keySize = 0) (hsame : c'.credits = c.credits)
      (hstate : c'.identState = .IdNeeded) (hlen : c'.publicKeyLen.toNat ≤ kMaxPubKeySize) :
      Effect c c' none
  | verified {forIP : Address} (h : c.verified forIP = some c') : Effect c c' (some forIP)

theorem step_effect (h : c.Fits) (call : CreditCall) :
    ∃ c', step ssl own cryptoAvailable c call=some c' ∧ Effect c c' (verifies ssl own c call) := by
  cases call with
  | setSecureIdent ident =>
    rcases setSecureIdent_spec c ident with hrefused | ⟨hfits,hkey,publicKey,htaken⟩
    · exact ⟨c,congrArg (Option.map Prod.snd) hrefused,.kept (.refl c)⟩
    · refine ⟨_,congrArg (Option.map Prod.snd) htaken,.took hkey rfl rfl ?_⟩
      unfold kMaxPubKeySize at hfits ⊢
      rw [UInt8.toNat_ofNat']
      omega
  | verified forIP =>
    obtain ⟨c',hc',-⟩ := verified_spec h forIP
    exact ⟨c',hc',.verified hc'⟩
  | verifyIdent signature forIP chaIPKind seenAs serverIP =>
    rcases verifyIdent_spec ssl own h signature forIP chaIPKind seenAs serverIP with
      hno | hno | ⟨c',-,-,hc',-,-,hyes⟩
    · refine ⟨c,congrArg (Option.map Prod.snd) hno,?_⟩
      rw [verifies,hno]
      exact .kept (.refl c)
    · refine ⟨c.failed,congrArg (Option.map Prod.snd) hno,?_⟩
      rw [verifies,hno]
      exact .failed rfl
    · refine ⟨c',congrArg (Option.map Prod.snd) hyes,?_⟩
      rw [verifies,hyes]
      exact .verified hc'
  | createSignature maxSize challengeIP chaIPKind =>
    obtain ⟨sig,hsig⟩ := createSignature_isSome ssl h maxSize challengeIP chaIPKind
    exact ⟨c,congrArg (Option.map fun _ => c) hsig,.kept (.refl c)⟩
  | addDownloaded bytes forIP =>
    refine ⟨_,rfl,.kept ?_⟩
    rcases addDownloaded_spec cryptoAvailable c bytes forIP with hsame | ⟨-,lo,hi,hadded⟩
    · rw [hsame]
      exact .refl c
    · rw [hadded]
      exact ⟨rfl,rfl,rfl,rfl,rfl,rfl⟩
  | addUploaded bytes forIP =>
    refine ⟨_,rfl,.kept ?_⟩
    rcases addUploaded_spec cryptoAvailable c bytes forIP with hsame | ⟨-,lo,hi,hadded⟩
    · rw [hsame]
      exact .refl c
    · rw [hadded]
      exact ⟨rfl,rfl,rfl,rfl,rfl,rfl⟩
  | setLastSeen time => exact ⟨_,rfl,.kept ⟨rfl,rfl,rfl,rfl,rfl,rfl⟩⟩
  | setChallengeFor challenge => exact ⟨_,rfl,.kept ⟨rfl,rfl,rfl,rfl,rfl,rfl⟩⟩
  | setChallengeFrom challenge => exact ⟨_,rfl,.kept ⟨rfl,rfl,rfl,rfl,rfl,rfl⟩⟩

theorem failed_spec (c : ClientCredits) : c.failed.credits=c.credits ∧
    c.failed.publicKeyLen=c.publicKeyLen ∧ c.failed.publicKey=c.publicKey ∧
    (c.failed.identState = .IdFailed ∨ c.failed=c) := by
  unfold failed
  split_ifs
  · exact ⟨rfl,rfl,rfl,Or.inl rfl⟩
  · exact ⟨rfl,rfl,rfl,Or.inr rfl⟩

theorem Fits.effect {ip : Option Address} (h : c.Fits) (heffect : Effect c c' ip) : c'.Fits := by
  cases heffect with
  | kept hkept =>
    constructor
    · rw [CreditStruct.KeyFits,hkept.keySize]
      exact h.stored
    · rw [hkept.publicKeyLen]
      exact h.memory
  | failed hfailed =>
    obtain ⟨hcredits,hlen,-⟩ := failed_spec c
    rw [hfailed]
    exact ⟨hcredits ▸ h.stored,hlen ▸ h.memory⟩
  | took hkey hsame hstate hlen => exact ⟨hsame ▸ h.stored,hlen⟩
  | @verified forIP hverified =>
    obtain ⟨c₁,hc₁,-,-,hlen,-,hkept,hnew⟩ := verified_spec h forIP
    obtain rfl := Option.some.inj (hverified.symm.trans hc₁)
    refine ⟨?_,hlen ▸ h.memory⟩
    rw [CreditStruct.KeyFits]
    by_cases hkey : c.credits.keySize=0
    · rw [(hnew hkey).1]
      exact h.memory
    · rw [hkept hkey]
      exact h.stored

theorem step_fits (h : c.Fits) (call : CreditCall) :
    ∃ c', step ssl own cryptoAvailable c call=some c' ∧ c'.Fits := by
  obtain ⟨c',hstep,heffect⟩ := step_effect h call
  exact ⟨c',hstep,h.effect heffect⟩

theorem runs_fit (h : c.Fits) (calls : List CreditCall) :
    ∃ c', runChecked (step ssl own cryptoAvailable) c calls=some c' ∧ c'.Fits :=
  runChecked_isSome (fun _ call hc => step_fits hc call) h calls

end ClientCredits

end EmuleQt.Client
