import EmuleQt.Client.CreditsRuns

namespace EmuleQt.Client

open Crypto Framework Net

namespace ClientCredits

variable {ssl : OpenSSL} {own : OwnKey} {cryptoAvailable : Bool} {c c' : ClientCredits}
  {ip : Option Address} {call : CreditCall}

theorem Effect.key_stays (heffect : Effect c c' ip) (h : c.Fits) (hkey : c.credits.keySize≠0) :
    c'.credits.keySize=c.credits.keySize ∧ c'.credits.secureIdent=c.credits.secureIdent := by
  cases heffect with
  | kept hkept => exact ⟨hkept.keySize,hkept.secureIdent⟩
  | failed hfailed =>
    rw [hfailed,(failed_spec c).1]
    exact ⟨rfl,rfl⟩
  | took hnone => exact absurd hnone hkey
  | @verified forIP hverified =>
    obtain ⟨c₁,hc₁,-,-,-,-,hkept,-⟩ := verified_spec h forIP
    obtain rfl := Option.some.inj (hverified.symm.trans hc₁)
    rw [hkept hkey]
    exact ⟨rfl,rfl⟩

theorem effect_of_step (h : c.Fits) (hstep : step ssl own cryptoAvailable c call=some c') :
    Effect c c' (verifies ssl own c call) := by
  obtain ⟨c₁,hc₁,heffect⟩ := @step_effect ssl own cryptoAvailable c h call
  obtain rfl := Option.some.inj (hstep.symm.trans hc₁)
  exact heffect

def SameTotals (c c' : ClientCredits) : Prop :=
  c'.credits.uploadedTotal=c.credits.uploadedTotal ∧
    c'.credits.downloadedTotal=c.credits.downloadedTotal

/-- With a key on record only what is added changes the totals, and it is added only where it is
not refused. -/
theorem totals_change (h : c.Fits) (hkey : c.credits.keySize≠0)
    (hstep : step ssl own cryptoAvailable c call=some c') (hchange : ¬ SameTotals c c') :
    ∃ bytes forIP, (call = .addDownloaded bytes forIP ∨ call = .addUploaded bytes forIP) ∧
      c.refuses cryptoAvailable forIP=false := by
  have hsame : c'.credits=c.credits → False := by
    intro hcredits
    apply hchange
    unfold SameTotals
    rw [hcredits]
    exact ⟨rfl,rfl⟩
  cases call with
  | addDownloaded bytes forIP =>
    obtain rfl := Option.some.inj hstep
    rcases addDownloaded_spec cryptoAvailable c bytes forIP with hrefused | ⟨hfree,-⟩
    · rw [hrefused] at hsame
      exact (hsame rfl).elim
    · exact ⟨bytes,forIP,Or.inl rfl,hfree⟩
  | addUploaded bytes forIP =>
    obtain rfl := Option.some.inj hstep
    rcases addUploaded_spec cryptoAvailable c bytes forIP with hrefused | ⟨hfree,-⟩
    · rw [hrefused] at hsame
      exact (hsame rfl).elim
    · exact ⟨bytes,forIP,Or.inr rfl,hfree⟩
  | setLastSeen time =>
    obtain rfl := Option.some.inj hstep
    exact (hchange ⟨rfl,rfl⟩).elim
  | setChallengeFor challenge =>
    obtain rfl := Option.some.inj hstep
    exact (hsame rfl).elim
  | setChallengeFrom challenge =>
    obtain rfl := Option.some.inj hstep
    exact (hsame rfl).elim
  | createSignature maxSize challengeIP chaIPKind =>
    obtain ⟨sig,-,hc⟩ := Option.map_eq_some_iff.mp hstep
    exact (hsame (congrArg credits hc.symm)).elim
  | setSecureIdent ident =>
    rcases setSecureIdent_spec c ident with hrefused | ⟨-,hnone,-⟩
    · rw [step,hrefused] at hstep
      exact (hsame (congrArg credits (Option.some.inj hstep).symm)).elim
    · exact absurd hnone hkey
  | verified forIP =>
    obtain ⟨c₁,hc₁,-,-,-,-,hkept,-⟩ := verified_spec h forIP
    obtain rfl := Option.some.inj (hstep.symm.trans hc₁)
    exact (hsame (hkept hkey)).elim
  | verifyIdent signature forIP chaIPKind seenAs serverIP =>
    rcases verifyIdent_spec ssl own h signature forIP chaIPKind seenAs serverIP with
      hno | hno | ⟨c₁,-,-,hc₁,-,-,hyes⟩
    · rw [step,hno] at hstep
      exact (hsame (congrArg credits (Option.some.inj hstep).symm)).elim
    · rw [step,hno] at hstep
      obtain rfl := Option.some.inj hstep
      exact (hsame (failed_spec c).1).elim
    · rw [step,hyes] at hstep
      obtain rfl := Option.some.inj hstep
      obtain ⟨c₂,hc₂,-,-,-,-,hkept,-⟩ := verified_spec h forIP
      obtain rfl := Option.some.inj (hc₁.symm.trans hc₂)
      exact (hsame (hkept hkey)).elim

theorem deletePrior_of_pos {cs : CreditStruct} (h : 0<cs.downloadedTotal) :
    (deletePrior cs).downloadedTotal=1 ∧ (deletePrior cs).uploadedTotal=1 := by
  have hone : ((0 : UInt32).toUInt64 <<< 32) ||| (1 : UInt32).toUInt64=1 := by decide
  rw [deletePrior,if_pos h]
  exact ⟨hone,hone⟩

theorem deletePrior_of_zero {cs : CreditStruct} (h : cs.downloadedTotal=0) :
    deletePrior cs=cs := by
  rw [deletePrior,h]
  exact if_neg (by decide)

theorem verified_deletes (h : c.Fits) (hkey : c.credits.keySize=0) {forIP : Address}
    (hverified : c.verified forIP=some c') :
    (0<c.credits.downloadedTotal →
      c'.credits.downloadedTotal=1 ∧ c'.credits.uploadedTotal=1) ∧
    (c.credits.downloadedTotal=0 → SameTotals c c') := by
  obtain ⟨c₁,hc₁,-,-,-,-,-,hnew⟩ := verified_spec h forIP
  obtain rfl := Option.some.inj (hverified.symm.trans hc₁)
  obtain ⟨-,-,secureIdent,hcredits⟩ := hnew hkey
  unfold SameTotals
  rw [hcredits]
  constructor
  · intro hdownloaded
    exact deletePrior_of_pos hdownloaded
  · intro hnothing
    rw [@deletePrior_of_zero { c.credits with keySize := c.publicKeyLen, secureIdent } hnothing]
    exact ⟨rfl,rfl⟩

end ClientCredits

/-- The credits of a peer, with the address last verified and the key that was checked for it. -/
structure Session where
  credits : ClientCredits
  lastVerified : Option (Address × List UInt8)

namespace Session

open ClientCredits

variable (ssl : OpenSSL) (own : OwnKey) (cryptoAvailable : Bool)

def step (s : Session) (call : CreditCall) : Option Session :=
  (s.credits.step ssl own cryptoAvailable call).map fun credits =>
    ⟨credits, match verifies ssl own s.credits call with
      | some forIP => some (forIP, s.credits.keyInMemory)
      | none => s.lastVerified⟩

variable {ssl own cryptoAvailable} {s s' : Session} {call : CreditCall}

/-- An identified peer is at the address last verified, and a key on record is the one in memory;
the last verification was against it. -/
structure Guarded (s : Session) : Prop where
  fits : s.credits.Fits
  identified : s.credits.identState = .Identified →
    ∃ key, s.lastVerified = some (s.credits.identIP, key) ∧
      (s.credits.credits.keySize ≠ 0 → key = s.credits.credits.storedKey)
  available : s.credits.credits.keySize ≠ 0 → s.credits.identState ≠ .NotAvailable
  keyInMemory : s.credits.credits.keySize ≠ 0 →
    s.credits.keyInMemory = s.credits.credits.storedKey

theorem guarded_start {cs : CreditStruct} {c : ClientCredits} (h : ofStruct cs=some c) :
    Guarded ⟨c,none⟩ := by
  have hfits := ofStruct_isSome.mp ⟨c,h⟩
  obtain ⟨c₁,hc₁,hcredits,hlen,hkey,hstate⟩ := ofStruct_spec hfits
  obtain rfl := Option.some.inj (h.symm.trans hc₁)
  refine ⟨⟨hcredits ▸ hfits,hlen ▸ hfits⟩,?_,?_,?_⟩
  · intro hident
    rw [hstate] at hident
    split_ifs at hident
  · intro hsize
    rw [hcredits] at hsize
    rw [hstate,if_neg hsize]
    exact IdentState.noConfusion
  · intro _
    rw [hcredits,hkey]

theorem of_step (hstep : step ssl own cryptoAvailable s call=some s') :
    s.credits.step ssl own cryptoAvailable call=some s'.credits ∧
      s'.lastVerified=match verifies ssl own s.credits call with
        | some forIP => some (forIP, s.credits.keyInMemory)
        | none => s.lastVerified := by
  obtain ⟨c',hc',rfl⟩ := Option.map_eq_some_iff.mp hstep
  exact ⟨hc',rfl⟩

theorem Guarded.step (h : Guarded s) (hstep : step ssl own cryptoAvailable s call=some s') :
    Guarded s' := by
  obtain ⟨hcredits,hlast⟩ := of_step hstep
  have heffect := effect_of_step h.fits hcredits
  have hfits := h.fits.effect heffect
  generalize hip : verifies ssl own s.credits call=ip at heffect hlast
  cases heffect with
  | kept hkept =>
    have hmemory : s'.credits.keyInMemory=s.credits.keyInMemory := by
      rw [ClientCredits.keyInMemory,hkept.publicKey,hkept.publicKeyLen,ClientCredits.keyInMemory]
    have hstored : s'.credits.credits.storedKey=s.credits.credits.storedKey := by
      rw [CreditStruct.storedKey,hkept.secureIdent,hkept.keySize,CreditStruct.storedKey]
    constructor
    · exact hfits
    · rw [hkept.identState,hkept.identIP,hkept.keySize,hstored,hlast]
      exact h.identified
    · rw [hkept.identState,hkept.keySize]
      exact h.available
    · rw [hkept.keySize,hmemory,hstored]
      exact h.keyInMemory
  | failed hfailed =>
    obtain ⟨hsame,hlen,hpublic,hstate⟩ := failed_spec s.credits
    rcases hstate with hstate | hstate
    · have hmemory : s.credits.failed.keyInMemory=s.credits.keyInMemory := by
        rw [ClientCredits.keyInMemory,hpublic,hlen,ClientCredits.keyInMemory]
      constructor
      · exact hfits
      · rw [hfailed,hstate]
        exact IdentState.noConfusion
      · rw [hfailed,hstate]
        intro _
        exact IdentState.noConfusion
      · rw [hfailed,hsame,hmemory]
        exact h.keyInMemory
    · rw [hstate] at hfailed
      obtain ⟨credits,last⟩ := s'
      obtain rfl : credits=s.credits := hfailed
      obtain rfl : last=s.lastVerified := hlast
      exact h
  | took hnone hsame hstate hlen =>
    constructor
    · exact hfits
    · rw [hstate]
      exact IdentState.noConfusion
    · rw [hsame]
      exact fun hkey => absurd hnone hkey
    · rw [hsame]
      exact fun hkey => absurd hnone hkey
  | @verified forIP hverified =>
    obtain ⟨c₁,hc₁,hident,hstate,hlen,hmemory,hkept,hnew⟩ := verified_spec h.fits forIP
    obtain rfl : s'.credits=c₁ := Option.some.inj (hverified.symm.trans hc₁)
    have hstored : s'.credits.credits.keySize≠0 →
        s.credits.keyInMemory=s'.credits.credits.storedKey := by
      intro hkey
      by_cases hold : s.credits.credits.keySize=0
      · exact (hnew hold).2.1.symm
      · rw [hkept hold]
        exact h.keyInMemory hold
    constructor
    · exact hfits
    · intro _
      rw [hident]
      exact ⟨_,hlast,hstored⟩
    · rw [hstate]
      intro _
      exact IdentState.noConfusion
    · rw [hmemory]
      exact hstored

theorem run_guarded {calls : List CreditCall} (h : Guarded s)
    (hrun : runChecked (Session.step ssl own cryptoAvailable) s calls=some s') : Guarded s' :=
  runChecked_invariant (fun _ _ _ hs hstep => Guarded.step hs hstep) h hrun

theorem run_key_stays {calls : List CreditCall} (h : Guarded s)
    (hkey : s.credits.credits.keySize≠0)
    (hrun : runChecked (Session.step ssl own cryptoAvailable) s calls=some s') :
    s'.credits.credits.keySize=s.credits.credits.keySize ∧
      s'.credits.credits.secureIdent=s.credits.credits.secureIdent := by
  have hinv : Guarded s' ∧ s'.credits.credits.keySize=s.credits.credits.keySize ∧
      s'.credits.credits.secureIdent=s.credits.credits.secureIdent := by
    apply @runChecked_invariant _ _ (Session.step ssl own cryptoAvailable) (fun t => Guarded t ∧
      t.credits.credits.keySize=s.credits.credits.keySize ∧
      t.credits.credits.secureIdent=s.credits.credits.secureIdent) s s' calls
    · rintro t call t' ⟨ht,hsize,hident⟩ hstep
      obtain ⟨hsize',hident'⟩ := (effect_of_step ht.fits (of_step hstep).1).key_stays ht.fits
        (hsize ▸ hkey)
      exact ⟨ht.step hstep,hsize'.trans hsize,hident'.trans hident⟩
    · exact ⟨h,rfl,rfl⟩
    · exact hrun
  exact hinv.2

/-- With crypto available the credits of a peer with a key on record change only for the address
last verified against that key. -/
theorem Guarded.changes (h : Guarded s) (hkey : s.credits.credits.keySize≠0)
    (hstep : Session.step ssl own true s call=some s')
    (hchange : ¬ SameTotals s.credits s'.credits) :
    ∃ bytes forIP, (call = .addDownloaded bytes forIP ∨ call = .addUploaded bytes forIP) ∧
      s.lastVerified=some (forIP, s.credits.credits.storedKey) := by
  obtain ⟨bytes,forIP,hcall,hfree⟩ := totals_change h.fits hkey (of_step hstep).1 hchange
  refine ⟨bytes,forIP,hcall,?_⟩
  rcases identified_of_not_refuses hfree with hnone | ⟨hident,hip⟩
  · exact absurd hnone (h.available hkey)
  · obtain ⟨key,hlast,hsame⟩ := h.identified hident
    rw [hlast,hip,hsame hkey]

/-- Credits stay with the key: a key on record never changes, and with it the totals change only
for the address last verified against it; the verification that puts a key on record first deletes
what was downloaded and uploaded before, unless nothing was downloaded. -/
theorem credits_guarded (ssl : OpenSSL) (own : OwnKey) (cs : CreditStruct) (c : ClientCredits)
    (hc : ofStruct cs = some c) (calls : List CreditCall) (s : Session)
    (hrun : runChecked (Session.step ssl own true) ⟨c, none⟩ calls = some s) :
    (s.credits.credits.keySize ≠ 0 →
      (∀ more s', runChecked (Session.step ssl own true) s more = some s' →
        s'.credits.credits.keySize = s.credits.credits.keySize ∧
          s'.credits.credits.secureIdent = s.credits.credits.secureIdent) ∧
      ∀ call s', Session.step ssl own true s call = some s' →
        ¬ SameTotals s.credits s'.credits →
        ∃ bytes forIP, (call = .addDownloaded bytes forIP ∨ call = .addUploaded bytes forIP) ∧
          s.lastVerified = some (forIP, s.credits.credits.storedKey)) ∧
    (s.credits.credits.keySize = 0 →
      ∀ call s' forIP, Session.step ssl own true s call = some s' →
        verifies ssl own s.credits call = some forIP →
        (0 < s.credits.credits.downloadedTotal →
          s'.credits.credits.downloadedTotal = 1 ∧ s'.credits.credits.uploadedTotal = 1) ∧
        (s.credits.credits.downloadedTotal = 0 → SameTotals s.credits s'.credits)) := by
  have hguarded := run_guarded (guarded_start hc) hrun
  constructor
  · intro hkey
    constructor
    · intro more s' hmore
      exact run_key_stays hguarded hkey hmore
    · intro call s' hstep hchange
      exact hguarded.changes hkey hstep hchange
  · intro hkey call s' forIP hstep hverifies
    have heffect := effect_of_step hguarded.fits (of_step hstep).1
    rw [hverifies] at heffect
    cases heffect with
    | verified hverified => exact verified_deletes hguarded.fits hkey hverified

/-- A peer that only got data keeps its total through the first verification. -/
theorem uploaded_survives : ¬ ∀ (ssl : OpenSSL) (own : OwnKey) (cs : CreditStruct)
    (c : ClientCredits), ofStruct cs = some c → ∀ (calls : List CreditCall) (s : Session),
    runChecked (Session.step ssl own true) ⟨c, none⟩ calls = some s →
    s.credits.credits.keySize = 0 → ∀ call s' forIP, Session.step ssl own true s call = some s' →
      verifies ssl own s.credits call = some forIP →
      s'.credits.credits.downloadedTotal ≤ 1 ∧ s'.credits.credits.uploadedTotal ≤ 1 := by
  intro h
  have hsmall := h ⟨Unit,fun _ => none,fun _ _ _ => false,fun _ => none⟩ ⟨[],Nat.zero_le _⟩
    ⟨.zero _,0,0,0,0,0,0,0,.zero _⟩ _ rfl
    [.addUploaded 5 (.ipv4 1),.setSecureIdent [7]] _ rfl rfl (.verified (.ipv4 1)) _ _ rfl rfl
  exact absurd hsmall.2 (by decide)

/-- A peer with a key, verified at its address and credited there. -/
theorem credits_guarded_owner : ∃ s : Session,
    runChecked (Session.step ⟨Unit, fun _ => none, fun _ _ _ => false, fun _ => none⟩
      ⟨[], Nat.zero_le _⟩ true)
      ⟨⟨⟨.zero _, 0, 0, 0, 0, 0, 0, 0, .zero _⟩, .NotAvailable, .none, .zero _, 0, 0, 0⟩, none⟩
      [.setSecureIdent [7], .verified (.ipv4 1), .addDownloaded 5 (.ipv4 1)] = some s ∧
    s.credits.credits.downloadedTotal = 5 ∧
    ∀ call s', Session.step ⟨Unit, fun _ => none, fun _ _ _ => false, fun _ => none⟩
      ⟨[], Nat.zero_le _⟩ true s call = some s' → ¬ SameTotals s.credits s'.credits →
      ∃ bytes forIP, (call = .addDownloaded bytes forIP ∨ call = .addUploaded bytes forIP) ∧
        s.lastVerified = some (forIP, s.credits.credits.storedKey) := by
  refine ⟨_,rfl,rfl,?_⟩
  exact ((credits_guarded ⟨Unit,fun _ => none,fun _ _ _ => false,fun _ => none⟩
    ⟨[],Nat.zero_le _⟩ ⟨.zero _,0,0,0,0,0,0,0,.zero _⟩ _ rfl
    [.setSecureIdent [7],.verified (.ipv4 1),.addDownloaded 5 (.ipv4 1)] _ rfl).1 (by decide)).2

end Session

end EmuleQt.Client
