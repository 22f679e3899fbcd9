import EmuleQt.Crypto.ByteArrays
import EmuleQt.Net.Address

namespace EmuleQt.Client

open Crypto Math Net

def kMaxPubKeySize : Nat := 80

def kCryptCipRemoteClient : UInt8 := 10
def kCryptCipLocalClient : UInt8 := 20

inductive IdentState
  | NotAvailable
  | IdNeeded
  | Identified
  | IdFailed
  | IdBadGuy
  deriving DecidableEq

/-- A record of clients.met. -/
structure CreditStruct where
  key : MD4Hash
  uploadedLo : UInt32
  downloadedLo : UInt32
  lastSeen : UInt32
  uploadedHi : UInt32
  downloadedHi : UInt32
  reserved : UInt16
  keySize : UInt8
  secureIdent : Digest kMaxPubKeySize
  deriving DecidableEq

namespace CreditStruct

def uploadedTotal (c : CreditStruct) : UInt64 :=
  (c.uploadedHi.toUInt64 <<< 32) ||| c.uploadedLo.toUInt64

def downloadedTotal (c : CreditStruct) : UInt64 :=
  (c.downloadedHi.toUInt64 <<< 32) ||| c.downloadedLo.toUInt64

/-- The key on record. -/
def storedKey (c : CreditStruct) : List UInt8 := c.secureIdent.bytes.take c.keySize.toNat

/-- The record keeps its key inside its array. -/
def KeyFits (c : CreditStruct) : Prop := c.keySize.toNat≤kMaxPubKeySize

instance (c : CreditStruct) : Decidable c.KeyFits := inferInstanceAs (Decidable (_ ≤ _))

end CreditStruct

/-- Credits of one peer; the wait times are not part of it. -/
structure ClientCredits where
  credits : CreditStruct
  identState : IdentState
  identIP : Address
  publicKey : Digest kMaxPubKeySize
  publicKeyLen : UInt8
  cryptRndChallengeFor : UInt32
  cryptRndChallengeFrom : UInt32
  deriving DecidableEq

/-- What OpenSSL is used for: reading a public key, checking and making a signature of the SHA-1
hash of a message. -/
structure OpenSSL where
  Key : Type
  d2iPubkey : List UInt8 → Option Key
  rsaVerify : Key → (message signature : List UInt8) → Bool
  rsaSign : (message : List UInt8) → Option (List UInt8)

/-- Our own public key; a longer one is refused when it is loaded. -/
structure OwnKey where
  publicKey : List UInt8
  fits : publicKey.length≤kMaxPubKeySize

namespace ClientCredits

def initializeIdent (c : ClientCredits) : Option ClientCredits :=
  if c.credits.keySize = 0 then
    some { c with
      publicKey := .zero _
      publicKeyLen := 0
      identState := .NotAvailable
      cryptRndChallengeFor := 0
      cryptRndChallengeFrom := 0
      identIP := .none }
  else
    (c.publicKey.memcpy c.credits.secureIdent c.credits.keySize.toNat).map fun publicKey =>
      { c with
        publicKey
        publicKeyLen := c.credits.keySize
        identState := .IdNeeded
        cryptRndChallengeFor := 0
        cryptRndChallengeFrom := 0
        identIP := .none }

/-- The constructor from a record; none if a copy leaves its array. -/
def ofStruct (credits : CreditStruct) : Option ClientCredits :=
  initializeIdent ⟨credits,.NotAvailable,.none,.zero _,0,0,0⟩

/-- The constructor from a user hash. -/
def ofUserHash (userHash : MD4Hash) : Option ClientCredits :=
  ofStruct ⟨userHash,0,0,0,0,0,0,0,.zero _⟩

def currentIdentState (c : ClientCredits) (forIP : Address) : IdentState :=
  if c.identState ≠ .Identified then c.identState
  else if forIP = c.identIP then .Identified
  else .IdBadGuy

/-- When crypto is available and the identity is bad, credits are refused. -/
def refuses (cryptoAvailable : Bool) (c : ClientCredits) (forIP : Address) : Bool :=
  match c.currentIdentState forIP with
  | .IdFailed | .IdBadGuy | .IdNeeded => cryptoAvailable
  | _ => false

def addDownloaded (cryptoAvailable : Bool) (c : ClientCredits) (bytes : UInt32)
    (forIP : Address) : ClientCredits :=
  if c.refuses cryptoAvailable forIP then c
  else
    let current := c.credits.downloadedTotal + bytes.toUInt64
    { c with credits := { c.credits with
        downloadedLo := current.toUInt32
        downloadedHi := (current >>> 32).toUInt32 } }

def addUploaded (cryptoAvailable : Bool) (c : ClientCredits) (bytes : UInt32)
    (forIP : Address) : ClientCredits :=
  if c.refuses cryptoAvailable forIP then c
  else
    let current := c.credits.uploadedTotal + bytes.toUInt64
    { c with credits := { c.credits with
        uploadedLo := current.toUInt32
        uploadedHi := (current >>> 32).toUInt32 } }

/-- For security, prior credits of a peer that gets its key are deleted. -/
def deletePrior (credits : CreditStruct) : CreditStruct :=
  if 0<credits.downloadedTotal then
    { credits with downloadedHi := 0, downloadedLo := 1, uploadedHi := 0, uploadedLo := 1 }
  else credits

def verified (c : ClientCredits) (forIP : Address) : Option ClientCredits :=
  if c.credits.keySize = 0 then
    (c.credits.secureIdent.memcpy c.publicKey c.publicKeyLen.toNat).map fun secureIdent =>
      { c with
        credits := deletePrior { c.credits with keySize := c.publicKeyLen, secureIdent }
        identIP := forIP
        identState := .Identified }
  else some { c with identIP := forIP, identState := .Identified }

/-- `ident` are the `identLen` bytes of the key packet. -/
def setSecureIdent (c : ClientCredits) (ident : List UInt8) : Option (Bool × ClientCredits) :=
  if kMaxPubKeySize < ident.length ∨ c.credits.keySize ≠ 0 then some (false, c)
  else
    (c.publicKey.memcpy (⟨ident, rfl⟩ : Digest ident.length) ident.length).map fun publicKey =>
      (true, { c with
        publicKey
        publicKeyLen := UInt8.ofNat ident.length
        identState := .IdNeeded })

/-- Only an open check can fail. -/
def failed (c : ClientCredits) : ClientCredits :=
  if c.identState = .IdNeeded then { c with identState := .IdFailed } else c

/-- The message a signature is about, built in a buffer of
`kMaxPubKeySize + 4 + 4 + 1` bytes; none if it leaves the buffer. -/
def identMessage (key : List UInt8) (challenge ip : UInt32) (chaIPKind : UInt8) :
    Option (List UInt8) :=
  let msg := key++leBytes 4 challenge.toNat ++
    if chaIPKind≠0 then leBytes 4 ip.toNat++[chaIPKind] else []
  if msg.length≤kMaxPubKeySize+4+4+1 then some msg else none

def createSignature (ssl : OpenSSL) (c : ClientCredits) (maxSize : Nat) (challengeIP : UInt32)
    (chaIPKind : UInt8) : Option (List UInt8) :=
  (c.publicKey.load c.publicKeyLen.toNat).bind fun key =>
    (identMessage key c.cryptRndChallengeFrom challengeIP chaIPKind).map fun msg =>
      let sig := (ssl.rsaSign msg).getD []
      if maxSize < sig.length then [] else sig

/-- The address a signature of the second version is bound to; `serverIP` is our address as the
server tells it. -/
def boundIP (forIP : Address) (chaIPKind : UInt8) (seenAs : Address) (serverIP : UInt32) :
    UInt32 :=
  if chaIPKind=kCryptCipLocalClient then UInt32.ofNat forIP.toNetworkUint32
  else if chaIPKind=kCryptCipRemoteClient then
    match seenAs with
    | .ipv4 _ => UInt32.ofNat seenAs.toNetworkUint32
    | _ => serverIP
  else 0

def verifyIdent (ssl : OpenSSL) (own : OwnKey) (c : ClientCredits) (signature : List UInt8)
    (forIP : Address) (chaIPKind : UInt8) (seenAs : Address) (serverIP : UInt32) :
    Option (Bool × ClientCredits) :=
  if c.publicKeyLen = 0 then some (false, c)
  else
    (c.publicKey.load c.publicKeyLen.toNat).bind fun key =>
      match ssl.d2iPubkey key with
      | none => some (false, c.failed)
      | some peerKey =>
        (identMessage own.publicKey c.cryptRndChallengeFor
          (boundIP forIP chaIPKind seenAs serverIP) chaIPKind).bind fun msg =>
          if ssl.rsaVerify peerKey msg signature then (c.verified forIP).map fun c' => (true, c')
          else some (false, c.failed)

end ClientCredits

end EmuleQt.Client
